import MailTemplate.Proofs.Markup.Numbering
import Mathlib.Logic.Relation

/-! The nodes around a node. In a document that was read every node comes after its parent, so the way
outwards ends, and no node is cut off from it. -/

namespace MailTemplate

theorem Forest.parent_lt {forest : Forest} {parent first k : Nat} (hp : parent < first) {n : Node}
    (h : (forest.nodes parent first)[k]? = some n) :
    ∃ outer : Nat, n.parent = some outer ∧ outer < first + k := by
  induction forest generalizing parent first k with
  | nil => cases h
  | leaf l next ih =>
    cases k with
    | zero =>
      cases h
      exact ⟨parent, rfl, hp⟩
    | succ k =>
      obtain ⟨outer, ho, hlt⟩ := ih (Nat.lt_succ_of_lt hp) h
      exact ⟨outer, ho, by omega⟩
  | element e children next ihc ihn =>
    cases k with
    | zero =>
      cases h
      exact ⟨parent, rfl, hp⟩
    | succ k =>
      rw [Forest.nodes, List.getElem?_cons_succ] at h
      by_cases hk : k < (children.nodes first (first + 1)).length
      · rw [List.getElem?_append_left hk] at h
        obtain ⟨outer, ho, hlt⟩ := ihc (Nat.lt_succ_self first) h
        exact ⟨outer, ho, by omega⟩
      · rw [List.getElem?_append_right (Nat.le_of_not_lt hk)] at h
        obtain ⟨outer, ho, hlt⟩ := ihn (by omega) h
        rw [Forest.length_nodes] at hk hlt
        exact ⟨outer, ho, by omega⟩

namespace Document

/-- A node is around another one: it is the parent, or around the parent. -/
def IsAround (doc : Document) (outer node : NodeId) : Prop :=
  Relation.TransGen (fun node parent => doc.parent? node = some parent) node outer

section
variable {doc : Document} {node outer bound : Nat}

theorem lt_of_parent?_ofForest {forest : Forest} (h : (ofForest forest).parent? node = some outer) :
    outer < node := by
  cases node with
  | zero => cases h
  | succ node =>
    obtain ⟨n, hn, hparent⟩ := Option.bind_eq_some_iff.1 h
    rw [ofForest, List.getElem?_toArray, List.getElem?_cons_succ] at hn
    obtain ⟨found, hfound, hlt⟩ := Forest.parent_lt Nat.zero_lt_one hn
    rw [hparent] at hfound
    obtain rfl := Option.some.inj hfound
    rwa [Nat.add_comm] at hlt

theorem mem_ancestors_succ : outer ∈ doc.ancestors (bound + 1) node ↔
    ∃ parent, doc.parent? node = some parent ∧
      (outer = parent ∨ outer ∈ doc.ancestors bound parent) := by
  rw [ancestors]
  split
  · next parent hp => simp [hp]
  · next hp => simp [hp]

theorem isAround_iff : doc.IsAround outer node ↔
    ∃ parent, doc.parent? node = some parent ∧ (outer = parent ∨ doc.IsAround outer parent) := by
  rw [IsAround, Relation.TransGen.head'_iff]
  exact exists_congr fun parent => and_congr_right fun _ =>
    Relation.reflTransGen_iff_eq_or_transGen

section
variable (hl : ∀ {node outer : Nat}, doc.parent? node = some outer → outer < node)
include hl

theorem lt_of_isAround (h : doc.IsAround outer node) : outer < node := by
  induction h with
  | single hp => exact hl hp
  | tail _ hp ih => exact (hl hp).trans ih

theorem mem_ancestors_iff (hb : node ≤ bound) : outer ∈ doc.ancestors bound node ↔ doc.IsAround outer node := by
  induction bound generalizing node with
  | zero =>
    rw [isAround_iff]
    refine iff_of_false List.not_mem_nil ?_
    rintro ⟨parent, hp, -⟩
    have hlt := hl hp
    omega
  | succ bound ih =>
    rw [mem_ancestors_succ, isAround_iff]
    refine exists_congr fun parent => and_congr_right fun hp => ?_
    have hlt := hl hp
    rw [ih (by omega)]

end
end
end Document
end MailTemplate
