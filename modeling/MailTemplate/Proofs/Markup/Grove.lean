import MailTemplate.Proofs.Markup.Numbering
import MailTemplate.Proofs.Markup.Surgery
import Mathlib.Data.List.Perm.Subperm

/-! Groves: forests whose nodes carry their numbers. A document holds a grove where its links and
data agree with it; what is read off the document is then read off the grove. -/

namespace MailTemplate

/-- Trees in order, every node with its number. -/
inductive Grove where
  | nil
  | leaf (id : NodeId) (leaf : Leaf) (next : Grove)
  | element (id : NodeId) (element : Element) (children next : Grove)
  deriving Repr, DecidableEq

namespace Grove

def roots : Grove → List NodeId
  | nil => []
  | leaf id _ next => id :: next.roots
  | element id _ _ next => id :: next.roots

def ids : Grove → List NodeId
  | nil => []
  | leaf id _ next => id :: next.ids
  | element id _ children next => id :: (children.ids ++ next.ids)

def forest : Grove → Forest
  | nil => .nil
  | leaf _ l next => .leaf l next.forest
  | element _ e children next => .element e children.forest next.forest

/-- The elements with their numbers, in document order. -/
def elements : Grove → List (NodeId × Element)
  | nil => []
  | leaf _ _ next => next.elements
  | element id e children next => (id, e) :: (children.elements ++ next.elements)

/-- The document has the nodes of the grove, with the same children. -/
def Stands (doc : Document) : Grove → Prop
  | nil => True
  | leaf id l next => doc.data? id = some (.leaf l) ∧ doc.children id = [] ∧ next.Stands doc
  | element id e children next =>
    doc.data? id = some (.element e) ∧ doc.children id = children.roots ∧ children.Stands doc ∧
      next.Stands doc

theorem roots_sublist_ids (grove : Grove) : grove.roots.Sublist grove.ids := by
  induction grove with
  | nil => exact List.Sublist.refl []
  | leaf id l next ih => exact ih.cons_cons id
  | element id e children next _ ih =>
    exact (ih.trans (List.sublist_append_right _ _)).cons_cons id

theorem roots_subset_ids (grove : Grove) : grove.roots ⊆ grove.ids := grove.roots_sublist_ids.subset

theorem mem_ids_of_mem_elements {grove : Grove} {id : NodeId} {e : Element}
    (h : (id, e) ∈ grove.elements) : id ∈ grove.ids := by
  induction grove with
  | nil => cases h
  | leaf i l next ih => exact List.mem_cons_of_mem _ (ih h)
  | element i e' children next ihc ihn =>
    rcases List.mem_cons.1 h with h | h
    · cases h
      exact List.mem_cons_self
    · rcases List.mem_append.1 h with h | h
      · exact List.mem_cons_of_mem _ (List.mem_append_left _ (ihc h))
      · exact List.mem_cons_of_mem _ (List.mem_append_right _ (ihn h))

section
variable {doc : Document} {grove : Grove}

theorem Stands.lt_size (h : grove.Stands doc) {id : NodeId} (hm : id ∈ grove.ids) :
    id < doc.size := by
  induction grove with
  | nil => cases hm
  | leaf i l next ih =>
    rcases List.mem_cons.1 hm with rfl | hm
    · exact Document.lt_size_of_data? h.1
    · exact ih h.2.2 hm
  | element i e children next ihc ihn =>
    rcases List.mem_cons.1 hm with rfl | hm
    · exact Document.lt_size_of_data? h.1
    · rcases List.mem_append.1 hm with hm | hm
      · exact ihc h.2.2.1 hm
      · exact ihn h.2.2.2 hm

theorem Stands.data?_ne_document (h : grove.Stands doc) {id : NodeId} (hm : id ∈ grove.ids) :
    doc.data? id ≠ some .document := by
  induction grove with
  | nil => cases hm
  | leaf i l next ih =>
    rcases List.mem_cons.1 hm with rfl | hm
    · rw [h.1]
      simp
    · exact ih h.2.2 hm
  | element i e children next ihc ihn =>
    rcases List.mem_cons.1 hm with rfl | hm
    · rw [h.1]
      simp
    · rcases List.mem_append.1 hm with hm | hm
      · exact ihc h.2.2.1 hm
      · exact ihn h.2.2.2 hm

theorem Stands.data?_of_mem_elements (h : grove.Stands doc) {id : NodeId} {e : Element}
    (hm : (id, e) ∈ grove.elements) : doc.data? id = some (.element e) := by
  induction grove with
  | nil => cases hm
  | leaf i l next ih => exact ih h.2.2 hm
  | element i e' children next ihc ihn =>
    rcases List.mem_cons.1 hm with hm | hm
    · cases hm
      exact h.1
    · rcases List.mem_append.1 hm with hm | hm
      · exact ihc h.2.2.1 hm
      · exact ihn h.2.2.2 hm

theorem Stands.notMem_children (h : grove.Stands doc) (hd : grove.ids.Nodup) {id : NodeId}
    (hm : id ∈ grove.ids) : id ∉ doc.children id := by
  induction grove with
  | nil => cases hm
  | leaf i l next ih =>
    obtain ⟨-, hd⟩ := List.nodup_cons.1 hd
    rcases List.mem_cons.1 hm with rfl | hm
    · rw [h.2.1]
      simp
    · exact ih h.2.2 hd hm
  | element i e children next ihc ihn =>
    obtain ⟨hi, hd⟩ := List.nodup_cons.1 hd
    obtain ⟨hdc, hdn, -⟩ := List.nodup_append.1 hd
    rcases List.mem_cons.1 hm with rfl | hm
    · rw [h.2.1]
      exact fun hr => hi (List.mem_append_left _ (roots_subset_ids children hr))
    · rcases List.mem_append.1 hm with hm | hm
      · exact ihc h.2.2.1 hdc hm
      · exact ihn h.2.2.2 hdn hm

theorem Stands.nodup_children (h : grove.Stands doc) (hd : grove.ids.Nodup) {id : NodeId}
    (hm : id ∈ grove.ids) : (doc.children id).Nodup := by
  induction grove with
  | nil => cases hm
  | leaf i l next ih =>
    obtain ⟨-, hd⟩ := List.nodup_cons.1 hd
    rcases List.mem_cons.1 hm with rfl | hm
    · rw [h.2.1]
      exact List.nodup_nil
    · exact ih h.2.2 hd hm
  | element i e children next ihc ihn =>
    obtain ⟨-, hd⟩ := List.nodup_cons.1 hd
    obtain ⟨hdc, hdn, -⟩ := List.nodup_append.1 hd
    rcases List.mem_cons.1 hm with rfl | hm
    · rw [h.2.1]
      exact hdc.sublist children.roots_sublist_ids
    · rcases List.mem_append.1 hm with hm | hm
      · exact ihc h.2.2.1 hdc hm
      · exact ihn h.2.2.2 hdn hm

/-- A node of a grove is a topmost one, or a child of another node of the grove. -/
theorem Stands.exists_parent (h : grove.Stands doc) {id : NodeId} (hm : id ∈ grove.ids) :
    id ∈ grove.roots ∨ ∃ parent ∈ grove.ids, id ∈ doc.children parent := by
  induction grove with
  | nil => cases hm
  | leaf i l next ih =>
    rcases List.mem_cons.1 hm with rfl | hm
    · exact .inl List.mem_cons_self
    · rcases ih h.2.2 hm with hr | ⟨parent, hp, hc⟩
      · exact .inl (List.mem_cons_of_mem _ hr)
      · exact .inr ⟨parent, List.mem_cons_of_mem _ hp, hc⟩
  | element i e children next ihc ihn =>
    rcases List.mem_cons.1 hm with rfl | hm
    · exact .inl List.mem_cons_self
    · rcases List.mem_append.1 hm with hm | hm
      · rcases ihc h.2.2.1 hm with hr | ⟨parent, hp, hc⟩
        · exact .inr ⟨i, List.mem_cons_self, by rwa [h.2.1]⟩
        · exact .inr ⟨parent, List.mem_cons_of_mem _ (List.mem_append_left _ hp), hc⟩
      · rcases ihn h.2.2.2 hm with hr | ⟨parent, hp, hc⟩
        · exact .inl (List.mem_cons_of_mem _ hr)
        · exact .inr ⟨parent, List.mem_cons_of_mem _ (List.mem_append_right _ hp), hc⟩

theorem Stands.forest_roots (h : grove.Stands doc) {depth : Nat} (hd : grove.ids.length ≤ depth) :
    doc.forest depth grove.roots = grove.forest := by
  induction grove generalizing depth with
  | nil => cases depth <;> rfl
  | leaf id l next ih =>
    rw [ids, List.length_cons] at hd
    obtain ⟨depth, rfl⟩ : ∃ d, depth = d + 1 := ⟨depth - 1, by omega⟩
    rw [roots, Document.forest_cons, h.1]
    exact congrArg (Forest.leaf l) (ih h.2.2 (by omega))
  | element id e children next ihc ihn =>
    rw [ids, List.length_cons, List.length_append] at hd
    obtain ⟨depth, rfl⟩ : ∃ d, depth = d + 1 := ⟨depth - 1, by omega⟩
    rw [roots, Document.forest_cons, h.1, h.2.1]
    exact congrArg₂ (Forest.element e) (ihc h.2.2.1 (by omega)) (ihn h.2.2.2 (by omega))

theorem Stands.below_roots (h : grove.Stands doc) {depth : Nat} (hd : grove.ids.length ≤ depth) :
    grove.roots.flatMap (doc.below depth) = grove.ids := by
  induction grove generalizing depth with
  | nil => rfl
  | leaf id l next ih =>
    rw [ids, List.length_cons] at hd
    obtain ⟨d, rfl⟩ : ∃ d, depth = d + 1 := ⟨depth - 1, by omega⟩
    rw [roots, List.flatMap_cons, ih h.2.2 (by omega), Document.below, h.2.1, ids]
    rfl
  | element id e children next ihc ihn =>
    rw [ids, List.length_cons, List.length_append] at hd
    obtain ⟨d, rfl⟩ : ∃ d, depth = d + 1 := ⟨depth - 1, by omega⟩
    rw [roots, List.flatMap_cons, ihn h.2.2.2 (by omega), Document.below, h.2.1,
      ihc h.2.2.1 (by omega), ids, List.cons_append]

theorem Stands.filter_ids (h : grove.Stands doc) (p : Element → Bool) :
    (grove.ids.filter fun id => (doc.element? id).any p) =
      (grove.elements.filter fun pair => p pair.2).map (·.1) := by
  induction grove with
  | nil => rfl
  | leaf id l next ih =>
    have he : doc.element? id = none := by simp [Document.element?, h.1]
    simp [ids, elements, he, ih h.2.2]
  | element id e children next ihc ihn =>
    have he : doc.element? id = some e := by simp [Document.element?, h.1]
    by_cases hp : p e = true
    · simp [ids, elements, he, hp, ihc h.2.2.1, ihn h.2.2.2]
    · simp [ids, elements, he, hp, ihc h.2.2.1, ihn h.2.2.2]

end
end Grove

namespace Document

structure IsGrove (doc : Document) (grove : Grove) : Prop where
  linked : doc.Linked
  rootData : doc.data? root = some .document
  rootChildren : doc.children root = grove.roots
  stands : grove.Stands doc
  distinct : (root :: grove.ids).Nodup

section
variable {doc : Document} {grove : Grove}

theorem IsGrove.length_lt_size (h : doc.IsGrove grove) : grove.ids.length < doc.size := by
  have hsub : (root :: grove.ids) ⊆ List.range doc.size := by
    intro id hm
    rw [List.mem_range]
    rcases List.mem_cons.1 hm with rfl | hm
    · exact lt_size_of_data? h.rootData
    · exact h.stands.lt_size hm
  have hlen := (List.Nodup.subperm h.distinct hsub).length_le
  rw [List.length_cons, List.length_range] at hlen
  exact hlen

theorem IsGrove.toForest (h : doc.IsGrove grove) : doc.toForest = grove.forest := by
  rw [Document.toForest, h.rootChildren]
  exact h.stands.forest_roots (Nat.le_of_lt h.length_lt_size)

theorem IsGrove.below_root (h : doc.IsGrove grove) : doc.below doc.size root = root :: grove.ids := by
  have hlen := h.length_lt_size
  obtain ⟨d, hd⟩ : ∃ d, doc.size = d + 1 := ⟨doc.size - 1, by omega⟩
  rw [hd, below, h.rootChildren, h.stands.below_roots (by omega)]

theorem IsGrove.elementsNamed (h : doc.IsGrove grove) (name : Text) :
    doc.elementsNamed name = (grove.elements.filter fun pair =>
      Text.equalIgnoringCase pair.2.name name).map (·.1) := by
  have hroot : doc.element? root = none := by simp [element?, h.rootData]
  have hany : ∀ id, ((doc.element? id).any fun e => Text.equalIgnoringCase e.name name) = true →
      (doc.element? id).isSome = true := by
    intro id hid
    cases he : doc.element? id with
    | none => simp [he] at hid
    | some e => rfl
  have hfilter : ∀ ids : List NodeId,
      ((ids.filter fun id => (doc.element? id).isSome).filter fun id =>
        (doc.element? id).any fun e => Text.equalIgnoringCase e.name name) =
      ids.filter fun id => (doc.element? id).any fun e => Text.equalIgnoringCase e.name name := by
    intro ids
    rw [List.filter_filter]
    refine List.filter_congr fun id _ => ?_
    by_cases hid : ((doc.element? id).any fun e => Text.equalIgnoringCase e.name name) = true
    · simp [hid, hany id hid]
    · simp [hid]
  rw [Document.elementsNamed, elements, h.below_root, hfilter, List.filter_cons, hroot]
  exact h.stands.filter_ids fun e => Text.equalIgnoringCase e.name name

end
end Document
end MailTemplate
