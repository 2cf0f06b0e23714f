import MailTemplate.Proofs.Markup.Operations

/-! Operations that fail. Nodes are looked up before anything is changed, so a failure leaves the
document as it was. The one exception is a node that is put in its own place: it leaves its parent
before its place is looked up, and the place is gone. -/

namespace MailTemplate
namespace Operation

/-- How an operation ends: with nothing to tell, or with the cause of its failure. -/
def outcome (doc : Document) : Operation → Except MarkupError Unit
  | create name => ((Edit.create (.named name)).run doc).1.map fun _ => ()
  | setAttr node name value => ((Edit.setAttr node name value).run doc).1
  | append parent child => ((Edit.append parent child).run doc).1
  | take node => ((Edit.take node).run doc).1.map fun _ => ()
  | replace old new => ((Edit.replace old new).run doc).1

/-- A node with a parent is to be put in its own place. -/
def ReplacesItself (doc : Document) (operation : Operation) : Prop :=
  ∃ node parent, operation = replace node node ∧ doc.parent? node = some parent

section
variable {doc : Document} {parent child node old new : NodeId} {cause : MarkupError}

theorem outcome_append : outcome doc (append parent child) =
    if doc.size ≤ parent then .error (.noSuchNode parent)
    else if doc.size ≤ child then .error (.noSuchNode child) else .ok () := by
  rw [outcome]
  by_cases hp : doc.size ≤ parent
  · rw [if_pos hp, Edit.append, Edit.run_bind, Edit.run_check_of_le hp]
  · rw [if_neg hp]
    have hparent := Nat.lt_of_not_le hp
    by_cases hc : doc.size ≤ child
    · rw [if_pos hc, Edit.append, Edit.run_bind_of_ok (Edit.run_check hparent), Edit.run_bind,
        Edit.run_check_of_le hc]
    · rw [if_neg hc, Edit.run_append_of_lt hparent (Nat.lt_of_not_le hc)]

theorem outcome_take : outcome doc (take node) =
    if doc.size ≤ node then .error (.noSuchNode node) else .ok () := by
  rw [outcome]
  by_cases hn : doc.size ≤ node
  · rw [if_pos hn, Edit.take, Edit.run_bind, Edit.run_check_of_le hn]
    rfl
  · rw [if_neg hn, Edit.run_take (Nat.lt_of_not_le hn)]
    rfl

theorem outcome_setAttr (name value : Text) : outcome doc (setAttr node name value) =
    if (doc.element? node).isSome then .ok () else .error (.notAnElement node) := by
  rw [outcome, Edit.setAttr, Edit.run_bind_of_ok Edit.run_get]
  cases doc.element? node <;> rfl

/-- Where links agree, a node with a parent can be replaced by every other node, but not by itself. -/
theorem outcome_replace (h : doc.Meshed) : outcome doc (replace old new) =
    if doc.size ≤ old then .error (.noSuchNode old)
    else if doc.size ≤ new then .error (.noSuchNode new)
    else if (doc.parent? old).isSome ∧ old ≠ new then .ok () else .error (.detached old) := by
  rw [outcome]
  by_cases ho : doc.size ≤ old
  · rw [if_pos ho, Edit.replace, Edit.run_bind, Edit.run_check_of_le ho]
  rw [if_neg ho]
  have hold := Nat.lt_of_not_le ho
  by_cases hn : doc.size ≤ new
  · rw [if_pos hn, Edit.replace, Edit.run_bind_of_ok (Edit.run_check hold), Edit.run_bind,
      Edit.run_check_of_le hn]
  rw [if_neg hn]
  have hnew := Nat.lt_of_not_le hn
  cases hp : doc.parent? old with
  | none =>
    rw [if_neg (by simp), Edit.replace, Edit.run_bind_of_ok (Edit.run_check hold),
      Edit.run_bind_of_ok (Edit.run_check hnew), Edit.run_bind_of_ok Edit.run_get, hp]
    rfl
  | some parent =>
    -- the old node has its place unless it is the one that has just left
    have hplace : old ∈ (doc.detach new).children parent ↔ old ≠ new := by
      rw [h.children_detach, List.mem_filter, bne_iff_ne]
      exact and_iff_right (h.child hp)
    rw [Edit.run_replace_eq hold hnew hp]
    by_cases hne : old = new
    · rw [if_neg (mt hplace.1 (not_not_intro hne)), if_neg fun hboth => hboth.2 hne]
    · rw [if_pos (hplace.2 hne), if_pos ⟨rfl, hne⟩]

/-- A node with a parent that is put in its own place is cut off instead. -/
theorem ReplacesItself.detaches (h : doc.Meshed) {operation : Operation}
    (hr : operation.ReplacesItself doc) : ∃ node, operation.outcome doc = .error (.detached node) ∧
      operation.after doc = doc.detach node ∧ operation.after doc ≠ doc := by
  obtain ⟨node, parent, rfl, hp⟩ := hr
  have hn : node < doc.size := Document.lt_size_of_parent? hp
  have hgone : node ∉ (doc.detach node).children parent := by
    rw [h.children_detach, List.mem_filter]
    simp
  have hafter : after doc (replace node node) = doc.detach node := by
    rw [after_replace, if_pos ⟨hn, hn⟩, hp]
    exact if_neg hgone
  refine ⟨node, ?_, hafter, fun hsame => ?_⟩
  · rw [outcome_replace h, if_neg (Nat.not_le.2 hn), if_neg (Nat.not_le.2 hn),
      if_neg fun hboth => hboth.2 rfl]
  · have hnone : (doc.detach node).parent? node = none := by
      rw [Document.parent?_detach, if_pos rfl]
    rw [← hafter, hsame, hp] at hnone
    cases hnone

theorem after_eq_self (h : doc.Meshed) {operation : Operation}
    (he : operation.outcome doc = .error cause) (hr : ¬ operation.ReplacesItself doc) :
    operation.after doc = doc := by
  cases operation with
  | create name => cases he
  | setAttr node name value =>
    rw [outcome_setAttr] at he
    rw [after_setAttr]
    cases hn : doc.element? node with
    | none => rfl
    | some element =>
      rw [hn] at he
      cases he
  | append parent child =>
    rw [outcome_append] at he
    rw [after_append]
    refine if_neg fun hin => ?_
    rw [if_neg (Nat.not_le.2 hin.1), if_neg (Nat.not_le.2 hin.2)] at he
    cases he
  | take node =>
    refine after_take_of_le ?_
    by_contra hn
    rw [outcome_take, if_neg hn] at he
    cases he
  | replace old new =>
    rw [after_replace]
    by_cases hin : old < doc.size ∧ new < doc.size
    · rw [if_pos hin]
      cases hp : doc.parent? old with
      | none => rfl
      | some parent =>
        have hne : old ≠ new := by
          rintro rfl
          exact hr ⟨old, parent, rfl, hp⟩
        rw [outcome_replace h, if_neg (Nat.not_le.2 hin.1), if_neg (Nat.not_le.2 hin.2), hp,
          if_pos ⟨rfl, hne⟩] at he
        cases he
    · exact if_neg hin

/-- Whatever was done to a document that was read, a failed operation leaves it exactly as it was
unless a node with a parent was to be put in its own place. That always fails, and cuts the node
off. -/
theorem after_eq_self_iff {source : Text} (h : Document.parse source = .ok doc)
    (operations : List Operation) (operation : Operation) :
    let final := operations.foldl after doc
    (∀ cause, operation.outcome final = .error cause →
      (operation.after final = final ↔ ¬ operation.ReplacesItself final)) ∧
      (operation.ReplacesItself final → ∃ node,
        operation.outcome final = .error (.detached node) ∧
          operation.after final = final.detach node) := by
  intro final
  have hmeshed : final.Meshed :=
    (Document.rooted_foldl_after (Document.rooted_of_parse h) operations).toMeshed
  refine ⟨fun cause he => ⟨fun hsame hr => ?_, after_eq_self hmeshed he⟩, fun hr => ?_⟩
  · obtain ⟨node, -, -, hchanged⟩ := hr.detaches hmeshed
    exact hchanged hsame
  · obtain ⟨node, houtcome, hafter, -⟩ := hr.detaches hmeshed
    exact ⟨node, houtcome, hafter⟩

/-- A new element is nowhere, so nothing can be put in its place, not even the element itself. -/
theorem after_eq_self_created :
    ∃ doc, Document.parse "<a>b</a>".toList = .ok doc ∧
      let final := [create ['x']].foldl after doc
      outcome final (replace 3 3) = .error (.detached 3) ∧ after final (replace 3 3) = final := by
  have h : Document.parse "<a>b</a>".toList = .ok (.ofForest (.element ⟨['a'], [], false⟩
      (.leaf (.text ['b']) .nil) .nil)) := by decide +kernel
  have hfails : outcome ([create ['x']].foldl after (.ofForest (.element ⟨['a'], [], false⟩
      (.leaf (.text ['b']) .nil) .nil))) (replace 3 3) = .error (.detached 3) := by decide +kernel
  obtain ⟨hunchanged, -⟩ := after_eq_self_iff h [create ['x']] (replace 3 3)
  refine ⟨_, h, hfails, (hunchanged _ hfails).2 ?_⟩
  rintro ⟨node, parent, he, hp⟩
  cases he
  cases hp

theorem after_replace_itself :
    ∃ doc, Document.parse "<a>b</a>".toList = .ok doc ∧
      outcome doc (replace 1 1) = .error (.detached 1) ∧ doc.parent? 1 = some Document.root ∧
        (after doc (replace 1 1)).parent? 1 = none ∧ (after doc (replace 1 1)).serialize = [] :=
  ⟨.ofForest (.element ⟨['a'], [], false⟩ (.leaf (.text ['b']) .nil) .nil), by decide +kernel,
    by decide +kernel, by decide +kernel, by decide +kernel, by decide +kernel⟩

end
end Operation
end MailTemplate
