import MailTemplate.Proofs.Markup.Relabel

/-! Documents under arbitrary edits. An edit may name any nodes, succeed or fail half-way; afterwards
the links agree in both directions all the same, and the root is the only node that is no element and
no leaf. -/

namespace MailTemplate

/-- What can be asked of a document from outside. -/
inductive Operation where
  | create (name : Text)
  | setAttr (node : NodeId) (name value : Text)
  | append (parent child : NodeId)
  | take (node : NodeId)
  | replace (old new : NodeId)
  deriving Repr, DecidableEq

namespace Operation

/-- The document after an operation, whether it succeeded or failed. -/
def after (doc : Document) : Operation → Document
  | create name => ((Edit.create (.named name)).run doc).2
  | setAttr node name value => ((Edit.setAttr node name value).run doc).2
  | append parent child => ((Edit.append parent child).run doc).2
  | take node => ((Edit.take node).run doc).2
  | replace old new => ((Edit.replace old new).run doc).2

end Operation

namespace Document

/-- A document whose links agree in both directions: the children of a node are the nodes that have
it as their parent, each of them once. -/
structure Meshed (doc : Document) : Prop extends doc.Linked where
  child : ∀ {k child}, doc.parent? child = some k → child ∈ doc.children k

/-- A document whose links agree and whose only node that is no element and no leaf is the root. -/
structure Rooted (doc : Document) : Prop extends doc.Meshed where
  rootData : doc.data? root = some .document
  onlyRoot : ∀ {k}, doc.data? k = some .document → k = root

section
variable {doc : Document} {node parent child k : NodeId}

theorem Meshed.parent?_eq_some_iff (h : doc.Meshed) :
    doc.parent? child = some parent ↔ child ∈ doc.children parent := ⟨h.child, h.parent⟩

theorem Meshed.lt_size (h : doc.Meshed) (hc : child ∈ doc.children parent) :
    parent < doc.size ∧ child < doc.size :=
  ⟨lt_size_of_mem_children hc, lt_size_of_parent? (h.parent hc)⟩

theorem detach_of_parent?_eq_some (h : doc.parent? node = some parent) :
    doc.detach node =
      (doc.setParent node none).setChildren parent (·.filter (· != node)) := by
  rw [detach, h]
  rfl

@[simp] theorem size_detach (doc : Document) (node : NodeId) :
    (doc.detach node).size = doc.size := by
  cases h : doc.parent? node with
  | none => rw [detach_of_parent? h]
  | some parent => rw [detach_of_parent?_eq_some h, size_setChildren, size_setParent]

@[simp] theorem data?_detach (doc : Document) (node k : NodeId) :
    (doc.detach node).data? k = doc.data? k := by
  cases h : doc.parent? node with
  | none => rw [detach_of_parent? h]
  | some parent => rw [detach_of_parent?_eq_some h, data?_setChildren, data?_setParent]

theorem parent?_detach (doc : Document) (node k : NodeId) :
    (doc.detach node).parent? k = if k = node then none else doc.parent? k := by
  cases h : doc.parent? node with
  | none =>
    rw [detach_of_parent? h]
    by_cases hk : k = node
    · rw [if_pos hk, hk, h]
    · rw [if_neg hk]
  | some parent =>
    rw [detach_of_parent?_eq_some h, parent?_setChildren, parent?_setParent (lt_size_of_parent? h)]

theorem Meshed.children_detach (h : doc.Meshed) (node k : NodeId) :
    (doc.detach node).children k = (doc.children k).filter (· != node) := by
  have hkeep : node ∉ doc.children k → doc.children k = (doc.children k).filter (· != node) := by
    intro hn
    refine (List.filter_eq_self.2 fun child hm => ?_).symm
    exact bne_iff_ne.2 fun he => hn (he ▸ hm)
  cases hp : doc.parent? node with
  | none =>
    rw [detach_of_parent? hp]
    exact hkeep fun hm => Option.some_ne_none k ((h.parent hm).symm.trans hp)
  | some parent =>
    have hparent : parent < (doc.setParent node none).size := by
      rw [size_setParent]
      exact (h.lt_size (h.child hp)).1
    rw [detach_of_parent?_eq_some hp, children_setChildren hparent, children_setParent,
      children_setParent]
    by_cases hk : k = parent
    · rw [if_pos hk, hk]
    · rw [if_neg hk]
      exact hkeep fun hm => hk (Option.some.inj ((h.parent hm).symm.trans hp))

theorem Meshed.detach (h : doc.Meshed) (node : NodeId) : (doc.detach node).Meshed := by
  refine ⟨⟨fun {k child} hm => ?_, fun k => ?_⟩, fun {k child} hp => ?_⟩
  · rw [h.children_detach, List.mem_filter, bne_iff_ne] at hm
    rw [parent?_detach, if_neg hm.2, h.parent hm.1]
  · rw [h.children_detach]
    exact (h.nodup k).filter _
  · rw [parent?_detach] at hp
    by_cases hc : child = node
    · rw [if_pos hc] at hp
      cases hp
    · rw [if_neg hc] at hp
      rw [h.children_detach, List.mem_filter, bne_iff_ne]
      exact ⟨h.child hp, hc⟩

theorem Meshed.add (h : doc.Meshed) (element : Element) : (doc.add element).Meshed := by
  refine ⟨h.toLinked.add element, fun {k child} hp => ?_⟩
  rw [parent?_add] at hp
  rw [children_add]
  exact h.child hp

theorem Meshed.setElement (h : doc.Meshed) (element : Element) :
    (doc.setElement node element).Meshed := by
  refine ⟨h.toLinked.setElement element, fun {k child} hp => ?_⟩
  rw [parent?_setElement] at hp
  rw [children_setElement]
  exact h.child hp

theorem Meshed.append (h : doc.Meshed) (hp : parent < doc.size) (hc : child < doc.size)
    (hd : doc.parent? child = none) :
    ((doc.setParent child (some parent)).setChildren parent (· ++ [child])).Meshed := by
  refine ⟨h.toLinked.append hp hc hd, fun {k c} hk => ?_⟩
  have hp' : parent < (doc.setParent child (some parent)).size := by rwa [size_setParent]
  rw [parent?_setChildren, parent?_setParent hc] at hk
  rw [children_setChildren hp', children_setParent, children_setParent]
  by_cases hcc : c = child
  · rw [if_pos hcc] at hk
    rw [if_pos (Option.some.inj hk).symm, hcc]
    exact List.mem_append_right _ (List.mem_singleton_self child)
  · rw [if_neg hcc] at hk
    have hm := h.child hk
    by_cases hkp : k = parent
    · rw [if_pos hkp, ← hkp]
      exact List.mem_append_left _ hm
    · rw [if_neg hkp]
      exact hm

theorem Meshed.place {old new : NodeId} (h : doc.Meshed) (ho : old < doc.size)
    (hn : new < doc.size) (hne : new ≠ old) (hm : old ∈ doc.children parent)
    (hd : doc.parent? new = none) : (doc.place parent old new).Meshed := by
  refine ⟨h.toLinked.place ho hn hne hm hd, fun {k child} hp => ?_⟩
  rw [parent?_place ho hn] at hp
  rw [h.toLinked.children_place hm, List.mem_map]
  by_cases hco : child = old
  · rw [if_pos hco] at hp
    cases hp
  · rw [if_neg hco] at hp
    by_cases hcn : child = new
    · rw [if_pos hcn] at hp
      rw [← Option.some.inj hp, hcn]
      exact ⟨old, hm, renumber_self old new⟩
    · rw [if_neg hcn] at hp
      exact ⟨child, h.child hp, renumber_of_ne hco⟩

end
end Document

namespace Operation

section
variable {doc : Document} {parent child node old new k : NodeId}

@[simp] theorem after_create (name : Text) : after doc (create name) = doc.add (.named name) := rfl

theorem after_setAttr (node : NodeId) (name value : Text) :
    after doc (setAttr node name value) = match doc.element? node with
      | some element => doc.setElement node (element.setAttr name value)
      | none => doc := by
  rw [after, Edit.setAttr, Edit.run_bind_of_ok Edit.run_get]
  cases doc.element? node <;> rfl

theorem after_append : after doc (append parent child) =
    if parent < doc.size ∧ child < doc.size then
      ((doc.detach child).setParent child (some parent)).setChildren parent (· ++ [child])
    else doc := by
  rw [after]
  by_cases hp : parent < doc.size
  · by_cases hc : child < doc.size
    · rw [Edit.run_append_of_lt hp hc, if_pos ⟨hp, hc⟩]
    · rw [Edit.append, Edit.run_bind_of_ok (Edit.run_check hp), Edit.run_bind,
        Edit.run_check_of_le (Nat.le_of_not_lt hc), if_neg fun h => hc h.2]
  · rw [Edit.append, Edit.run_bind, Edit.run_check_of_le (Nat.le_of_not_lt hp),
      if_neg fun h => hp h.1]

theorem after_replace : after doc (replace old new) =
    if old < doc.size ∧ new < doc.size then match doc.parent? old with
      | some parent => if old ∈ (doc.detach new).children parent then
          (doc.detach new).place parent old new
        else doc.detach new
      | none => doc
    else doc := by
  rw [after]
  by_cases ho : old < doc.size
  · by_cases hn : new < doc.size
    · rw [if_pos ⟨ho, hn⟩]
      cases hp : doc.parent? old with
      | some parent =>
        rw [Edit.run_replace_eq ho hn hp]
        by_cases hm : old ∈ (doc.detach new).children parent
        · simp only [hm]
          rfl
        · simp only [hm]
          rfl
      | none =>
        rw [Edit.replace, Edit.run_bind_of_ok (Edit.run_check ho),
          Edit.run_bind_of_ok (Edit.run_check hn), Edit.run_bind_of_ok Edit.run_get, hp]
        rfl
    · rw [Edit.replace, Edit.run_bind_of_ok (Edit.run_check ho), Edit.run_bind,
        Edit.run_check_of_le (Nat.le_of_not_lt hn), if_neg fun h => hn h.2]
  · rw [Edit.replace, Edit.run_bind, Edit.run_check_of_le (Nat.le_of_not_lt ho),
      if_neg fun h => ho h.1]

theorem after_take_of_le (h : doc.size ≤ node) : after doc (take node) = doc := by
  rw [after, Edit.take, Edit.run_bind, Edit.run_check_of_le h]

theorem after_take (h : doc.Meshed) (hn : node < doc.size) :
    (after doc (take node)).size = doc.size ∧
      (∀ k, (after doc (take node)).data? k = doc.data? k) ∧
      (∀ k, (after doc (take node)).children k = if k = node then [] else doc.children k) ∧
      ∀ k, (after doc (take node)).parent? k =
        if k ∈ doc.children node then none else doc.parent? k := by
  obtain ⟨taken, hrun, htaken⟩ := Edit.exists_run_take hn fun child hm => (h.lt_size hm).2
  rw [after, hrun]
  exact htaken

/-- No operation puts a node of another kind where there was one, or makes another root. -/
theorem data?_after_eq_document_iff (h : doc.Meshed) (operation : Operation) :
    (after doc operation).data? k = some .document ↔ doc.data? k = some .document := by
  cases operation with
  | create name =>
    rw [after_create, Document.data?_add]
    by_cases hk : k = doc.size
    · have hnone : doc.data? k = none := by
        rw [Document.data?, Document.getElem?_eq_none hk.ge]
        rfl
      rw [if_pos hk, hnone]
      exact iff_of_false (by simp) (by simp)
    · rw [if_neg hk]
  | setAttr node name value =>
    rw [after_setAttr]
    cases he : doc.element? node with
    | none => rfl
    | some element =>
      have hdata := Document.element?_eq_some_iff.1 he
      simp only
      rw [Document.data?_setElement (Document.lt_size_of_data? hdata)]
      by_cases hk : k = node
      · rw [if_pos hk, hk, hdata]
        exact iff_of_false (by simp) (by simp)
      · rw [if_neg hk]
  | append parent child =>
    rw [after_append]
    split <;> simp
  | take node =>
    by_cases hn : node < doc.size
    · rw [(after_take h hn).2.1]
    · rw [after_take_of_le (Nat.le_of_not_lt hn)]
  | replace old new =>
    rw [after_replace]
    split
    · split
      · split <;> simp
      · rfl
    · rfl

theorem meshed_after (h : doc.Meshed) (operation : Operation) :
    (after doc operation).Meshed := by
  cases operation with
  | create name => exact h.add _
  | setAttr node name value =>
    rw [after_setAttr]
    cases doc.element? node with
    | none => exact h
    | some element => exact h.setElement _
  | append parent child =>
    rw [after_append]
    by_cases hin : parent < doc.size ∧ child < doc.size
    · rw [if_pos hin]
      have hfree : (doc.detach child).parent? child = none := by
        rw [Document.parent?_detach, if_pos rfl]
      exact (h.detach child).append (by simpa using hin.1) (by simpa using hin.2) hfree
    · rwa [if_neg hin]
  | take node =>
    by_cases hn : node < doc.size
    · obtain ⟨-, -, hchildren, hparent⟩ := after_take h hn
      refine ⟨⟨fun {k child} hm => ?_, fun k => ?_⟩, fun {k child} hp => ?_⟩
      · rw [hchildren] at hm
        by_cases hk : k = node
        · rw [if_pos hk] at hm
          cases hm
        · rw [if_neg hk] at hm
          have hother : child ∉ doc.children node := fun hmem =>
            hk (Option.some.inj ((h.parent hm).symm.trans (h.parent hmem)))
          rw [hparent, if_neg hother, h.parent hm]
      · rw [hchildren]
        by_cases hk : k = node
        · rw [if_pos hk]
          exact List.nodup_nil
        · rw [if_neg hk]
          exact h.nodup k
      · rw [hparent] at hp
        by_cases hm : child ∈ doc.children node
        · rw [if_pos hm] at hp
          cases hp
        · rw [if_neg hm] at hp
          have hk : k ≠ node := fun he => hm (he ▸ h.child hp)
          rw [hchildren, if_neg hk]
          exact h.child hp
    · rwa [after_take_of_le (Nat.le_of_not_lt hn)]
  | replace old new =>
    rw [after_replace]
    by_cases hin : old < doc.size ∧ new < doc.size
    · rw [if_pos hin]
      cases hp : doc.parent? old with
      | none => exact h
      | some parent =>
        have hdetached := h.detach new
        have hfree : (doc.detach new).parent? new = none := by
          rw [Document.parent?_detach, if_pos rfl]
        simp only
        by_cases hm : old ∈ (doc.detach new).children parent
        · have hne : new ≠ old := by
            rintro rfl
            rw [hdetached.parent hm] at hfree
            cases hfree
          rw [if_pos hm]
          exact hdetached.place (by simpa using hin.1) (by simpa using hin.2) hne hm hfree
        · rwa [if_neg hm]
    · rwa [if_neg hin]

theorem rooted_after (h : doc.Rooted) (operation : Operation) : (after doc operation).Rooted where
  toMeshed := meshed_after h.toMeshed operation
  rootData := (data?_after_eq_document_iff h.toMeshed operation).2 h.rootData
  onlyRoot hk := h.onlyRoot ((data?_after_eq_document_iff h.toMeshed operation).1 hk)

/-- A node gets a new parent only by being appended to it or by taking the place of a child. -/
theorem parent?_after (h : doc.Meshed) {operation : Operation} {outer : NodeId}
    (hp : (after doc operation).parent? k = some outer) :
    doc.parent? k = some outer ∨ operation = append outer k ∨
      ∃ old, operation = replace old k ∧ doc.parent? old = some outer := by
  have hdetach : ∀ {node}, (doc.detach node).parent? k = some outer → doc.parent? k = some outer := by
    intro node hd
    rw [Document.parent?_detach] at hd
    by_cases hk : k = node
    · rw [if_pos hk] at hd
      cases hd
    · rwa [if_neg hk] at hd
  cases operation with
  | create name => exact .inl (by rwa [after_create, Document.parent?_add] at hp)
  | setAttr node name value =>
    rw [after_setAttr] at hp
    cases he : doc.element? node with
    | none =>
      rw [he] at hp
      exact .inl hp
    | some element =>
      rw [he] at hp
      exact .inl (by rwa [Document.parent?_setElement] at hp)
  | append parent child =>
    rw [after_append] at hp
    by_cases hin : parent < doc.size ∧ child < doc.size
    · rw [if_pos hin, Document.parent?_setChildren,
        Document.parent?_setParent (by simpa using hin.2)] at hp
      by_cases hk : k = child
      · rw [if_pos hk] at hp
        rw [← Option.some.inj hp, hk]
        exact .inr (.inl rfl)
      · rw [if_neg hk] at hp
        exact .inl (hdetach hp)
    · rw [if_neg hin] at hp
      exact .inl hp
  | take node =>
    by_cases hn : node < doc.size
    · rw [(after_take h hn).2.2.2] at hp
      by_cases hm : k ∈ doc.children node
      · rw [if_pos hm] at hp
        cases hp
      · rw [if_neg hm] at hp
        exact .inl hp
    · rw [after_take_of_le (Nat.le_of_not_lt hn)] at hp
      exact .inl hp
  | replace old new =>
    rw [after_replace] at hp
    split at hp
    · next hin =>
      split at hp
      · next parent ho =>
        split at hp
        · rw [Document.parent?_place (by simpa using hin.1) (by simpa using hin.2)] at hp
          by_cases hko : k = old
          · rw [if_pos hko] at hp
            cases hp
          · rw [if_neg hko] at hp
            by_cases hkn : k = new
            · rw [if_pos hkn] at hp
              rw [hkn]
              exact .inr (.inr ⟨old, rfl, ho.trans hp⟩)
            · rw [if_neg hkn] at hp
              exact .inl (hdetach hp)
        · exact .inl (hdetach hp)
      · exact .inl hp
    · exact .inl hp

end
end Operation

namespace Document

theorem rooted_ofForest (forest : Forest) : (ofForest forest).Rooted := by
  have hgrove := isGrove_ofForest forest
  have hrootParent : (ofForest forest).parent? root = none := rfl
  refine ⟨⟨hgrove.linked, fun {k child} hp => ?_⟩, hgrove.rootData, fun {k} hk => ?_⟩
  · have hroot : child ≠ root := by
      rintro rfl
      rw [hrootParent] at hp
      cases hp
    obtain ⟨parent, hm⟩ : ∃ parent, child ∈ (ofForest forest).children parent := by
      rcases hgrove.stands.exists_parent
        (mem_ids_of_lt_size (lt_size_of_parent? hp) hroot) with hr | ⟨parent, -, hm⟩
      · exact ⟨root, by rwa [hgrove.rootChildren]⟩
      · exact ⟨parent, hm⟩
    rwa [Option.some.inj (hp.symm.trans (hgrove.linked.parent hm))]
  · by_contra hroot
    exact hgrove.stands.data?_ne_document (mem_ids_of_lt_size (lt_size_of_data? hk) hroot) hk

theorem rooted_of_parse {source : Text} {doc : Document} (h : parse source = .ok doc) :
    doc.Rooted := by
  obtain ⟨tokens, -, rfl⟩ := parse_eq_ok_iff.1 h
  exact rooted_ofForest _

theorem rooted_foldl_after {doc : Document} (h : doc.Rooted) (operations : List Operation) :
    (operations.foldl Operation.after doc).Rooted := by
  induction operations generalizing doc with
  | nil => exact h
  | cons operation operations ih => exact ih (Operation.rooted_after h operation)

end Document
end MailTemplate
