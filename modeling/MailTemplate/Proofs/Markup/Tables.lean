import MailTemplate.Proofs.Markup.OpenElements
import MailTemplate.Proofs.Markup.Turns

/-! All passes. The forest of a document comes out with tables in place of its custom elements, at
whatever depth they stand in each other; nothing else is touched, and no step fails. -/

namespace MailTemplate

def CustomTag.of? (element : Element) : Option CustomTag :=
  CustomTag.all.find? fun tag => Text.equalIgnoringCase element.name tag.name

namespace Forest

def pass (tag : CustomTag) : Forest → Forest
  | nil => nil
  | leaf l next => leaf l (next.pass tag)
  | element e children next =>
    if Text.equalIgnoringCase e.name tag.name then
      element (tag.replacement e.attr?) (tag.inside (children.pass tag)) (next.pass tag)
    else element e (children.pass tag) (next.pass tag)

/-- The forest with tables in place of its custom elements. -/
def tabled : Forest → Forest
  | nil => nil
  | leaf l next => leaf l next.tabled
  | element e children next => match CustomTag.of? e with
    | some tag => element (tag.replacement e.attr?) (tag.inside children.tabled) next.tabled
    | none => element e children.tabled next.tabled

end Forest

namespace Grove

/-- The grove of a forest, numbered in document order from `first`. -/
def ofForest (first : NodeId) : Forest → Grove
  | .nil => nil
  | .leaf l next => leaf first l (ofForest (first + 1) next)
  | .element e children next =>
    element first e (ofForest (first + 1) children) (ofForest (first + 1 + children.size) next)

@[simp] theorem forest_ofForest (first : NodeId) (forest : Forest) :
    (ofForest first forest).forest = forest := by
  induction forest generalizing first with
  | nil => rfl
  | leaf l next ih => rw [ofForest, Grove.forest, ih]
  | element e children next ihc ihn => rw [ofForest, Grove.forest, ihc, ihn]

@[simp] theorem roots_ofForest (first : NodeId) (forest : Forest) :
    (ofForest first forest).roots = forest.ids first := by
  induction forest generalizing first with
  | nil => rfl
  | leaf l next ih => rw [ofForest, roots, ih, Forest.ids]
  | element e children next _ ih => rw [ofForest, roots, ih, Forest.ids]

@[simp] theorem ids_ofForest (first : NodeId) (forest : Forest) :
    (ofForest first forest).ids = List.range' first forest.size := by
  induction forest generalizing first with
  | nil => rfl
  | leaf l next ih =>
    have hsize : 1 + next.size = next.size + 1 := by omega
    rw [ofForest, ids, ih, Forest.size, hsize, List.range'_succ]
  | element e children next ihc ihn =>
    have hsize : 1 + children.size + next.size = (children.size + next.size) + 1 := by omega
    rw [ofForest, ids, ihc, ihn, Forest.size, hsize, List.range'_succ, ← List.range'_append_1]

section
variable {doc : Document}

theorem stands_ofForest {first parent : NodeId} {forest : Forest}
    (h : doc.Has first (forest.nodes parent first)) : (ofForest first forest).Stands doc := by
  induction forest generalizing first parent with
  | nil => trivial
  | leaf l next ih =>
    obtain ⟨hn, hr⟩ := Document.has_cons.1 h
    exact ⟨Document.data?_of_getElem? hn, Document.children_of_getElem? hn, ih hr⟩
  | element e children next ihc ihn =>
    obtain ⟨hn, hr⟩ := Document.has_cons.1 h
    obtain ⟨hc, hr⟩ := Document.has_append.1 hr
    rw [Forest.length_nodes] at hr
    refine ⟨Document.data?_of_getElem? hn, ?_, ihc hc, ihn hr⟩
    rw [Document.children_of_getElem? hn, roots_ofForest]

theorem parent?_of_mem_ids {first parent : NodeId} {forest : Forest}
    (h : doc.Has first (forest.nodes parent first)) {id : NodeId} (hm : id ∈ forest.ids first) :
    doc.parent? id = some parent := by
  induction forest generalizing first with
  | nil => cases hm
  | leaf l next ih =>
    obtain ⟨hn, hr⟩ := Document.has_cons.1 h
    rcases List.mem_cons.1 hm with rfl | hm
    · exact Document.parent?_of_getElem? hn
    · exact ih hr hm
  | element e children next _ ih =>
    obtain ⟨hn, hr⟩ := Document.has_cons.1 h
    obtain ⟨-, hr⟩ := Document.has_append.1 hr
    rw [Forest.length_nodes] at hr
    rcases List.mem_cons.1 hm with rfl | hm
    · exact Document.parent?_of_getElem? hn
    · exact ih hr hm

theorem parent?_of_mem_children {first parent : NodeId} {forest : Forest}
    (h : doc.Has first (forest.nodes parent first)) {k child : NodeId} (hk : first ≤ k)
    (hk' : k < first + forest.size) (hm : child ∈ doc.children k) : doc.parent? child = some k := by
  induction forest generalizing first parent with
  | nil =>
    simp only [Forest.size, Nat.add_zero] at hk'
    exact absurd hk' (Nat.not_lt_of_le hk)
  | leaf l next ih =>
    obtain ⟨hn, hr⟩ := Document.has_cons.1 h
    by_cases hkf : k = first
    · rw [hkf, Document.children_of_getElem? hn] at hm
      cases hm
    · have hlt : first + 1 ≤ k := Nat.lt_of_le_of_ne hk fun he => hkf he.symm
      refine ih hr hlt ?_
      rwa [Forest.size, ← Nat.add_assoc] at hk'
  | element e children next ihc ihn =>
    obtain ⟨hn, hr⟩ := Document.has_cons.1 h
    obtain ⟨hc, hr⟩ := Document.has_append.1 hr
    rw [Forest.length_nodes] at hr
    by_cases hkf : k = first
    · rw [hkf, Document.children_of_getElem? hn] at hm
      rw [hkf]
      exact parent?_of_mem_ids hc hm
    · have hlt : first + 1 ≤ k := Nat.lt_of_le_of_ne hk fun he => hkf he.symm
      by_cases hin : k < first + 1 + children.size
      · exact ihc hc hlt hin
      · refine ihn hr (Nat.le_of_not_lt hin) ?_
        rwa [Forest.size, ← Nat.add_assoc, ← Nat.add_assoc] at hk'

end

/-- The grove once the elements named by the list have been converted, when the list names exactly
those of one kind. -/
theorem converted_eq_pass {tag : CustomTag} {grove : Grove} {waiting : List NodeId}
    (h : ∀ pair ∈ grove.elements,
      pair.1 ∈ waiting ↔ Text.equalIgnoringCase pair.2.name tag.name = true) :
    grove.converted tag waiting = grove.forest.pass tag := by
  induction grove with
  | nil => rfl
  | leaf id l next ih => rw [converted, Grove.forest, Forest.pass, ih h]
  | element id e children next ihc ihn =>
    have he := h (id, e) List.mem_cons_self
    have hc := ihc fun pair hp => h pair (List.mem_cons_of_mem _ (List.mem_append_left _ hp))
    have hn := ihn fun pair hp => h pair (List.mem_cons_of_mem _ (List.mem_append_right _ hp))
    rw [converted, Grove.forest, Forest.pass, hc, hn]
    simp only [he]

theorem map_fst_elements_sublist (grove : Grove) :
    (grove.elements.map (·.1)).Sublist grove.ids := by
  induction grove with
  | nil => exact List.Sublist.refl []
  | leaf id l next ih => exact ih.cons id
  | element id e children next ihc ihn =>
    rw [elements, List.map_cons, List.map_append, ids]
    exact (ihc.append ihn).cons_cons id

end Grove

namespace Document

theorem linked_ofForest (forest : Forest) : (ofForest forest).Linked := by
  obtain ⟨hr, hn⟩ := has_cons.1 (has_ofForest forest)
  have hroot : (ofForest forest).children root = forest.ids 1 := children_of_getElem? hr
  have hrange : ∀ {k child}, child ∈ (ofForest forest).children k → k ≠ root →
      1 ≤ k ∧ k < 1 + forest.size := by
    intro k child hm hk
    have hlt := lt_size_of_mem_children hm
    rw [size_ofForest] at hlt
    exact ⟨Nat.pos_of_ne_zero hk, Nat.add_comm _ _ ▸ hlt⟩
  refine ⟨fun {k child} hm => ?_, fun k => ?_⟩
  · by_cases hk : k = root
    · rw [hk, hroot] at hm
      rw [hk]
      exact Grove.parent?_of_mem_ids hn hm
    · obtain ⟨hge, hlt⟩ := hrange hm hk
      exact Grove.parent?_of_mem_children hn hge hlt hm
  · have hstands := Grove.stands_ofForest hn
    have hnodup : (Grove.ofForest 1 forest).ids.Nodup := by
      rw [Grove.ids_ofForest]
      exact List.nodup_range'
    by_cases hk : k = root
    · rw [hk, hroot, ← Grove.roots_ofForest]
      exact hnodup.sublist (Grove.roots_sublist_ids _)
    · by_cases hempty : (ofForest forest).children k = []
      · rw [hempty]
        exact List.nodup_nil
      · obtain ⟨child, hm⟩ := List.exists_mem_of_ne_nil _ hempty
        obtain ⟨hge, hlt⟩ := hrange hm hk
        refine hstands.nodup_children hnodup ?_
        rw [Grove.ids_ofForest, List.mem_range'_1]
        exact ⟨hge, hlt⟩

/-- The numbers of a document are the root's and those of its forest, in document order. -/
theorem root_cons_ids (forest : Forest) :
    root :: (Grove.ofForest 1 forest).ids = List.range (ofForest forest).size := by
  rw [Grove.ids_ofForest, size_ofForest, List.range_eq_range', List.range'_succ]
  rfl

theorem mem_ids_of_lt_size {forest : Forest} {node : NodeId} (hn : node < (ofForest forest).size)
    (hr : node ≠ root) : node ∈ (Grove.ofForest 1 forest).ids := by
  have hm : node ∈ root :: (Grove.ofForest 1 forest).ids := by
    rw [root_cons_ids]
    exact List.mem_range.2 hn
  exact (List.mem_cons.1 hm).resolve_left hr

theorem isGrove_ofForest (forest : Forest) :
    (ofForest forest).IsGrove (Grove.ofForest 1 forest) := by
  obtain ⟨hr, hn⟩ := has_cons.1 (has_ofForest forest)
  refine ⟨linked_ofForest forest, data?_of_getElem? hr, ?_, Grove.stands_ofForest hn, ?_⟩
  · rw [Grove.roots_ofForest]
    exact children_of_getElem? hr
  · rw [root_cons_ids]
    exact List.nodup_range

theorem below_root_ofForest (forest : Forest) :
    (ofForest forest).below (ofForest forest).size root = List.range (ofForest forest).size := by
  rw [(isGrove_ofForest forest).below_root, root_cons_ids]

section
variable {doc : Document} {grove : Grove}

theorem IsGrove.pass (tag : CustomTag) (h : doc.IsGrove grove) :
    ∃ after final, tag.pass.run doc = (.ok (), after) ∧ after.IsGrove final ∧
      final.forest = grove.forest.pass tag := by
  have hnamed := h.elementsNamed tag.name
  have hnodup : (doc.elementsNamed tag.name).Nodup := by
    rw [hnamed]
    have hids : grove.ids.Nodup := (List.nodup_cons.1 h.distinct).2
    exact hids.sublist ((List.filter_sublist.map _).trans grove.map_fst_elements_sublist)
  have hwaiting : ∀ id ∈ doc.elementsNamed tag.name, ∃ e, (id, e) ∈ grove.elements := by
    intro id hid
    rw [hnamed] at hid
    obtain ⟨⟨i, e⟩, hm, rfl⟩ := List.mem_map.1 hid
    exact ⟨e, List.mem_of_mem_filter hm⟩
  obtain ⟨after, final, hrun, hfinal, hforest⟩ := h.forM_convertNode hnodup hwaiting
  refine ⟨after, final, ?_, hfinal, ?_⟩
  · unfold CustomTag.pass
    rw [Edit.run_bind_of_ok Edit.run_get, hrun]
  · rw [hforest]
    refine Grove.converted_eq_pass fun pair hp => ?_
    rw [hnamed, List.mem_map]
    constructor
    · rintro ⟨other, hm, heq⟩
      obtain ⟨hm, hname⟩ := List.mem_filter.1 hm
      have hd := h.stands.data?_of_mem_elements hm
      rw [heq, h.stands.data?_of_mem_elements hp] at hd
      rwa [NodeData.element.inj (Option.some.inj hd)]
    · intro hname
      exact ⟨pair, List.mem_filter.2 ⟨hp, hname⟩, rfl⟩

theorem IsGrove.forM_pass (tags : List CustomTag) (h : doc.IsGrove grove) :
    ∃ after final, (tags.forM CustomTag.pass).run doc = (.ok (), after) ∧ after.IsGrove final ∧
      final.forest = tags.foldl (fun forest tag => forest.pass tag) grove.forest := by
  induction tags generalizing doc grove with
  | nil => exact ⟨doc, grove, rfl, h, rfl⟩
  | cons tag tags ih =>
    obtain ⟨next, between, hrun, hnext, hforest⟩ := h.pass tag
    obtain ⟨after, final, hrun', hfinal, hforest'⟩ := ih hnext
    refine ⟨after, final, ?_, hfinal, ?_⟩
    · have hcons : (tag :: tags).forM CustomTag.pass =
          tag.pass >>= fun _ => tags.forM CustomTag.pass := List.forM_cons
      rw [hcons, Edit.run_bind_of_ok hrun, hrun']
    · rw [hforest', hforest, List.foldl_cons]

end
end Document

namespace CustomTag

theorem name_foldl_setAttr (attributes : List (Text × Text)) (element : Element) :
    (attributes.foldl (fun e (name, value) => e.setAttr name value) element).name =
      element.name := by
  induction attributes generalizing element with
  | nil => rfl
  | cons attr attributes ih =>
    rw [List.foldl_cons, ih]
    rfl

theorem name_replacement (tag : CustomTag) (read : Text → Option Text) :
    (tag.replacement read).name = tag.target := by
  rw [replacement, name_foldl_setAttr]
  cases tag <;> decide

theorem not_named_replacement (tag other : CustomTag) (read : Text → Option Text) :
    Text.equalIgnoringCase (tag.replacement read).name other.name = false := by
  rw [name_replacement]
  cases tag <;> cases other <;> decide

theorem eq_of_named {element : Element} {tag other : CustomTag}
    (h : Text.equalIgnoringCase element.name tag.name = true)
    (h' : Text.equalIgnoringCase element.name other.name = true) : tag = other := by
  simp only [Text.equalIgnoringCase, beq_iff_eq] at h h'
  rw [h] at h'
  revert h'
  cases tag <;> cases other <;> decide

end CustomTag

namespace Forest

theorem pass_inside (tag other : CustomTag) (content : Forest) :
    (tag.inside content).pass other = tag.inside (content.pass other) := by
  unfold CustomTag.inside
  by_cases hc : tag = .container
  · have hbody : Text.equalIgnoringCase (Element.named "tbody".toList).name other.name = false := by
      cases other <;> decide
    rw [if_pos hc, if_pos hc, pass, hbody]
    rfl
  · rw [if_neg hc, if_neg hc]

theorem foldl_pass_of_not_named {tags : List CustomTag} {e : Element} (children next : Forest)
    (h : ∀ tag ∈ tags, Text.equalIgnoringCase e.name tag.name = false) :
    tags.foldl (fun forest tag => forest.pass tag) (element e children next) =
      element e (tags.foldl (fun forest tag => forest.pass tag) children)
        (tags.foldl (fun forest tag => forest.pass tag) next) := by
  induction tags generalizing children next with
  | nil => rfl
  | cons tag tags ih =>
    have ht := h tag List.mem_cons_self
    rw [List.foldl_cons, pass, ht]
    exact ih _ _ fun t hm => h t (List.mem_cons_of_mem _ hm)

theorem foldl_pass_inside (tags : List CustomTag) (tag : CustomTag) (content : Forest) :
    tags.foldl (fun forest t => forest.pass t) (tag.inside content) =
      tag.inside (tags.foldl (fun forest t => forest.pass t) content) := by
  induction tags generalizing content with
  | nil => rfl
  | cons other tags ih => rw [List.foldl_cons, pass_inside, ih, List.foldl_cons]

theorem foldl_pass_of_named {tags : List CustomTag} {tag : CustomTag} {e : Element}
    (children next : Forest) (hm : tag ∈ tags)
    (h : Text.equalIgnoringCase e.name tag.name = true) :
    tags.foldl (fun forest t => forest.pass t) (element e children next) =
      element (tag.replacement e.attr?)
        (tag.inside (tags.foldl (fun forest t => forest.pass t) children))
        (tags.foldl (fun forest t => forest.pass t) next) := by
  induction tags generalizing children next with
  | nil => cases hm
  | cons first tags ih =>
    by_cases hf : first = tag
    · subst hf
      rw [List.foldl_cons, pass, h, if_pos rfl, foldl_pass_of_not_named _ _ fun t _ =>
        CustomTag.not_named_replacement first t e.attr?, foldl_pass_inside]
      rfl
    · have hn : Text.equalIgnoringCase e.name first.name = false := by
        by_contra hne
        exact hf (CustomTag.eq_of_named (Bool.not_eq_false _ ▸ hne) h)
      have hm' : tag ∈ tags := by
        rcases List.mem_cons.1 hm with he | hm
        · exact absurd he.symm hf
        · exact hm
      rw [List.foldl_cons, pass, hn]
      exact ih _ _ hm'

theorem foldl_pass_all (forest : Forest) :
    CustomTag.all.foldl (fun forest tag => forest.pass tag) forest = forest.tabled := by
  induction forest with
  | nil => rfl
  | leaf l next ih => exact congrArg (leaf l) ih
  | element e children next ihc ihn =>
    rw [tabled]
    cases ho : CustomTag.of? e with
    | some tag =>
      have hname : Text.equalIgnoringCase e.name tag.name = true :=
        List.find?_some (p := fun tag : CustomTag => Text.equalIgnoringCase e.name tag.name) ho
      rw [foldl_pass_of_named _ _ (List.mem_of_find?_eq_some ho) hname, ihc, ihn]
    | none =>
      have hname : ∀ tag ∈ CustomTag.all, Text.equalIgnoringCase e.name tag.name = false := by
        intro tag hm
        exact Bool.eq_false_iff.2 (List.find?_eq_none.1 ho tag hm)
      rw [foldl_pass_of_not_named _ _ hname, ihc, ihn]

end Forest

namespace CustomTag

/-- Converting the document of a forest succeeds, and gives a grove of the forest with tables. -/
theorem exists_run_convert (forest : Forest) :
    ∃ after grove, convert.run (Document.ofForest forest) = (.ok (), after) ∧
      after.IsGrove grove ∧ grove.forest = forest.tabled := by
  obtain ⟨after, final, hrun, hfinal, hforest⟩ :=
    (Document.isGrove_ofForest forest).forM_pass all
  refine ⟨after, final, hrun, hfinal, ?_⟩
  rw [hforest, Grove.forest_ofForest, Forest.foldl_pass_all]

end CustomTag

namespace Document

theorem withTables_eq (source : Text) :
    withTables source = (parse source).map fun doc => doc.toForest.tabled.render := by
  unfold withTables
  cases hp : parse source with
  | error cause => rfl
  | ok doc =>
    obtain ⟨tokens, -, rfl⟩ := parse_eq_ok_iff.1 hp
    obtain ⟨after, grove, hrun, hgrove, hforest⟩ :=
      CustomTag.exists_run_convert (Forest.ofTokens tokens)
    have hbind : ∀ step : Document → Except MarkupError Text,
        (Except.ok (ofForest (Forest.ofTokens tokens)) >>= step) =
          step (ofForest (Forest.ofTokens tokens)) := fun _ => rfl
    rw [hbind, hrun]
    change Except.ok after.serialize =
      Except.ok (ofForest (Forest.ofTokens tokens)).toForest.tabled.render
    rw [serialize, hgrove.toForest, hforest, toForest_ofForest]

end Document
end MailTemplate
