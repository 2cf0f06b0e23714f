import MailTemplate.Proofs.Markup.SpansKept

/-! New data for a node. The links of a document do not depend on what its nodes are, so a node that
becomes another element keeps its place, and all other nodes stay as they were. -/

namespace MailTemplate

namespace Element

section
variable {element : Element} {name value : Text}

theorem attr?_setAttr (element : Element) (name value : Text) :
    (element.setAttr name value).attr? name = some value := by
  have hfind : ∀ attributes : List Attribute, ∃ attr, attr.value = some value ∧
      (putAttr name value attributes).find? (Attribute.isNamed name) = some attr := by
    intro attributes
    induction attributes with
    | nil =>
      have hself : Attribute.isNamed name ⟨name, some value⟩ = true := by
        simp [Attribute.isNamed, Text.equalIgnoringCase]
      exact ⟨_, rfl, List.find?_cons_of_pos hself⟩
    | cons attr rest ih =>
      rw [putAttr]
      by_cases hn : attr.isNamed name
      · rw [if_pos hn]
        exact ⟨_, rfl, List.find?_cons_of_pos hn⟩
      · rw [if_neg hn, List.find?_cons_of_neg hn]
        exact ih
  obtain ⟨attr, hv, hf⟩ := hfind element.attributes
  rw [attr?, setAttr, hf, Option.map_some, hv, Option.getD_some]

theorem infix_opening {text : Text} (ha : element.attr? name = some value) (hq : '"' ∉ text)
    (h : text <:+: value) : text <:+: element.opening := by
  rw [attr?, Option.map_eq_some_iff] at ha
  obtain ⟨attr, hfound, hvalue⟩ := ha
  have hm : attr ∈ element.attributes := List.mem_of_find?_eq_some hfound
  obtain ⟨front, back, rfl⟩ := h
  have hescape : text <:+: Attribute.escape (front ++ text ++ back) := by
    rw [Guard.escape_append, Guard.escape_append, Attribute.escape_of_notMem hq]
    exact ⟨_, _, rfl⟩
  cases hv : attr.value with
  | none =>
    rw [hv, Option.getD_none] at hvalue
    obtain ⟨hleft, -⟩ := List.append_eq_nil_iff.1 hvalue.symm
    rw [(List.append_eq_nil_iff.1 hleft).2]
    exact List.nil_infix
  | some v =>
    rw [hv, Option.getD_some] at hvalue
    have hattr : text <:+: attr.text := by
      rw [Attribute.text, hv, hvalue]
      exact hescape.trans ⟨attr.name ++ ['=', '"'], ['"'], rfl⟩
    have hall : attr.text <:+: Attribute.textAll element.attributes := by
      obtain ⟨before, after, hsplit⟩ := List.append_of_mem hm
      have hone : attr.text <:+: ' ' :: attr.text := (List.suffix_cons _ _).isInfix
      rw [hsplit, Attribute.textAll, List.flatMap_append, List.flatMap_cons]
      exact hone.trans ⟨_, _, List.append_assoc _ _ _⟩
    rw [opening_eq]
    exact hattr.trans (hall.trans ⟨['<'] ++ element.name, [], by simp⟩)

end
end Element

namespace Forest

theorem opening_infix_wrap (e : Element) (isEmpty : Bool) (content : Text) :
    e.opening <:+: wrap e isEmpty content := by
  unfold wrap
  split
  · exact (List.prefix_append _ _).isInfix
  · split
    · exact (List.prefix_append _ _).isInfix
    · simp only [List.append_assoc]
      exact (List.prefix_append _ _).isInfix

theorem content_infix_wrap (e : Element) (content : Text) :
    content <:+: wrap e false content := by
  rw [wrap, Bool.and_false, Bool.and_false]
  exact ⟨e.opening ++ ['>'], ['<', '/'] ++ e.name ++ ['>'], by simp⟩

theorem infix_render {forest : Forest} {element : Element}
    (h : NodeData.element element ∈ forest.labels) : element.opening <:+: forest.render := by
  induction forest with
  | nil => cases h
  | leaf l next ih =>
    rcases List.mem_cons.1 h with h | h
    · cases h
    · exact (ih h).trans (List.suffix_append _ _).isInfix
  | element e children next ihc ihn =>
    rw [render]
    rcases List.mem_cons.1 h with h | h
    · rw [NodeData.element.inj h]
      exact (opening_infix_wrap _ _ _).trans (List.prefix_append _ _).isInfix
    · rcases List.mem_append.1 h with h | h
      · have hempty : children.isEmpty = false := by
          cases children with
          | nil => cases h
          | leaf _ _ => rfl
          | element _ _ _ => rfl
        rw [hempty]
        exact (ihc h).trans ((content_infix_wrap _ _).trans (List.prefix_append _ _).isInfix)
      · exact (ihn h).trans (List.suffix_append _ _).isInfix

end Forest

namespace Document

section
variable {doc : Document} {node k : NodeId}

@[simp] theorem size_setElement (element : Element) :
    (doc.setElement node element).size = doc.size := size_update _

@[simp] theorem parent?_setElement (element : Element) :
    (doc.setElement node element).parent? k = doc.parent? k := by
  by_cases h : node = k
  · subst h
    cases hn : doc.nodes[node]? <;> simp [setElement, parent?, getElem?_update, hn]
  · simp [setElement, parent?, getElem?_update, h]

@[simp] theorem children_setElement (element : Element) :
    (doc.setElement node element).children k = doc.children k := by
  by_cases h : node = k <;> simp [setElement, children, getElem?_update, h, Function.comp_def]

theorem data?_setElement (hn : node < doc.size) (element : Element) :
    (doc.setElement node element).data? k =
      if k = node then some (.element element) else doc.data? k := by
  by_cases h : k = node
  · subst h
    obtain ⟨n, hk⟩ := exists_getElem? hn
    simp [setElement, data?, getElem?_update, hk]
  · have h' : ¬ node = k := fun he => h he.symm
    simp [setElement, data?, getElem?_update, h, h']

theorem Linked.setElement (h : doc.Linked) (element : Element) :
    (doc.setElement node element).Linked := by
  refine ⟨fun hm => ?_, fun k => ?_⟩
  · rw [children_setElement] at hm
    rw [parent?_setElement]
    exact h.parent hm
  · rw [children_setElement]
    exact h.nodup k

end
end Document

namespace Grove

/-- The grove with another element as one of its nodes. -/
def put (node : NodeId) (new : Element) : Grove → Grove
  | nil => nil
  | leaf id l next => leaf id l (next.put node new)
  | element id e children next =>
    element id (if id = node then new else e) (children.put node new) (next.put node new)

section
variable {doc : Document} {grove : Grove} {node : NodeId} {old new : Element}

@[simp] theorem ids_put (grove : Grove) (node : NodeId) (new : Element) :
    (grove.put node new).ids = grove.ids := by
  induction grove with
  | nil => rfl
  | leaf id l next ih => rw [put, ids, ids, ih]
  | element id e children next ihc ihn => rw [put, ids, ids, ihc, ihn]

@[simp] theorem roots_put (grove : Grove) (node : NodeId) (new : Element) :
    (grove.put node new).roots = grove.roots := by
  induction grove with
  | nil => rfl
  | leaf id l next ih => rw [put, roots, roots, ih]
  | element id e children next _ ih => rw [put, roots, roots, ih]

theorem Stands.put (h : grove.Stands doc) (he : doc.element? node = some old) :
    (grove.put node new).Stands (doc.setElement node new) := by
  have hdata : doc.data? node = some (.element old) := Document.element?_eq_some_iff.1 he
  have hn := Document.lt_size_of_data? hdata
  induction grove with
  | nil => trivial
  | leaf id l next ih =>
    have hid : id ≠ node := by
      rintro rfl
      have hleaf := h.1
      rw [hdata] at hleaf
      cases hleaf
    refine ⟨?_, ?_, ih h.2.2⟩
    · rw [Document.data?_setElement hn, if_neg hid]
      exact h.1
    · rw [Document.children_setElement]
      exact h.2.1
  | element id e children next ihc ihn =>
    refine ⟨?_, ?_, ihc h.2.2.1, ihn h.2.2.2⟩
    · rw [Document.data?_setElement hn]
      by_cases hid : id = node
      · rw [if_pos hid, if_pos hid]
      · rw [if_neg hid, if_neg hid]
        exact h.1
    · rw [Document.children_setElement, roots_put]
      exact h.2.1

theorem Stands.labels_forest (h : grove.Stands doc) :
    grove.forest.labels = grove.ids.filterMap doc.data? := by
  induction grove with
  | nil => rfl
  | leaf id l next ih => rw [forest, Forest.labels, ids, List.filterMap_cons_some h.1, ih h.2.2]
  | element id e children next ihc ihn =>
    rw [forest, Forest.labels, ids, List.filterMap_cons_some h.1, List.filterMap_append,
      ihc h.2.2.1, ihn h.2.2.2]

end
end Grove

namespace Document

section
variable {doc : Document} {grove : Grove}

theorem IsGrove.setElement (h : doc.IsGrove grove) {node : NodeId} {old new : Element}
    (he : doc.element? node = some old) :
    (doc.setElement node new).IsGrove (grove.put node new) := by
  have hdata : doc.data? node = some (.element old) := element?_eq_some_iff.1 he
  have hroot : root ≠ node := by
    rintro rfl
    rw [h.rootData] at hdata
    cases hdata
  refine ⟨h.linked.setElement new, ?_, ?_, h.stands.put he, ?_⟩
  · rw [data?_setElement (lt_size_of_data? hdata), if_neg hroot]
    exact h.rootData
  · rw [children_setElement, Grove.roots_put]
    exact h.rootChildren
  · rw [Grove.ids_put]
    exact h.distinct

theorem IsGrove.labels (h : doc.IsGrove grove) : doc.labels = grove.ids.filterMap doc.data? := by
  rw [Document.labels, h.toForest, h.stands.labels_forest]

theorem IsGrove.elements (h : doc.IsGrove grove) : doc.elements = grove.elements.map (·.1) := by
  have hroot : (doc.element? root).isSome = false := by simp [element?, h.rootData]
  have hany : ∀ id, (doc.element? id).isSome = (doc.element? id).any fun _ => true := by
    intro id
    cases doc.element? id <;> rfl
  rw [Document.elements, h.below_root, List.filter_cons, hroot]
  simp only [hany]
  rw [h.stands.filter_ids]
  simp

theorem exists_isGrove {source : Text} (h : parse source = .ok doc) : ∃ grove, doc.IsGrove grove := by
  obtain ⟨tokens, -, rfl⟩ := parse_eq_ok_iff.1 h
  exact ⟨_, isGrove_ofForest _⟩

theorem IsGrove.mem_labels (h : doc.IsGrove grove) {node : NodeId} {data : NodeData}
    (hm : node ∈ grove.ids) (hd : doc.data? node = some data) : data ∈ doc.labels := by
  rw [h.labels, List.mem_filterMap]
  exact ⟨node, hm, hd⟩

end

end Document
end MailTemplate
