import MailTemplate.Proofs.Guard.Folded
import MailTemplate.Proofs.Markup.SpansKept

/-! Writing keeps words whole. What is written of a document is made of the words of its nodes, and so
is what tables are written with. -/

namespace MailTemplate
open Guard

def NodeData.Sound (words : Text → Prop) : NodeData → Prop
  | document => True
  | element e => e.Sound words words
  | leaf l => Guard.Sound words l.source

section
variable {words : Text → Prop} {text : Text}

theorem Guard.IsPlain.sound (h : IsPlain text) : Guard.Sound words text := sound_of_notMem h.2.1 h.2.2

theorem sound_escape (hw : ∀ word, words word → IsWord word) (h : Guard.Sound words text) :
    Guard.Sound words (Attribute.escape text) := by
  induction h with
  | nil => exact .nil
  | @char c text ho hc _ ih =>
    have hsplit : Attribute.escape (c :: text) =
        (if c = '"' then "&quot;".toList else [c]) ++ Attribute.escape text := rfl
    rw [hsplit]
    by_cases hquote : c = '"'
    · rw [if_pos hquote]
      have hentity : Guard.Sound words "&quot;".toList := IsPlain.sound (by decide)
      exact hentity.append ih
    · rw [if_neg hquote]
      exact .char ho hc ih
  | @word word text hword _ ih =>
    have hquote : '"' ∉ word := by
      obtain ⟨body, rfl, hinner⟩ := hw word hword
      intro hm
      rcases List.mem_cons.1 hm with hm | hm
      · exact absurd hm (by decide)
      · rcases List.mem_append.1 hm with hm | hm
        · exact absurd (hinner _ hm) (by decide)
        · exact absurd (List.mem_singleton.1 hm) (by decide)
    rw [Guard.escape_append, Attribute.escape_of_notMem hquote]
    exact .word hword ih

theorem sound_text {attr : Attribute} (hw : ∀ word, words word → IsWord word)
    (h : attr.Sound words) : Guard.Sound words attr.text := by
  unfold Attribute.text
  split
  · exact h.1
  · next value hv =>
    have heq : Guard.Sound words ['=', '"'] := IsPlain.sound (by decide)
    have hquote : Guard.Sound words ['"'] := IsPlain.sound (by decide)
    exact ((h.1.append heq).append (sound_escape hw (h.2 value hv))).append hquote

theorem sound_opening {e : Element} (hw : ∀ word, words word → IsWord word)
    (h : e.Sound words words) : Guard.Sound words e.opening := by
  have hattributes : ∀ attributes : List Attribute, (∀ attr ∈ attributes, attr.Sound words) →
      Guard.Sound words (Attribute.textAll attributes) := by
    intro attributes ha
    induction attributes with
    | nil => exact .nil
    | cons attr attributes ih =>
      have hspace : Guard.Sound words [' '] := IsPlain.sound (by decide)
      have hfirst := sound_text hw (ha attr List.mem_cons_self)
      have hlater := ih fun a hm => ha a (List.mem_cons_of_mem _ hm)
      exact hspace.append (hfirst.append hlater)
  have hbrace : Guard.Sound words ['<'] := IsPlain.sound (by decide)
  rw [Element.opening_eq]
  exact hbrace.append (h.name.append (hattributes _ h.attributes))

theorem sound_wrap {e : Element} {content : Text} (hw : ∀ word, words word → IsWord word)
    (h : e.Sound words words) (isEmpty : Bool) (hc : Guard.Sound words content) :
    Guard.Sound words (Forest.wrap e isEmpty content) := by
  have ho := sound_opening hw h
  have hclose : Guard.Sound words " />".toList := IsPlain.sound (by decide)
  have hbrace : Guard.Sound words ['>'] := IsPlain.sound (by decide)
  have hstop : Guard.Sound words ['<', '/'] := IsPlain.sound (by decide)
  unfold Forest.wrap
  split
  · exact ho.append hclose
  · split
    · exact ho.append hbrace
    · exact ((((ho.append hbrace).append hc).append hstop).append h.name).append hbrace

theorem sound_render {forest : Forest} (hw : ∀ word, words word → IsWord word)
    (h : ∀ node ∈ forest.labels, node.Sound words) : Guard.Sound words forest.render := by
  induction forest with
  | nil => exact .nil
  | leaf l next ih =>
    have hleaf := h (.leaf l) List.mem_cons_self
    exact Guard.Sound.append hleaf (ih fun node hm => h node (List.mem_cons_of_mem _ hm))
  | element e children next ihc ihn =>
    have he := h (.element e) List.mem_cons_self
    have hchildren := ihc fun node hm =>
      h node (List.mem_cons_of_mem _ (List.mem_append_left _ hm))
    have hnext := ihn fun node hm =>
      h node (List.mem_cons_of_mem _ (List.mem_append_right _ hm))
    exact (sound_wrap hw he _ hchildren).append hnext

theorem sound_attr? {e : Element} {name value : Text} (h : e.Sound words words)
    (ha : e.attr? name = some value) : Guard.Sound words value := by
  rw [Element.attr?, Option.map_eq_some_iff] at ha
  obtain ⟨attr, hfound, rfl⟩ := ha
  cases hv : attr.value with
  | none => exact .nil
  | some value => exact (h.attributes attr (List.mem_of_find?_eq_some hfound)).2 value hv

theorem sound_carried {e : Element} {name : Text} (h : e.Sound words words) (hn : IsPlain name) :
    ∀ pair ∈ CustomTag.carried e.attr? name, IsPlain pair.1 ∧ Guard.Sound words pair.2 := by
  intro pair hm
  unfold CustomTag.carried at hm
  cases hr : e.attr? name with
  | none => simp [hr] at hm
  | some value =>
    obtain rfl : pair = (name, value) := by simpa [hr] using hm
    exact ⟨hn, sound_attr? h hr⟩

theorem sound_getD {e : Element} {name default : Text} (h : e.Sound words words)
    (hd : IsPlain default) : Guard.Sound words ((e.attr? name).getD default) := by
  cases hr : e.attr? name with
  | none => exact hd.sound
  | some value => exact sound_attr? h hr

/-- The attributes of a new element have plain names, and sound values if the old element had. -/
theorem sound_attributes {e : Element} (h : e.Sound words words) (tag : CustomTag) :
    ∀ pair ∈ tag.attributes e.attr?, IsPlain pair.1 ∧ Guard.Sound words pair.2 := by
  have hclass := sound_carried h (by decide : IsPlain "class".toList)
  have hstyle : IsPlain "style".toList := by decide
  intro pair hm
  cases tag with
  | container =>
    have hfixed : ∀ pair ∈ [("align".toList, "center".toList), ("width".toList, "100%".toList),
        ("cellpadding".toList, ['0']), ("cellspacing".toList, ['0']), ("border".toList, ['0'])],
        IsPlain pair.1 ∧ IsPlain pair.2 := by decide
    rcases List.mem_append.1 hm with hm | hm
    · exact ⟨(hfixed pair hm).1, (hfixed pair hm).2.sound⟩
    · exact hclass pair hm
  | row =>
    rcases List.mem_append.1 hm with hm | hm
    · exact hclass pair hm
    · cases hr : e.attr? "background".toList with
      | none =>
        rw [hr] at hm
        cases hm
      | some background =>
        have hpair : pair = ("style".toList, "background:".toList ++ background) := by
          rw [hr] at hm
          exact List.mem_singleton.1 hm
        have hfirst : Guard.Sound words "background:".toList := IsPlain.sound (by decide)
        rw [hpair]
        exact ⟨hstyle, hfirst.append (sound_attr? h hr)⟩
  | columns =>
    rcases List.mem_append.1 hm with hm | hm
    · exact hclass pair hm
    · have hfirst : Guard.Sound words "padding: ".toList := IsPlain.sound (by decide)
      have hlast : Guard.Sound words [';'] := IsPlain.sound (by decide)
      rw [List.mem_singleton.1 hm]
      exact ⟨hstyle, (hfirst.append (sound_getD h (by decide))).append hlast⟩
  | button =>
    rcases List.mem_append.1 hm with hm | hm
    · rcases List.mem_append.1 hm with hm | hm
      · rw [List.mem_singleton.1 hm]
        have hhref : IsPlain "href".toList := by decide
        exact ⟨hhref, sound_getD h (by decide)⟩
      · exact hclass pair hm
    · rw [List.mem_singleton.1 hm]
      exact ⟨hstyle, sound_getD h (by decide +kernel)⟩

theorem sound_replacement {e : Element} (h : e.Sound words words) (tag : CustomTag) :
    (tag.replacement e.attr?).Sound words words := by
  refine ⟨?_, fun attr hm => ?_⟩
  · rw [CustomTag.name_replacement]
    cases tag <;> exact IsPlain.sound (by decide)
  · rw [CustomTag.attributes_replacement, List.mem_map] at hm
    obtain ⟨pair, hm, rfl⟩ := hm
    obtain ⟨hn, hv⟩ := sound_attributes h tag pair hm
    refine ⟨hn.sound, fun value he => ?_⟩
    rwa [← Option.some.inj he]

theorem sound_tabled {forest : Forest} (h : ∀ node ∈ forest.labels, node.Sound words) :
    ∀ node ∈ forest.tabled.labels, node.Sound words := by
  induction forest with
  | nil => exact h
  | leaf l next ih =>
    intro node hm
    rcases List.mem_cons.1 hm with rfl | hm
    · exact h _ List.mem_cons_self
    · exact ih (fun node hm => h node (List.mem_cons_of_mem _ hm)) node hm
  | element e children next ihc ihn =>
    have he : e.Sound words words := h (.element e) List.mem_cons_self
    have hchildren := ihc fun node hm =>
      h node (List.mem_cons_of_mem _ (List.mem_append_left _ hm))
    have hnext := ihn fun node hm =>
      h node (List.mem_cons_of_mem _ (List.mem_append_right _ hm))
    have hbody : (Element.named "tbody".toList).Sound words words :=
      ⟨IsPlain.sound (by decide), fun attr hm => by cases hm⟩
    intro node hm
    rw [Forest.tabled] at hm
    cases ho : CustomTag.of? e with
    | none =>
      simp only [ho, Forest.labels, List.mem_cons, List.mem_append] at hm
      rcases hm with rfl | hm | hm
      · exact he
      · exact hchildren node hm
      · exact hnext node hm
    | some tag =>
      simp only [ho, Forest.labels, List.mem_cons, List.mem_append] at hm
      rcases hm with rfl | hm | hm
      · exact sound_replacement he tag
      · unfold CustomTag.inside at hm
        by_cases hc : tag = .container
        · rw [if_pos hc] at hm
          simp only [Forest.labels, List.mem_cons, List.append_nil] at hm
          rcases hm with rfl | hm
          · exact hbody
          · exact hchildren node hm
        · rw [if_neg hc] at hm
          exact hchildren node hm
      · exact hnext node hm

theorem Element.Sound.setAttr {element : Element} {name value : Text}
    (h : element.Sound words words) (hn : Guard.Sound words name) (hv : Guard.Sound words value) :
    (element.setAttr name value).Sound words words := by
  refine ⟨h.name, ?_⟩
  have hput : ∀ attributes : List Attribute, (∀ attr ∈ attributes, attr.Sound words) →
      ∀ attr ∈ Element.putAttr name value attributes, attr.Sound words := by
    intro attributes ha
    have hvalue : ∀ v, some value = some v → Guard.Sound words v := fun v he => by
      rwa [← Option.some.inj he]
    induction attributes with
    | nil =>
      intro attr hm
      rw [List.mem_singleton.1 hm]
      exact ⟨hn, hvalue⟩
    | cons first rest ih =>
      have hfirst := ha first List.mem_cons_self
      have hlater : ∀ attr ∈ rest, attr.Sound words := fun attr hm =>
        ha attr (List.mem_cons_of_mem _ hm)
      intro attr hm
      rw [Element.putAttr] at hm
      split at hm
      · rcases List.mem_cons.1 hm with rfl | hm
        · exact ⟨hfirst.1, hvalue⟩
        · exact hlater attr hm
      · rcases List.mem_cons.1 hm with rfl | hm
        · exact hfirst
        · exact ih hlater attr hm
  exact hput element.attributes h.attributes

end

namespace Document

def Sound (words : Text → Prop) (doc : Document) : Prop :=
  ∀ node data, doc.data? node = some data → data.Sound words

/-- Whether the names of all elements that a text is read with satisfy a condition. -/
def AllNames (condition : Text → Prop) (source : Text) : Prop :=
  ∀ doc, parse source = .ok doc → ∀ e : Element, .element e ∈ doc.labels → condition e.name

section
variable {words names : Text → Prop} {doc : Document} {source : Text}

theorem sound_labels_ofContent {content : Text} (h : Guard.Sound words content) :
    ∀ node ∈ (Forest.ofContent content).labels, node.Sound words := by
  intro node hm
  unfold Forest.ofContent at hm
  split at hm
  · cases hm
  · rw [List.mem_singleton.1 hm]
    exact h

/-- The nodes of a document that was read are made of the words of its text, if the names of its
elements are. -/
theorem sound_labels_of_parse (hw : ∀ word, words word → IsWord word)
    (hn : ∀ word, words word → names (Text.lower word)) (h : Guard.Sound words source)
    (hnames : AllNames (fun name => Guard.Sound names name → Guard.Sound words name) source)
    (hp : parse source = .ok doc) : ∀ node ∈ doc.labels, node.Sound words := by
  have hdoc := hnames doc hp
  obtain ⟨tokens, ht, rfl⟩ := parse_eq_ok_iff.1 hp
  rw [labels_ofForest, Forest.labels_ofTokens] at hdoc ⊢
  intro node hm
  obtain ⟨token, htoken, hnode⟩ := List.mem_flatMap.1 hm
  have hsound := sound_all hw hn h ht token htoken
  have helement : ∀ e : Element, NodeData.element e ∈ tokens.flatMap Token.labels →
      e.Sound words names → (NodeData.element e).Sound words := fun e he hs =>
    ⟨hdoc e he hs.name, hs.attributes⟩
  cases token with
  | leaf l =>
    rw [List.mem_singleton.1 hnode]
    exact hsound
  | complete e content =>
    rcases List.mem_cons.1 hnode with rfl | hnode
    · exact helement e hm hsound.1
    · exact sound_labels_ofContent hsound.2 node hnode
  | start e =>
    obtain rfl := List.mem_singleton.1 hnode
    exact helement e hm hsound
  | stop name => cases hnode

theorem map_data_nodes (forest : Forest) (parent first : NodeId) :
    (forest.nodes parent first).map (·.data) = forest.labels := by
  induction forest generalizing parent first with
  | nil => rfl
  | leaf l next ih => rw [Forest.nodes, Forest.labels, List.map_cons, ih]
  | element e children next ihc ihn =>
    rw [Forest.nodes, Forest.labels, List.map_cons, List.map_append, ihc, ihn]

/-- The nodes of the document of a forest are its root and those of the forest. -/
theorem mem_labels_of_data? {forest : Forest} {node : NodeId} {data : NodeData}
    (h : (ofForest forest).data? node = some data) : data = .document ∨ data ∈ forest.labels := by
  obtain ⟨n, hn, rfl⟩ := Option.map_eq_some_iff.1 h
  have hm : n ∈ (ofForest forest).nodes.toList := by
    rw [← Array.getElem?_toList] at hn
    exact List.mem_of_getElem? hn
  rcases List.mem_cons.1 hm with rfl | hm
  · exact .inl rfl
  · rw [← map_data_nodes forest root 1]
    exact .inr (List.mem_map_of_mem hm)

theorem sound_of_labels (hp : parse source = .ok doc) (h : ∀ node ∈ doc.labels, node.Sound words) :
    doc.Sound words := by
  obtain ⟨tokens, -, rfl⟩ := parse_eq_ok_iff.1 hp
  rw [labels_ofForest] at h
  intro node data hd
  rcases mem_labels_of_data? hd with rfl | hm
  · trivial
  · exact h data hm

theorem Sound.element? (h : doc.Sound words) {node : NodeId} {e : Element}
    (he : doc.element? node = some e) : e.Sound words words :=
  h node (.element e) (element?_eq_some_iff.1 he)

theorem Sound.text (h : doc.Sound words) (node : NodeId) : Guard.Sound words (doc.text node) := by
  unfold Document.text
  induction doc.children node with
  | nil => exact .nil
  | cons child children ih =>
    rw [List.flatMap_cons]
    refine Guard.Sound.append ?_ ih
    split
    · next content hd => exact h child _ hd
    · exact .nil

end
end Document
end MailTemplate
