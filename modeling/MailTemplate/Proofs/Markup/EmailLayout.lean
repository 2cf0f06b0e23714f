import MailTemplate.Proofs.Markup.Canonical
import MailTemplate.Proofs.Markup.Relabel

/-! The layout of a message. Converting a document is one function of its tree: every layout element
gives way to its part of a table, or to a link, around the converted content. It succeeds for every
document that is read, and leaves no layout element behind. -/

namespace MailTemplate
namespace Element

/-- The attribute that carries the value of this one over, if the element has it. -/
def carried (element : Element) (name : String) : List Attribute :=
  match element.attr? name.toList with
  | some value => [⟨name.toList, some value⟩]
  | none => []

/-- The value of an attribute, or what it is taken to be where the element has none. -/
def valueOr (element : Element) (name default : String) : Text :=
  (element.attr? name.toList).getD default.toList

def table (element : Element) : Element where
  name := "table".toList
  attributes := [⟨"align".toList, some "center".toList⟩, ⟨"width".toList, some "100%".toList⟩,
    ⟨"cellpadding".toList, some ['0']⟩, ⟨"cellspacing".toList, some ['0']⟩,
    ⟨"border".toList, some ['0']⟩] ++ element.carried "class"
  selfClosing := false

def tableRow (element : Element) : Element where
  name := "tr".toList
  attributes := element.carried "class" ++
    match element.attr? "background".toList with
    | some background => [⟨"style".toList, some ("background:".toList ++ background)⟩]
    | none => []
  selfClosing := false

def tableCell (element : Element) : Element where
  name := "td".toList
  attributes := element.carried "class" ++ [⟨"style".toList,
    some ("padding: ".toList ++ element.valueOr "padding" "0" ++ [';'])⟩]
  selfClosing := false

def link (element : Element) : Element where
  name := ['a']
  attributes := [⟨"href".toList, some (element.valueOr "href" "#")⟩] ++ element.carried "class" ++
    [⟨"style".toList, some (element.valueOr "style"
      ("display: inline-block; padding: 12px 24px; background-color: #2563eb; color: #ffffff; " ++
        "text-decoration: none; border-radius: 4px; font-weight: bold;"))⟩]
  selfClosing := false

end Element

namespace Forest

/-- The tree with its layout elements as tables, rows, cells and links; everything else is kept. -/
def laidOut : Forest → Forest
  | nil => nil
  | leaf l next => leaf l next.laidOut
  | element e children next =>
    if e.name = "container".toList then
      element e.table (element ⟨"tbody".toList, [], false⟩ children.laidOut nil) next.laidOut
    else if e.name = "row".toList then element e.tableRow children.laidOut next.laidOut
    else if e.name = "columns".toList then element e.tableCell children.laidOut next.laidOut
    else if e.name = "button".toList then element e.link children.laidOut next.laidOut
    else element e children.laidOut next.laidOut

end Forest

namespace CustomTag

def standIn (element : Element) : CustomTag → Element
  | container => element.table
  | row => element.tableRow
  | columns => element.tableCell
  | button => element.link

theorem replacement_eq_standIn (tag : CustomTag) (element : Element) :
    tag.replacement element.attr? = tag.standIn element := by
  cases tag with
  | container =>
    unfold standIn Element.table Element.carried replacement attributes carried
    cases element.attr? "class".toList <;> rfl
  | row =>
    unfold standIn Element.tableRow Element.carried replacement attributes carried
    cases element.attr? "class".toList <;> cases element.attr? "background".toList <;> rfl
  | columns =>
    unfold standIn Element.tableCell Element.carried replacement attributes carried
    cases element.attr? "class".toList <;> rfl
  | button =>
    unfold standIn Element.link Element.carried replacement attributes carried
    cases element.attr? "class".toList <;> rfl

theorem of?_eq_some_iff {element : Element} {tag : CustomTag}
    (h : Text.lower element.name = element.name) : of? element = some tag ↔ element.name = tag.name := by
  have hname : ∀ tag : CustomTag, Text.equalIgnoringCase element.name tag.name = true ↔
      element.name = tag.name := by
    intro tag
    have hlower : Text.lower tag.name = tag.name := by cases tag <;> decide
    rw [Text.equalIgnoringCase, h, hlower, beq_iff_eq]
  constructor
  · intro ho
    exact (hname tag).1 (List.find?_some (p := fun tag : CustomTag =>
      Text.equalIgnoringCase element.name tag.name) ho)
  · intro he
    have hmem : tag ∈ all := by cases tag <;> decide
    cases ho : of? element with
    | none => exact absurd ((hname tag).2 he) (List.find?_eq_none.1 ho tag hmem)
    | some other =>
      have hother := List.find?_some (p := fun tag : CustomTag =>
        Text.equalIgnoringCase element.name tag.name) ho
      rw [eq_of_named hother ((hname tag).2 he)]

end CustomTag

namespace Forest

@[simp] theorem tabled_ofContent (content : Text) : (ofContent content).tabled = ofContent content := by
  unfold ofContent
  split <;> rfl

@[simp] theorem laidOut_ofContent (content : Text) :
    (ofContent content).laidOut = ofContent content := by
  unfold ofContent
  split <;> rfl

theorem tabled_eq_laidOut {forest : Forest} (h : forest.WellFormed) :
    forest.tabled = forest.laidOut := by
  induction forest with
  | nil => rfl
  | leaf l next ih => rw [tabled, laidOut, ih h.2]
  | element e children next ihc ihn =>
    have hc : children.tabled = children.laidOut := by
      rcases h.content_cases with ⟨-, rfl⟩ | ⟨-, -, content, rfl, -⟩ | ⟨-, -, hc⟩
      · rfl
      · rw [tabled_ofContent, laidOut_ofContent]
      · exact ihc hc
    have hkind : ∀ tag : CustomTag, CustomTag.of? e = some tag ↔ e.name = tag.name :=
      fun _ => CustomTag.of?_eq_some_iff h.1.lower
    rw [tabled, laidOut, hc, ihn h.2.2]
    cases ho : CustomTag.of? e with
    | some tag =>
      have hname : e.name = tag.name := (hkind tag).1 ho
      simp only [hname, CustomTag.replacement_eq_standIn]
      cases tag <;> rfl
    | none =>
      have hname : ∀ tag : CustomTag, e.name ≠ tag.name := by
        intro tag he
        rw [(hkind tag).2 he] at ho
        cases ho
      have hcontainer : e.name ≠ "container".toList := hname .container
      have hrow : e.name ≠ "row".toList := hname .row
      have hcolumns : e.name ≠ "columns".toList := hname .columns
      have hbutton : e.name ≠ "button".toList := hname .button
      simp only [hcontainer, hrow, hcolumns, hbutton, if_false]

theorem not_named_of_mem_labels_tabled {forest : Forest} {e : Element}
    (h : .element e ∈ forest.tabled.labels) (tag : CustomTag) :
    Text.equalIgnoringCase e.name tag.name = false := by
  induction forest with
  | nil => cases h
  | leaf l next ih =>
    rcases List.mem_cons.1 h with h | h
    · cases h
    · exact ih h
  | element e' children next ihc ihn =>
    rw [tabled] at h
    cases ho : CustomTag.of? e' with
    | some kind =>
      have hinside : .element e ∈ (kind.inside children.tabled).labels →
          Text.equalIgnoringCase e.name tag.name = false := by
        intro hm
        unfold CustomTag.inside at hm
        split at hm
        · rcases List.mem_cons.1 hm with hm | hm
          · rw [NodeData.element.inj hm]
            cases tag <;> decide
          · exact ihc (by simpa [labels] using hm)
        · exact ihc hm
      rw [ho] at h
      rcases List.mem_cons.1 h with h | h
      · rw [NodeData.element.inj h]
        exact CustomTag.not_named_replacement kind tag e'.attr?
      · exact (List.mem_append.1 h).elim hinside ihn
    | none =>
      rw [ho] at h
      rcases List.mem_cons.1 h with h | h
      · have hmem : tag ∈ CustomTag.all := by cases tag <;> decide
        rw [NodeData.element.inj h]
        exact Bool.eq_false_iff.2 (List.find?_eq_none.1 ho tag hmem)
      · exact (List.mem_append.1 h).elim ihc ihn

end Forest

namespace Grove

theorem Stands.children_subset {doc : Document} {grove : Grove} (h : grove.Stands doc) {id : NodeId}
    (hm : id ∈ grove.ids) : doc.children id ⊆ grove.ids := by
  induction grove with
  | nil => cases hm
  | leaf i l next ih =>
    rcases List.mem_cons.1 hm with rfl | hm
    · simp [h.2.1]
    · exact fun child hc => List.mem_cons_of_mem _ (ih h.2.2 hm hc)
  | element i e children next ihc ihn =>
    refine fun child hc => List.mem_cons_of_mem _ (List.mem_append.2 ?_)
    rcases List.mem_cons.1 hm with rfl | hm
    · rw [h.2.1] at hc
      exact .inl (roots_subset_ids children hc)
    · rcases List.mem_append.1 hm with hm | hm
      · exact .inl (ihc h.2.2.1 hm hc)
      · exact .inr (ihn h.2.2.2 hm hc)

end Grove

namespace Document

/-- A node is the other one, or lies below it. -/
def Reaches (doc : Document) : NodeId → NodeId → Prop :=
  Relation.ReflTransGen fun parent child => child ∈ doc.children parent

section
variable {doc : Document}

theorem IsGrove.mem_of_reaches {grove : Grove} (h : doc.IsGrove grove) {node : NodeId}
    (hr : doc.Reaches root node) : node = root ∨ node ∈ grove.ids := by
  induction hr with
  | refl => exact .inl rfl
  | tail _ hc ih =>
    refine .inr ?_
    rcases ih with rfl | hm
    · rw [h.rootChildren] at hc
      exact Grove.roots_subset_ids grove hc
    · exact h.stands.children_subset hm hc

/-- A document that was read is converted without failure into its tree laid out; no element that is
left in it has the name of a layout element. Hence markup is written with tables wherever it can be
read. -/
theorem run_convert_of_parse {source : Text} (h : parse source = .ok doc) :
    ∃ after, CustomTag.convert.run doc = (.ok (), after) ∧
      after.toForest = doc.toForest.laidOut ∧
      (∀ node e, after.Reaches root node → after.element? node = some e →
        ∀ tag : CustomTag, Text.equalIgnoringCase e.name tag.name = false) ∧
      withTables source = .ok after.serialize := by
  have hwell := wellFormed_of_parse h
  obtain ⟨tokens, -, rfl⟩ := parse_eq_ok_iff.1 h
  rw [toForest_ofForest] at hwell ⊢
  obtain ⟨after, grove, hrun, hgrove, hforest⟩ :=
    CustomTag.exists_run_convert (Forest.ofTokens tokens)
  have htree : after.toForest = (Forest.ofTokens tokens).tabled := by rw [hgrove.toForest, hforest]
  refine ⟨after, hrun, htree.trans (Forest.tabled_eq_laidOut hwell), ?_, ?_⟩
  · intro node e hr he tag
    rw [element?_eq_some_iff] at he
    rcases hgrove.mem_of_reaches hr with hroot | hm
    · rw [hroot, hgrove.rootData] at he
      simp at he
    · have hlabel := hgrove.mem_labels hm he
      rw [Document.labels, htree] at hlabel
      exact Forest.not_named_of_mem_labels_tabled hlabel tag
  · rw [withTables_eq, h, serialize, htree]
    change Except.ok (ofForest (Forest.ofTokens tokens)).toForest.tabled.render = _
    rw [toForest_ofForest]

theorem run_convert_nested :
    let source := "<container><container class=\"k\"><row>a<button /></row></container></container>".toList
    ∃ doc, parse source = .ok doc ∧
      ∃ after, CustomTag.convert.run doc = (.ok (), after) ∧
        after.toForest = doc.toForest.laidOut ∧
        (∀ node e, after.Reaches root node → after.element? node = some e →
          ∀ tag : CustomTag, Text.equalIgnoringCase e.name tag.name = false) ∧
        withTables source = .ok after.serialize := by
  intro source
  let row := Forest.element ⟨"row".toList, [], false⟩ (.leaf (.text ['a'])
    (.element ⟨"button".toList, [], true⟩ .nil .nil)) .nil
  let nested := Forest.element ⟨"container".toList, [], false⟩ (.element ⟨"container".toList,
    [⟨"class".toList, some ['k']⟩], false⟩ row .nil) .nil
  have hrender : source = nested.render := by decide +kernel
  have hnested : nested.IsCanonical := by decide +kernel
  have h : parse source = .ok (ofForest nested.escaped) := by rw [hrender, parse_render hnested]
  exact ⟨_, h, run_convert_of_parse h⟩

end
end Document
end MailTemplate
