import MailTemplate.Proofs.Style.Precedence
import MailTemplate.Proofs.Style.Restyled

/-! What styling leaves alone. Every node stays where it is and what it is; of an element at most the
value of its first style attribute is another one, or a style attribute stands behind the others. -/

namespace MailTemplate

namespace Attribute

/-- What styling may do to the attributes of an element: nothing; another value for the first style
attribute, whatever case its name is in; or a style attribute at the end, if there was none. -/
inductive Restyled : List Attribute → List Attribute → Prop
  | same (attributes : List Attribute) : Restyled attributes attributes
  | value {front back : List Attribute} {attr : Attribute} (style : Text)
    (hf : ∀ other ∈ front, Text.lower other.name ≠ "style".toList)
    (ha : Text.lower attr.name = "style".toList) :
    Restyled (front ++ attr :: back) (front ++ ⟨attr.name, some style⟩ :: back)
  | added {attributes : List Attribute} (style : Text)
    (h : ∀ other ∈ attributes, Text.lower other.name ≠ "style".toList) :
    Restyled attributes (attributes ++ [⟨"style".toList, some style⟩])

theorem Restyled.cons {attr : Attribute} {old new : List Attribute}
    (hn : Text.lower attr.name ≠ "style".toList) (h : Restyled old new) :
    Restyled (attr :: old) (attr :: new) := by
  have hall : ∀ {others : List Attribute}, (∀ other ∈ others, Text.lower other.name ≠ "style".toList) →
      ∀ other ∈ attr :: others, Text.lower other.name ≠ "style".toList := by
    intro others ho other hm
    rcases List.mem_cons.1 hm with rfl | hm
    · exact hn
    · exact ho other hm
  cases h with
  | same => exact .same _
  | value style hf ha => exact @Restyled.value (attr :: _) _ _ style (hall hf) ha
  | added style h => exact .added style (hall h)

theorem restyled_putAttr (style : Text) (attributes : List Attribute) :
    Restyled attributes (Element.putAttr "style".toList style attributes) := by
  induction attributes with
  | nil => exact .added style (by simp)
  | cons attr rest ih =>
    rw [Element.putAttr]
    have hnamed : attr.isNamed "style".toList = true ↔ Text.lower attr.name = "style".toList := by
      rw [isNamed, Text.equalIgnoringCase, beq_iff_eq]
      rfl
    split
    · next hn => exact @Restyled.value [] _ _ style (by simp) (hnamed.1 hn)
    · next hn => exact ih.cons (mt hnamed.2 hn)

end Attribute

namespace Cascade
open Document

section
variable {doc after : Document} {source text : Text} {extra : Option Text} {rules : List Rule}
  {node : NodeId} {element : Element}

/-- An element that never gets a style: its name says so, or it stands inside of a `head` element. -/
def IsUnstyled (doc : Document) (node : NodeId) (element : Element) : Prop :=
  element.name ∈ metadataNames ∨
    ∃ outer head, doc.IsAround outer node ∧ doc.element? outer = some head ∧ head.name = "head".toList

/-- The two documents have the same nodes with the same links, and differ in the styles of elements
alone. -/
structure DiffersInStyles (doc after : Document) : Prop where
  size : after.size = doc.size
  parent : ∀ node, after.parent? node = doc.parent? node
  children : ∀ node, after.children node = doc.children node
  other : ∀ node, doc.element? node = none → after.data? node = doc.data? node
  element : ∀ node element, doc.element? node = some element → ∃ attributes,
    after.data? node = some (.element ⟨element.name, attributes, element.selfClosing⟩) ∧
      Attribute.Restyled element.attributes attributes ∧
        (IsUnstyled doc node element → attributes = element.attributes)

theorem computed_of_isUnstyled (h : Document.parse source = .ok doc)
    (he : doc.element? node = some element) (hu : IsUnstyled doc node element)
    (styles : NodeId → Option Text) : computed (doc.withStyles styles) rules node = none := by
  have hnode : node < doc.size := lt_size_of_data? (element?_eq_some_iff.1 he)
  have hskip : (metadataNames.contains element.name || insideHead doc node) = true := by
    rw [Bool.or_eq_true, List.contains_iff_mem, insideHead_iff h hnode]
    exact hu
  rw [computed, element?_withStyles, he]
  simp only [Option.map_some, Option.bind_eq_bind, Option.bind_some, Element.name_withStyle,
    insideHead_withStyles, hskip, if_true]

theorem differsInStyles_applyAll (h : Document.parse source = .ok doc) (rules : List Rule) :
    DiffersInStyles doc (applyAll rules doc) := by
  obtain ⟨styles, happly, hlaw⟩ := exists_applyAll h rules
  rw [happly]
  refine ⟨size_withStyles, fun _ => parent?_withStyles, fun _ => children_withStyles,
    fun node hnone => ?_, fun node element he => ?_⟩
  · rw [data?_withStyles]
    cases hd : doc.data? node with
    | none => rfl
    | some data =>
      cases data with
      | element e => simp [element?, hd] at hnone
      | document => rfl
      | leaf l => rfl
  · rw [data?_withStyles, element?_eq_some_iff.1 he]
    cases hs : styles node with
    | none => exact ⟨element.attributes, rfl, .same _, fun _ => rfl⟩
    | some style =>
      refine ⟨_, rfl, Attribute.restyled_putAttr style _, fun hu => ?_⟩
      rw [hlaw node element he, computed_of_isUnstyled h he hu] at hs
      cases hs

/-- Styling with at least one rule writes a document that differs from the one that was read in the
styles of elements alone; the elements that never get a style keep all their attributes. -/
theorem differsInStyles_of_styled (h : styled source extra = .ok text) :
    ∃ doc rules, Document.parse source = .ok doc ∧ rulesOf doc extra = .ok rules ∧
      (rules = [] → text = source) ∧
        (rules ≠ [] → ∃ after, text = after.serialize ∧ DiffersInStyles doc after) := by
  obtain ⟨doc, hparse, h⟩ := bind_eq_ok_iff.1 h
  obtain ⟨rules, hrules, h⟩ := bind_eq_ok_iff.1 h
  have hdoc := mapError_eq_ok_iff.1 hparse
  refine ⟨doc, rules, hdoc, hrules, ?_, fun hne => ⟨_, ?_, differsInStyles_applyAll hdoc rules⟩⟩
  · rintro rfl
    cases h
    rfl
  · cases rules with
    | nil => exact absurd rfl hne
    | cons rule rules =>
      cases h
      rfl

/-- Of two style attributes the first one gets the value, even if it has none and its name is in upper
case; the element in the head gets nothing. -/
theorem differsInStyles_of_styled_twice :
    let source := "<head><b></b></head><p STYLE style=x>c</p>".toList
    let written := "<head><b></b></head><p STYLE=\"color: red;\" style=\"x\">c</p>".toList
    styled source (some "* { color: red }".toList) = .ok written ∧
      ∃ doc after, Document.parse source = .ok doc ∧ written = after.serialize ∧
        DiffersInStyles doc after := by
  intro source written
  let doc := Document.ofForest (.element ⟨"head".toList, [], false⟩
    (.element ⟨['b'], [], false⟩ .nil .nil)
    (.element ⟨['p'], [⟨"STYLE".toList, none⟩, ⟨"style".toList, some ['x']⟩], false⟩
      (.leaf (.text ['c']) .nil) .nil))
  have hparse : Document.parse source = .ok doc := by decide +kernel
  have hrules : rulesOf doc (some "* { color: red }".toList) =
      .ok [⟨[.compound ⟨none, none, [], []⟩], [⟨"color".toList, "red".toList, false⟩]⟩] := by
    decide +kernel
  have hstyled : styled source (some "* { color: red }".toList) = .ok written := by decide +kernel
  obtain ⟨_, rules, hdoc, hfound, -, hafter⟩ := differsInStyles_of_styled hstyled
  cases hparse.symm.trans hdoc
  cases hrules.symm.trans hfound
  obtain ⟨after, hwritten, hdiffers⟩ := hafter (List.cons_ne_nil _ _)
  exact ⟨hstyled, doc, after, hparse, hwritten, hdiffers⟩

end
end Cascade
end MailTemplate
