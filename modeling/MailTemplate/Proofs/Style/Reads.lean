import MailTemplate.Proofs.Markup.Around
import MailTemplate.Proofs.Markup.Relabel
import MailTemplate.Style.Cascade

/-! What the cascade reads. A selector looks at the element that it selects and at the elements around
it, and sees their names and some of their attributes. Where two documents look the same in this way,
a node has the same style in both. -/

namespace MailTemplate

namespace Element

/-- Two elements have the same name, and the same values in the attributes of these names. -/
structure Agree (names : Text → Prop) (first second : Element) : Prop where
  name : first.name = second.name
  attr : ∀ name, names name → first.attr? name = second.attr? name

def withStyle (element : Element) (style : Option Text) : Element :=
  style.elim element (element.setAttr "style".toList)

section
variable {element : Element} {name other value : Text} {style : Option Text}

theorem attr?_congr (h : Text.lower name = Text.lower other) :
    element.attr? name = element.attr? other := by
  have hnamed : Attribute.isNamed name = Attribute.isNamed other := by
    funext attr
    rw [Attribute.isNamed, Attribute.isNamed, Text.equalIgnoringCase, Text.equalIgnoringCase, h]
  rw [attr?, attr?, hnamed]

theorem attr?_setAttr_of_ne (h : Text.lower other ≠ Text.lower name) :
    (element.setAttr name value).attr? other = element.attr? other := by
  have hnot : ∀ attr : Attribute, attr.isNamed name = true → attr.isNamed other = false := by
    intro attr hn
    simp only [Attribute.isNamed, Text.equalIgnoringCase, beq_iff_eq, beq_eq_false_iff_ne] at hn ⊢
    rw [hn]
    exact h.symm
  have hfind : ∀ attributes : List Attribute,
      (putAttr name value attributes).find? (Attribute.isNamed other) =
        attributes.find? (Attribute.isNamed other) := by
    intro attributes
    induction attributes with
    | nil =>
      have hself : Attribute.isNamed name ⟨name, some value⟩ = true := by
        simp [Attribute.isNamed, Text.equalIgnoringCase]
      rw [putAttr, List.find?_cons, hnot _ hself]
    | cons attr rest ih =>
      rw [putAttr]
      by_cases hn : attr.isNamed name = true
      · have hset : Attribute.isNamed other { attr with value := some value } = false :=
          hnot { attr with value := some value } hn
        rw [if_pos hn, List.find?_cons, List.find?_cons, hset, hnot attr hn]
      · rw [if_neg hn, List.find?_cons, List.find?_cons, ih]
  rw [attr?, attr?, setAttr, hfind]

@[simp] theorem withStyle_none (element : Element) : element.withStyle none = element := rfl

@[simp] theorem name_withStyle (element : Element) (style : Option Text) :
    (element.withStyle style).name = element.name := by cases style <;> rfl

@[simp] theorem attr?_withStyle (element : Element) (style : Option Text) :
    (element.withStyle style).attr? "style".toList = style.or (element.attr? "style".toList) := by
  cases style with
  | none => rfl
  | some value => exact attr?_setAttr element _ value

theorem attr?_withStyle_of_ne (h : Text.lower name ≠ "style".toList) :
    (element.withStyle style).attr? name = element.attr? name := by
  cases style with
  | none => rfl
  | some value => exact attr?_setAttr_of_ne h

theorem agree_withStyle (element : Element) (style other : Option Text) :
    Agree (fun name => Text.lower name ≠ "style".toList) (element.withStyle style)
      (element.withStyle other) := by
  refine ⟨by simp, fun name hn => ?_⟩
  rw [attr?_withStyle_of_ne hn, attr?_withStyle_of_ne hn]

theorem agree_withStyle_of_eq {other : Option Text}
    (h : style.or (element.attr? "style".toList) = other.or (element.attr? "style".toList)) :
    Agree (fun _ => True) (element.withStyle style) (element.withStyle other) := by
  refine ⟨by simp, fun name _ => ?_⟩
  by_cases hn : Text.lower name = "style".toList
  · have hstyle : Text.lower name = Text.lower "style".toList := hn
    rw [attr?_congr hstyle, attr?_congr hstyle, attr?_withStyle, attr?_withStyle, h]
  · rw [attr?_withStyle_of_ne hn, attr?_withStyle_of_ne hn]

end
end Element

namespace NodeData

/-- The node with a style written into it, if it is an element and there is one. -/
def withStyle (style : Option Text) : NodeData → NodeData
  | element e => element (e.withStyle style)
  | data => data

@[simp] theorem withStyle_none (data : NodeData) : data.withStyle none = data := by
  cases data <;> rfl

end NodeData

structure Compound.ReadsOnly (names : Text → Prop) (compound : Compound) : Prop where
  id : names "id".toList
  classes : names "class".toList
  attributes : ∀ pair ∈ compound.attributes, names pair.1

namespace Selector

def ReadsOnly (names : Text → Prop) : Selector → Prop
  | .compound c => c.ReadsOnly names
  | .under outer _ c => outer.ReadsOnly names ∧ c.ReadsOnly names

/-- All attributes of elements around the selected one that a selector looks at have these names. -/
def ReadsAround (names : Text → Prop) : Selector → Prop
  | .compound _ => True
  | .under outer _ _ => outer.ReadsOnly names

end Selector

section
variable {names : Text → Prop} {selector : Selector} {first second : List Element}
  {element : Element}

theorem Compound.holds_congr {compound : Compound} {other : Element}
    (hr : compound.ReadsOnly names) (h : element.Agree names other) :
    compound.holds element = compound.holds other := by
  have hclasses : element.classes = other.classes := by
    rw [Element.classes, Element.classes, h.attr _ hr.classes]
  have hid : element.id? = other.id? := h.attr _ hr.id
  rw [holds, holds, h.name, hid, hclasses]
  refine congrArg (and _) ?_
  rw [Bool.eq_iff_iff, List.all_eq_true, List.all_eq_true]
  refine forall₂_congr fun pair hm => ?_
  simp only [h.attr pair.1 (hr.attributes pair hm)]

namespace Selector

theorem readsOnly_true (selector : Selector) : selector.ReadsOnly fun _ => True := by
  induction selector with
  | compound c => exact ⟨trivial, trivial, fun _ _ => trivial⟩
  | under outer _ c ih => exact ⟨ih, trivial, trivial, fun _ _ => trivial⟩

theorem readsAround_true (selector : Selector) : selector.ReadsAround fun _ => True := by
  cases selector with
  | compound c => trivial
  | under outer _ c => exact outer.readsOnly_true

theorem anySuffix_congr {α : Type} {R : α → α → Prop} {p : List α → Bool} {first second : List α}
    (hp : ∀ {first second : List α}, List.Forall₂ R first second → p first = p second)
    (h : List.Forall₂ R first second) : anySuffix p first = anySuffix p second := by
  induction h with
  | nil => rfl
  | cons ha hr ih => rw [anySuffix, anySuffix, hp (.cons ha hr), ih]

theorem holds_congr (hr : selector.ReadsOnly names)
    (h : List.Forall₂ (Element.Agree names) first second) :
    selector.holds first = selector.holds second := by
  induction selector generalizing first second with
  | compound c =>
    cases h with
    | nil => rfl
    | cons ha _ => exact Compound.holds_congr hr ha
  | under outer combinator c ih =>
    cases h with
    | nil => rfl
    | cons ha hrest =>
      have hc := Compound.holds_congr hr.2 ha
      cases combinator with
      | child => rw [holds, holds, hc, ih hr.1 hrest]
      | descendant => rw [holds, holds, hc, anySuffix_congr (ih hr.1) hrest]

/-- The elements around the first one only have to agree in what is read around it. -/
theorem holds_cons_congr (hr : selector.ReadsAround names)
    (h : List.Forall₂ (Element.Agree names) first second) :
    selector.holds (element :: first) = selector.holds (element :: second) := by
  cases selector with
  | compound c => rfl
  | under outer combinator c =>
    cases combinator with
    | child => rw [holds, holds, holds_congr hr h]
    | descendant => rw [holds, holds, anySuffix_congr (holds_congr hr) h]

end Selector
end

namespace Document

/-- The document with a style written into every element for which there is one. -/
def withStyles (doc : Document) (styles : NodeId → Option Text) : Document :=
  ⟨doc.nodes.mapIdx fun node n => { n with data := n.data.withStyle (styles node) }⟩

section
variable {doc : Document} {styles others : NodeId → Option Text} {node : NodeId}

theorem getElem?_withStyles : (doc.withStyles styles).nodes[node]? =
    doc.nodes[node]?.map fun n => { n with data := n.data.withStyle (styles node) } :=
  Array.getElem?_mapIdx

@[simp] theorem size_withStyles : (doc.withStyles styles).size = doc.size := Array.size_mapIdx

@[simp] theorem parent?_withStyles : (doc.withStyles styles).parent? node = doc.parent? node := by
  rw [parent?, parent?, getElem?_withStyles]
  cases doc.nodes[node]? <;> rfl

@[simp] theorem children_withStyles : (doc.withStyles styles).children node = doc.children node := by
  rw [children, children, getElem?_withStyles]
  cases doc.nodes[node]? <;> rfl

@[simp] theorem data?_withStyles : (doc.withStyles styles).data? node =
    (doc.data? node).map (·.withStyle (styles node)) := by
  rw [data?, data?, getElem?_withStyles]
  cases doc.nodes[node]? <;> rfl

@[simp] theorem element?_withStyles : (doc.withStyles styles).element? node =
    (doc.element? node).map (·.withStyle (styles node)) := by
  rw [element?, element?, data?_withStyles]
  cases doc.data? node with
  | none => rfl
  | some data => cases data <;> rfl

@[simp] theorem withStyles_none (doc : Document) : doc.withStyles (fun _ => none) = doc := by
  have hnodes : ∀ k : Nat, (doc.withStyles fun _ => none).nodes[k]? = doc.nodes[k]? := by
    intro k
    rw [getElem?_withStyles]
    cases doc.nodes[k]? <;> simp
  exact congrArg Document.mk (Array.ext_getElem? hnodes)

theorem withStyles_congr (h : ∀ node element, doc.element? node = some element →
      styles node = others node) : doc.withStyles styles = doc.withStyles others := by
  have hnodes : ∀ k : Nat, (doc.withStyles styles).nodes[k]? = (doc.withStyles others).nodes[k]? := by
    intro k
    rw [getElem?_withStyles, getElem?_withStyles]
    cases hn : doc.nodes[k]? with
    | none => rfl
    | some n =>
      obtain ⟨parent, children, data⟩ := n
      cases data with
      | document => rfl
      | leaf l => rfl
      | element e => rw [h k e (by simp [element?, data?, hn])]
  exact congrArg Document.mk (Array.ext_getElem? hnodes)

theorem setElement_withStyles {element : Element} {value : Text}
    (he : doc.element? node = some element) :
    (doc.withStyles styles).setElement node (element.setAttr "style".toList value) =
      doc.withStyles (Function.update styles node (some value)) := by
  have hnodes : ∀ k : Nat, ((doc.withStyles styles).setElement node
      (element.setAttr "style".toList value)).nodes[k]? =
        (doc.withStyles (Function.update styles node (some value))).nodes[k]? := by
    intro k
    rw [setElement, getElem?_update, getElem?_withStyles, getElem?_withStyles]
    by_cases hk : node = k
    · subst hk
      obtain ⟨n, hn, hdata⟩ := Option.map_eq_some_iff.1 (element?_eq_some_iff.1 he)
      rw [if_pos rfl, hn, Option.map_some, Option.map_some, Option.map_some, hdata,
        Function.update_self]
      rfl
    · rw [if_neg hk, Function.update_of_ne (Ne.symm hk)]
  exact congrArg Document.mk (Array.ext_getElem? hnodes)

theorem ancestors_withStyles (bound : Nat) :
    (doc.withStyles styles).ancestors bound node = doc.ancestors bound node := by
  induction bound generalizing node with
  | zero => rfl
  | succ bound ih =>
    rw [ancestors, ancestors, parent?_withStyles]
    cases doc.parent? node with
    | none => rfl
    | some parent => exact congrArg (parent :: ·) ih

section
variable {names : Text → Prop}
  (hl : ∀ {node outer : Nat}, doc.parent? node = some outer → outer < node)
include hl

/-- The line outwards from a node looks the same, if all nodes up to it do. -/
theorem forall₂_line (h : ∀ k ≤ node, ∀ element, doc.element? k = some element →
      (element.withStyle (styles k)).Agree names (element.withStyle (others k))) (bound : Nat) :
    List.Forall₂ (Element.Agree names) ((doc.withStyles styles).line bound node)
      ((doc.withStyles others).line bound node) := by
  induction bound generalizing node with
  | zero => exact .nil
  | succ bound ih =>
    rw [line, line, element?_withStyles, element?_withStyles, parent?_withStyles,
      parent?_withStyles]
    cases he : doc.element? node with
    | none => exact .nil
    | some element =>
      refine .cons (h node le_rfl element he) ?_
      cases hp : doc.parent? node with
      | none => exact .nil
      | some parent => exact ih fun k hk => h k (hk.trans (hl hp).le)

theorem isMatch_withStyles {selector : Selector} (hr : selector.ReadsAround names)
    (hs : styles node = others node)
    (h : ∀ k < node, ∀ element, doc.element? k = some element →
      (element.withStyle (styles k)).Agree names (element.withStyle (others k))) :
    (doc.withStyles styles).isMatch selector node =
      (doc.withStyles others).isMatch selector node := by
  rw [isMatch, isMatch, size_withStyles, size_withStyles]
  cases doc.size * selector.length with
  | zero => rfl
  | succ bound =>
    rw [line, line, element?_withStyles, element?_withStyles, parent?_withStyles,
      parent?_withStyles, hs]
    cases doc.element? node with
    | none => rfl
    | some element =>
      refine Selector.holds_cons_congr hr ?_
      cases hp : doc.parent? node with
      | none => exact .nil
      | some parent => exact forall₂_line hl (fun k hk => h k (hk.trans_lt (hl hp))) bound

end
end
end Document

namespace Cascade

section
variable {doc : Document} {styles others : NodeId → Option Text} {node : NodeId}
  {rules : List Rule}

theorem insideHead_withStyles : insideHead (doc.withStyles styles) node = insideHead doc node := by
  rw [insideHead, insideHead, Document.size_withStyles, Document.ancestors_withStyles]
  refine List.any_congr rfl fun outer => ?_
  rw [Document.element?_withStyles]
  cases doc.element? outer with
  | none => rfl
  | some element => simp

/-- The style of a node does not depend on styles of other nodes that no selector looks at. -/
theorem computed_withStyles {names : Text → Prop}
    (hl : ∀ {node outer : Nat}, doc.parent? node = some outer → outer < node)
    (hr : ∀ rule ∈ rules, ∀ selector ∈ rule.selectors, selector.ReadsAround names)
    (hs : styles node = others node)
    (h : ∀ k < node, ∀ element, doc.element? k = some element →
      (element.withStyle (styles k)).Agree names (element.withStyle (others k))) :
    computed (doc.withStyles styles) rules node = computed (doc.withStyles others) rules node := by
  have hmatching : matching (doc.withStyles styles) node rules =
      matching (doc.withStyles others) node rules := by
    have hmatch : ∀ rule ∈ rules, match? (doc.withStyles styles) node rule =
        match? (doc.withStyles others) node rule := by
      intro rule hrule
      rw [match?, match?]
      refine congrArg _ (List.filter_congr fun selector hm => ?_)
      exact Document.isMatch_withStyles hl (hr rule hrule selector hm) hs h
    rw [matching, matching, List.filterMap_congr fun rule hm => by rw [hmatch rule hm]]
  rw [computed, computed, Document.element?_withStyles, Document.element?_withStyles, hs,
    insideHead_withStyles, insideHead_withStyles, hmatching]

end
end Cascade
end MailTemplate
