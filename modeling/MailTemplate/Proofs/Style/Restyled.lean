import MailTemplate.Proofs.Markup.Tables
import MailTemplate.Proofs.Style.Reads
import MailTemplate.Proofs.Style.WordsStyled

/-! Styles in a document that is being styled. Elements get their styles in document order, so the
selectors for an element find the elements around it with the styles that they have got by then. What
is written is what the cascade says of the document as it was read, as long as no selector looks at
the style of an element around the one that it selects. -/

namespace MailTemplate

namespace Document

section
variable {source : Text} {doc : Document} {node outer : NodeId}

theorem lt_of_parent? (h : parse source = .ok doc) (hp : doc.parent? node = some outer) :
    outer < node := by
  obtain ⟨tokens, -, rfl⟩ := parse_eq_ok_iff.1 h
  exact lt_of_parent?_ofForest hp

theorem below_root_of_parse (h : parse source = .ok doc) :
    doc.below doc.size root = List.range doc.size := by
  obtain ⟨tokens, -, rfl⟩ := parse_eq_ok_iff.1 h
  exact below_root_ofForest _

theorem pairwise_elements (h : parse source = .ok doc) : doc.elements.Pairwise (· < ·) := by
  rw [elements, below_root_of_parse h]
  exact List.pairwise_lt_range.filter _

theorem mem_elements {element : Element} (h : parse source = .ok doc)
    (he : doc.element? node = some element) : node ∈ doc.elements := by
  have hnode : node < doc.size := lt_size_of_data? (element?_eq_some_iff.1 he)
  rw [elements, below_root_of_parse h, List.mem_filter, List.mem_range, he]
  exact ⟨hnode, rfl⟩

end
end Document

namespace Cascade

section
variable {doc : Document} {rules : List Rule} {styles : NodeId → Option Text} {node : NodeId}

theorem apply_withStyles (hs : styles node = none) :
    apply rules (doc.withStyles styles) node =
      doc.withStyles (Function.update styles node (computed (doc.withStyles styles) rules node)) := by
  cases hc : computed (doc.withStyles styles) rules node with
  | none => rw [apply_of_computed_eq_none hc, ← hs, Function.update_eq_self]
  | some value =>
    obtain ⟨element, he, -, happly⟩ := apply_of_computed hc
    rw [Document.element?_withStyles, hs] at he
    obtain ⟨element, hdoc, rfl⟩ := Option.map_eq_some_iff.1 he
    rw [happly, Element.withStyle_none, Document.setElement_withStyles hdoc]

/-- The turns of several nodes in document order. Each of them finds the styles of the ones before. -/
theorem exists_foldl_apply (rules : List Rule) (doc : Document) {nodes : List NodeId}
    (h : nodes.Pairwise (· < ·)) :
    ∃ styles, nodes.foldl (apply rules) doc = doc.withStyles styles ∧
      (∀ node ∉ nodes, styles node = none) ∧
        ∀ node ∈ nodes, styles node = computed
          (doc.withStyles fun other => if other < node then styles other else none) rules node := by
  induction nodes using List.reverseRecOn with
  | nil =>
    exact ⟨fun _ => none, (Document.withStyles_none doc).symm, fun _ _ => rfl, fun _ hm => by cases hm⟩
  | append_singleton front last ih =>
    obtain ⟨hfront, -, hlast⟩ := List.pairwise_append.1 h
    have hlast : ∀ node ∈ front, node < last := fun node hm => hlast node hm last (by simp)
    obtain ⟨styles, hfold, hnone, hlaw⟩ := ih hfront
    have hnew : styles last = none := hnone last fun hm => (hlast last hm).false
    refine ⟨_, by rw [List.foldl_append, hfold]; exact apply_withStyles hnew, ?_, ?_⟩
    · intro node hm
      simp only [List.mem_append, List.mem_singleton, not_or] at hm
      rw [Function.update_of_ne hm.2, hnone node hm.1]
    · intro node hm
      -- Up to the last turn the styles are those from before it.
      have hbefore : ∀ node ≤ last, (fun other => if other < node then
          Function.update styles last (computed (doc.withStyles styles) rules last) other else none) =
            fun other => if other < node then styles other else none := by
        intro node hle
        funext other
        split
        · next hlt => rw [Function.update_of_ne (hlt.trans_le hle).ne]
        · rfl
      rcases List.mem_append.1 hm with hm | hm
      · have hlt := hlast node hm
        rw [hbefore node hlt.le, Function.update_of_ne hlt.ne, hlaw node hm]
      · obtain rfl := List.mem_singleton.1 hm
        have hall : (fun other => if other < node then styles other else none) = styles := by
          funext other
          split
          · rfl
          · next hlt => exact (hnone other fun hm => hlt (hlast other hm)).symm
        rw [hbefore node le_rfl, Function.update_self, hall]

/-- Every element has the style that the cascade gives it in the document as it was read; where it
gives none, the element has its own. -/
def IsAsRead (rules : List Rule) (doc after : Document) : Prop :=
  ∀ node element, doc.element? node = some element →
    (after.element? node).bind (·.attr? "style".toList) =
      (computed doc rules node).or (element.attr? "style".toList)

theorem isAsRead_withStyles_iff : IsAsRead rules doc (doc.withStyles styles) ↔
    ∀ node element, doc.element? node = some element →
      (styles node).or (element.attr? "style".toList) =
        (computed doc rules node).or (element.attr? "style".toList) := by
  refine forall₃_congr fun node element he => ?_
  rw [Document.element?_withStyles, he, Option.map_some, Option.bind_some, Element.attr?_withStyle]

section
variable {source : Text} (h : Document.parse source = .ok doc)
include h

/-- All styles are written, each as the cascade gives it once the nodes before have theirs. -/
theorem exists_applyAll (rules : List Rule) :
    ∃ styles, applyAll rules doc = doc.withStyles styles ∧
      ∀ node element, doc.element? node = some element → styles node = computed
        (doc.withStyles fun other => if other < node then styles other else none) rules node := by
  obtain ⟨styles, hfold, -, hlaw⟩ :=
    exists_foldl_apply rules doc (Document.pairwise_elements h)
  exact ⟨styles, hfold, fun node element he => hlaw node (Document.mem_elements h he)⟩

/-- The style of a node depends on the style attributes of the nodes before it alone. -/
theorem computed_eq_of_agree {others : NodeId → Option Text} (hs : styles node = others node)
    (hb : ∀ k < node, ∀ element, doc.element? k = some element →
      (styles k).or (element.attr? "style".toList) =
        (others k).or (element.attr? "style".toList)) :
    computed (doc.withStyles styles) rules node = computed (doc.withStyles others) rules node :=
  computed_withStyles (Document.lt_of_parent? h)
    (fun _ _ selector _ => selector.readsAround_true) hs
    fun k hk element he => Element.agree_withStyle_of_eq (hb k hk element he)

/-- Where no selector looks at the style of an element around the selected one, all elements have the
styles that the cascade gives them in the document as it was read. -/
theorem applyAll_eq (hr : ∀ rule ∈ rules, ∀ selector ∈ rule.selectors,
      selector.ReadsAround fun name => Text.lower name ≠ "style".toList) :
    applyAll rules doc = doc.withStyles (computed doc rules) := by
  obtain ⟨styles, happly, hlaw⟩ := exists_applyAll h rules
  rw [happly]
  refine Document.withStyles_congr fun node element he => ?_
  rw [hlaw node element he]
  conv_rhs => rw [← Document.withStyles_none doc]
  exact computed_withStyles (Document.lt_of_parent? h) hr (if_neg (Nat.lt_irrefl node))
    fun k _ element _ => element.agree_withStyle _ _

/-- The styles that are written are those of the document as it was read exactly if no element gets
another one when all others already have theirs. For that it is enough that no selector looks at the
style of an element around the selected one. -/
theorem styled_isAsRead_iff {extra : Option Text} (hrules : rulesOf doc extra = .ok rules)
    (hne : rules ≠ []) :
    styled source extra = .ok (applyAll rules doc).serialize ∧
      (IsAsRead rules doc (applyAll rules doc) ↔
        ∀ node element, doc.element? node = some element →
          (computed (doc.withStyles fun other => if other = node then none else
            computed doc rules other) rules node).or (element.attr? "style".toList) =
              (computed doc rules node).or (element.attr? "style".toList)) ∧
      ((∀ rule ∈ rules, ∀ selector ∈ rule.selectors,
          selector.ReadsAround fun name => Text.lower name ≠ "style".toList) →
        IsAsRead rules doc (applyAll rules doc)) := by
  refine ⟨?_, ?_, fun hr => ?_⟩
  · have hdoc : (Document.parse source).mapError StyleError.markup = .ok doc :=
      mapError_eq_ok_iff.2 h
    refine bind_eq_ok_iff.2 ⟨doc, hdoc, bind_eq_ok_iff.2 ⟨rules, hrules, ?_⟩⟩
    cases rules with
    | nil => exact absurd rfl hne
    | cons rule rules => rfl
  · obtain ⟨styles, happly, hlaw⟩ := exists_applyAll h rules
    rw [happly, isAsRead_withStyles_iff]
    -- What a node gets, if the nodes before it have the same styles in both ways.
    have hsame : ∀ node element, doc.element? node = some element →
        (∀ k < node, ∀ before, doc.element? k = some before →
          (styles k).or (before.attr? "style".toList) =
            (computed doc rules k).or (before.attr? "style".toList)) →
        styles node = computed (doc.withStyles fun other => if other = node then none else
          computed doc rules other) rules node := by
      intro node element he hb
      rw [hlaw node element he]
      refine computed_eq_of_agree h ?_ fun k hk before hbefore => ?_
      · rw [if_neg (Nat.lt_irrefl node), if_pos rfl]
      · rw [if_pos hk, if_neg hk.ne]
        exact hb k hk before hbefore
    constructor
    · intro hread node element he
      rw [← hsame node element he fun k _ => hread k]
      exact hread node element he
    · intro hstable node
      induction node using Nat.strong_induction_on with
      | _ node ih =>
        intro element he
        rw [hsame node element he ih]
        exact hstable node element he
  · rw [applyAll_eq h hr, isAsRead_withStyles_iff]
    exact fun _ _ _ => rfl

end

/-- A selector for any element with a style, which the element itself may have; and one that looks at
the names of the elements around. -/
theorem styled_isAsRead_named :
    let css := "[style] { color: red } div p { margin: 0 }".toList
    ∃ rules doc, Document.parse "<div style=a><p>b</p></div>".toList = .ok doc ∧
      rulesOf doc (some css) = .ok rules ∧
        styled "<div style=a><p>b</p></div>".toList (some css) =
          .ok "<div style=\"color: red;\"><p style=\"margin: 0;\">b</p></div>".toList ∧
        IsAsRead rules doc (applyAll rules doc) := by
  intro css
  let outer : Element := ⟨"div".toList, [⟨"style".toList, some ['a']⟩], false⟩
  let doc := Document.ofForest
    (.element outer (.element ⟨['p'], [], false⟩ (.leaf (.text ['b']) .nil) .nil) .nil)
  let rules : List Rule := [
    ⟨[.compound ⟨none, none, [], [("style".toList, none)]⟩], [⟨"color".toList, "red".toList, false⟩]⟩,
    ⟨[.under (.compound ⟨some "div".toList, none, [], []⟩) .descendant ⟨some ['p'], none, [], []⟩],
      [⟨"margin".toList, ['0'], false⟩]⟩]
  have hparse : Document.parse "<div style=a><p>b</p></div>".toList = .ok doc := by decide +kernel
  have hrules : rulesOf doc (some css) = .ok rules := by decide +kernel
  obtain ⟨hstyled, -, hread⟩ := styled_isAsRead_iff hparse hrules (List.cons_ne_nil _ _)
  refine ⟨rules, doc, hparse, hrules, hstyled.trans (by decide +kernel), hread ?_⟩
  intro rule hrule selector hselector
  simp only [rules, List.mem_cons, List.not_mem_nil, or_false] at hrule
  rcases hrule with rfl | rfl
  · rw [List.mem_singleton.1 hselector]
    trivial
  · rw [List.mem_singleton.1 hselector]
    exact ⟨by decide, by decide, fun pair hm => by cases hm⟩

/-- A selector that looks at the style of the parent matches because the parent got a style just
before. In the document as it was read no rule matches the inner element. -/
theorem not_isAsRead :
    let css := "p { color: red } [style] b { margin: 0 }".toList
    ∃ rules doc, Document.parse "<p><b>x</b></p>".toList = .ok doc ∧
      rulesOf doc (some css) = .ok rules ∧ rules ≠ [] ∧
        computed doc rules 2 = none ∧
        styled "<p><b>x</b></p>".toList (some css) =
          .ok "<p style=\"color: red;\"><b style=\"margin: 0;\">x</b></p>".toList ∧
        ¬ IsAsRead rules doc (applyAll rules doc) := by
  intro css
  let inner : Element := ⟨['b'], [], false⟩
  let doc := Document.ofForest
    (.element ⟨['p'], [], false⟩ (.element inner (.leaf (.text ['x']) .nil) .nil) .nil)
  let rules : List Rule := [
    ⟨[.compound ⟨some ['p'], none, [], []⟩], [⟨"color".toList, "red".toList, false⟩]⟩,
    ⟨[.under (.compound ⟨none, none, [], [("style".toList, none)]⟩) .descendant
      ⟨some ['b'], none, [], []⟩], [⟨"margin".toList, ['0'], false⟩]⟩]
  have hnone : computed doc rules 2 = none := by decide +kernel
  refine ⟨rules, doc, by decide +kernel, by decide +kernel, List.cons_ne_nil _ _, hnone,
    by decide +kernel, fun hread => ?_⟩
  have hinner := hread 2 inner rfl
  rw [hnone] at hinner
  exact absurd hinner (by decide +kernel)

end
end Cascade
end MailTemplate
