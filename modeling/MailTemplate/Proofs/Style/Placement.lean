import MailTemplate.Proofs.Markup.Operations
import MailTemplate.Proofs.Style.Restyled

/-! Where a selector matches. Its compounds are placed on elements, the last of them on the element
that is selected and every other one around the next, as the combinator between them says. The search
for such elements goes outwards over the line of elements around a node; no way to place them is lost
on it. -/

namespace MailTemplate

namespace Selector

def compounds : Selector → List Compound
  | .compound c => [c]
  | .under outer _ c => outer.compounds ++ [c]

/-- The combinators between the compounds of a selector. -/
def combinators : Selector → List Combinator
  | .compound _ => []
  | .under outer combinator _ => outer.combinators ++ [combinator]

theorem length_compounds (selector : Selector) :
    selector.compounds.length = selector.combinators.length + 1 := by
  induction selector with
  | compound c => rfl
  | under outer combinator c ih =>
    rw [compounds, combinators, List.length_append, List.length_append, ih]
    rfl

theorem length_pos (selector : Selector) : 0 < selector.length := by
  cases selector <;> exact Nat.succ_pos _

@[simp] theorem holds_nil (selector : Selector) : selector.holds [] = false := by
  cases selector <;> rfl

end Selector

namespace Grove

section
variable {doc : Document} {grove : Grove} {node : NodeId}

theorem Stands.children_of_leaf (h : grove.Stands doc) (hm : node ∈ grove.ids) {l : Leaf}
    (hl : doc.data? node = some (.leaf l)) : doc.children node = [] := by
  induction grove with
  | nil => cases hm
  | leaf id l next ih =>
    rcases List.mem_cons.1 hm with rfl | hm
    · exact h.2.1
    · exact ih h.2.2 hm
  | element id e children next ihc ihn =>
    rcases List.mem_cons.1 hm with rfl | hm
    · rw [h.1] at hl
      cases hl
    · rcases List.mem_append.1 hm with hm | hm
      · exact ihc h.2.2.1 hm
      · exact ihn h.2.2.2 hm

end
end Grove

namespace Document

section
variable {α β : Type} {R : α → β → Prop}

theorem forall₂_concat_iff {front : List α} {last : α} {list : List β} :
    List.Forall₂ R (front ++ [last]) list ↔
      ∃ before final, list = before ++ [final] ∧ List.Forall₂ R front before ∧ R last final := by
  induction front generalizing list with
  | nil =>
    constructor
    · intro h
      cases h with
      | cons hlast hrest =>
        cases hrest
        exact ⟨[], _, rfl, .nil, hlast⟩
    · rintro ⟨before, final, rfl, hbefore, hlast⟩
      cases hbefore
      exact .cons hlast .nil
  | cons a front ih =>
    constructor
    · intro h
      cases h with
      | cons ha hrest =>
        obtain ⟨before, final, rfl, hbefore, hlast⟩ := ih.1 hrest
        exact ⟨_, final, rfl, .cons ha hbefore, hlast⟩
    · rintro ⟨before, final, rfl, hbefore, hlast⟩
      cases hbefore with
      | cons ha hrest => exact .cons ha (ih.2 ⟨_, final, rfl, hrest, hlast⟩)

end

def Joins (doc : Document) : Combinator → (outer inner : NodeId) → Prop
  | .child, outer, inner => doc.parent? inner = some outer
  | .descendant, outer, inner => doc.IsAround outer inner

/-- Nodes for conditions, one each: every node is an element that satisfies its condition, and stands
to the next one as the combinator between the two says. -/
structure Places (doc : Document) (conditions : List (Element → Prop))
    (combinators : List Combinator) (nodes : List NodeId) : Prop where
  satisfied : List.Forall₂ (fun condition node =>
    ∃ element, doc.element? node = some element ∧ condition element) conditions nodes
  joined : ∀ i combinator outer inner, combinators[i]? = some combinator → nodes[i]? = some outer →
    nodes[i + 1]? = some inner → doc.Joins combinator outer inner

section
variable {doc : Document} {node outer bound : Nat} {condition : Element → Prop}
  {conditions : List (Element → Prop)} {combinator : Combinator} {combinators : List Combinator}

theorem exists_places_singleton_iff :
    (∃ nodes, doc.Places [condition] [] nodes ∧ nodes.getLast? = some node) ↔
      ∃ element, doc.element? node = some element ∧ condition element := by
  constructor
  · rintro ⟨nodes, ⟨hsat, -⟩, hlast⟩
    cases hsat with
    | cons hfirst hrest =>
      cases hrest
      obtain rfl := Option.some.inj hlast
      exact hfirst
  · intro hnode
    refine ⟨[node], ⟨.cons hnode .nil, fun i combinator outer inner hc => ?_⟩, rfl⟩
    cases hc

theorem places_concat_iff {before : List NodeId}
    (hlength : conditions.length = combinators.length + 1) :
    doc.Places (conditions ++ [condition]) (combinators ++ [combinator]) (before ++ [node]) ↔
      doc.Places conditions combinators before ∧
        (∃ element, doc.element? node = some element ∧ condition element) ∧
          ∃ outer, before.getLast? = some outer ∧ doc.Joins combinator outer node := by
  -- the new combinator stands where the nodes before the new one end
  have hlast : conditions.length = before.length → before.length = combinators.length + 1 ∧
      before.getLast? = before[combinators.length]? := by
    intro hbefore
    rw [hlength] at hbefore
    rw [List.getLast?_eq_getElem?, ← hbefore, Nat.add_sub_cancel]
    exact ⟨rfl, rfl⟩
  constructor
  · rintro ⟨hsat, hjoined⟩
    obtain ⟨before, inner, he, hbefore, hinner⟩ := forall₂_concat_iff.1 hsat
    obtain ⟨rfl, hnode⟩ := List.append_inj' he rfl
    obtain rfl : node = inner := List.head_eq_of_cons_eq hnode
    obtain ⟨hcount, hend⟩ := hlast hbefore.length_eq
    have hkept : ∀ {i : Nat} {found : NodeId}, before[i]? = some found →
        (before ++ [node])[i]? = some found := by
      intro i found hi
      rwa [List.getElem?_append_left (List.getElem?_eq_some_iff.1 hi).1]
    refine ⟨⟨hbefore, fun i c first second hc hfirst hsecond => ?_⟩, hinner, ?_⟩
    · refine hjoined i c first second ?_ (hkept hfirst) (hkept hsecond)
      rwa [List.getElem?_append_left (List.getElem?_eq_some_iff.1 hc).1]
    · obtain ⟨outer, hget⟩ : ∃ outer, before[combinators.length]? = some outer :=
        ⟨_, List.getElem?_eq_getElem (hcount ▸ Nat.lt_succ_self _)⟩
      refine ⟨outer, hend.trans hget, hjoined _ _ outer node List.getElem?_concat_length
        (hkept hget) ?_⟩
      rw [← hcount, List.getElem?_concat_length]
  · rintro ⟨⟨hsat, hjoined⟩, hnode, outer, houter, hjoins⟩
    obtain ⟨hcount, hend⟩ := hlast hsat.length_eq
    refine ⟨forall₂_concat_iff.2 ⟨before, node, rfl, hsat, hnode⟩, ?_⟩
    intro i c first second hc hfirst hsecond
    rcases lt_or_ge i combinators.length with hi | hi
    · rw [List.getElem?_append_left hi] at hc
      rw [List.getElem?_append_left (by omega)] at hfirst hsecond
      exact hjoined i c first second hc hfirst hsecond
    · obtain rfl : i = combinators.length := by
        have hle := (List.getElem?_eq_some_iff.1 hc).1
        rw [List.length_append, List.length_singleton] at hle
        omega
      rw [List.getElem?_concat_length] at hc
      rw [List.getElem?_append_left (by omega), ← hend, houter] at hfirst
      rw [← hcount, List.getElem?_concat_length] at hsecond
      cases hc
      cases hfirst
      cases hsecond
      exact hjoins

theorem exists_places_concat_iff (hlength : conditions.length = combinators.length + 1) :
    (∃ nodes, doc.Places (conditions ++ [condition]) (combinators ++ [combinator]) nodes ∧
      nodes.getLast? = some node) ↔
        (∃ element, doc.element? node = some element ∧ condition element) ∧
          ∃ outer, doc.Joins combinator outer node ∧
            ∃ nodes, doc.Places conditions combinators nodes ∧ nodes.getLast? = some outer := by
  constructor
  · rintro ⟨nodes, hplaces, hnode⟩
    obtain ⟨before, rfl⟩ := List.getLast?_eq_some_iff.1 hnode
    obtain ⟨hbefore, hinner, outer, houter, hjoins⟩ := (places_concat_iff hlength).1 hplaces
    exact ⟨hinner, outer, hjoins, before, hbefore, houter⟩
  · rintro ⟨hnode, outer, hjoins, before, hbefore, houter⟩
    exact ⟨before ++ [node], (places_concat_iff hlength).2 ⟨hbefore, hnode, outer, houter, hjoins⟩,
      List.getLast?_concat⟩

theorem line_of_element?_eq_none (he : doc.element? node = none) : doc.line bound node = [] := by
  cases bound with
  | zero => rfl
  | succ bound => rw [line, he]

section
variable (hl : ∀ {node outer : Nat}, doc.parent? node = some outer → outer < node)
include hl

theorem line_congr {more : Nat} (hb : node < bound) (hm : node < more) :
    doc.line bound node = doc.line more node := by
  induction bound generalizing node more with
  | zero => omega
  | succ bound ih =>
    obtain ⟨more, rfl⟩ : ∃ n, more = n + 1 := ⟨more - 1, by omega⟩
    rw [line, line]
    cases doc.element? node with
    | none => rfl
    | some element =>
      cases hp : doc.parent? node with
      | none => rfl
      | some parent =>
        have hlt := hl hp
        exact congrArg (element :: ·) (ih (by omega) (by omega))

theorem line_of_size_le {more : Nat} (hb : doc.size ≤ bound) (hm : doc.size ≤ more) :
    doc.line bound node = doc.line more node := by
  by_cases hn : node < doc.size
  · exact line_congr hl (hn.trans_le hb) (hn.trans_le hm)
  · have hnone : doc.element? node = none := by
      rw [element?, data?, getElem?_eq_none (Nat.le_of_not_lt hn)]
      rfl
    rw [line_of_element?_eq_none hnone, line_of_element?_eq_none hnone]

theorem line_eq (hb : node < bound) {element : Element} (he : doc.element? node = some element) :
    doc.line bound node = element :: (doc.parent? node).elim [] (doc.line bound) := by
  obtain ⟨bound, rfl⟩ : ∃ n, bound = n + 1 := ⟨bound - 1, by omega⟩
  rw [line, he]
  cases hp : doc.parent? node with
  | none => rfl
  | some parent =>
    have hlt := hl hp
    exact congrArg (element :: ·) (line_congr hl (by omega) (by omega))

variable (ht : ∀ {inner outer : Nat}, doc.parent? inner = some outer → doc.element? outer = none →
  doc.parent? outer = none)
include ht

/-- Where a line goes on from a node, its final parts are the lines of the elements around it. -/
theorem anySuffix_parent_iff {p : List Element → Bool} (hp : p [] = false) (hb : node < bound) :
    Selector.anySuffix p ((doc.parent? node).elim [] (doc.line bound)) = true ↔
      ∃ outer, doc.IsAround outer node ∧ p (doc.line bound outer) = true := by
  induction node using Nat.strongRecOn with
  | _ node ih =>
    cases hparent : doc.parent? node with
    | none =>
      refine iff_of_false (by simp [Selector.anySuffix, hp]) ?_
      rintro ⟨outer, haround, -⟩
      obtain ⟨parent, hfound, -⟩ := isAround_iff.1 haround
      rw [hparent] at hfound
      cases hfound
    | some parent =>
      have hlt := hl hparent
      have haround : ∀ {outer}, doc.IsAround outer node ↔
          outer = parent ∨ doc.IsAround outer parent := by
        intro outer
        rw [isAround_iff, hparent]
        simp
      simp only [Option.elim_some, haround, or_and_right, exists_or, exists_eq_left]
      cases he : doc.element? parent with
      | none =>
        -- the line ends here, and there is nothing further out
        rw [line_of_element?_eq_none he]
        refine iff_of_false (by simp [Selector.anySuffix, hp]) ?_
        rintro (hfirst | ⟨outer, hout, -⟩)
        · rw [hp] at hfirst
          cases hfirst
        · obtain ⟨above, habove, -⟩ := isAround_iff.1 hout
          rw [ht hparent he] at habove
          cases habove
      | some element =>
        have hline := line_eq hl (hlt.trans hb) he
        rw [hline, Selector.anySuffix, Bool.or_eq_true, ← hline, ih parent hlt (hlt.trans hb)]

/-- A selector holds for the line of a node exactly if its compounds can be placed, the last one on
the node. -/
theorem holds_line_iff (selector : Selector) (hb : node < bound) :
    selector.holds (doc.line bound node) = true ↔
      ∃ nodes, doc.Places (selector.compounds.map fun c element => c.holds element = true)
        selector.combinators nodes ∧ nodes.getLast? = some node := by
  induction selector generalizing node with
  | compound c =>
    rw [Selector.compounds, Selector.combinators, List.map_singleton, exists_places_singleton_iff]
    cases he : doc.element? node with
    | none =>
      rw [line_of_element?_eq_none he]
      simp
    | some element =>
      rw [line_eq hl hb he]
      simp [Selector.holds]
  | under outer combinator c ih =>
    rw [Selector.compounds, Selector.combinators, List.map_append, List.map_singleton,
      exists_places_concat_iff (by rw [List.length_map, outer.length_compounds])]
    cases he : doc.element? node with
    | none =>
      rw [line_of_element?_eq_none he]
      simp
    | some element =>
      rw [line_eq hl hb he]
      simp only [Option.some.injEq, exists_eq_left']
      cases combinator with
      | child =>
        rw [Selector.holds, Bool.and_eq_true]
        refine and_congr_right fun _ => ?_
        cases hparent : doc.parent? node with
        | none => simp [Joins, hparent]
        | some parent => simp [Joins, hparent, ih ((hl hparent).trans hb)]
      | descendant =>
        rw [Selector.holds, Bool.and_eq_true, anySuffix_parent_iff hl ht outer.holds_nil hb]
        refine and_congr_right fun _ => exists_congr fun around => and_congr_right fun haround => ?_
        exact ih ((lt_of_isAround hl haround).trans hb)

end

section
variable {source : Text} (h : parse source = .ok doc)
include h

theorem parent?_root : doc.parent? root = none := by
  obtain ⟨tokens, -, rfl⟩ := parse_eq_ok_iff.1 h
  rfl

/-- In a document that was read, a node with children is the root or an element. -/
theorem exists_element_of_parent? (hp : doc.parent? node = some outer) :
    outer = root ∨ ∃ element, doc.element? outer = some element := by
  have hrooted := rooted_of_parse h
  have hchild := hrooted.child hp
  obtain ⟨n, hn⟩ := exists_getElem? (lt_size_of_mem_children hchild)
  have hdata := data?_of_getElem? hn
  cases hkind : n.data with
  | document => exact .inl (hrooted.onlyRoot (hkind ▸ hdata))
  | element e => exact .inr ⟨e, element?_eq_some_iff.2 (hkind ▸ hdata)⟩
  | leaf l =>
    rw [hkind] at hdata
    obtain ⟨tokens, -, rfl⟩ := parse_eq_ok_iff.1 h
    have hgrove := isGrove_ofForest (Forest.ofTokens tokens)
    have hid : outer ∈ (Grove.ofForest 1 (Forest.ofTokens tokens)).ids := by
      have hlt : outer < (ofForest (Forest.ofTokens tokens)).size := lt_size_of_data? hdata
      have hroot : outer ≠ root := by
        rintro rfl
        rw [hgrove.rootData] at hdata
        cases hdata
      rw [size_ofForest] at hlt
      rw [Grove.ids_ofForest, List.mem_range'_1]
      exact ⟨Nat.pos_of_ne_zero hroot, by omega⟩
    rw [hgrove.stands.children_of_leaf hid hdata] at hchild
    cases hchild

theorem parent?_of_element?_eq_none (hp : doc.parent? node = some outer)
    (he : doc.element? outer = none) : doc.parent? outer = none := by
  rcases exists_element_of_parent? h hp with rfl | ⟨element, hsome⟩
  · exact parent?_root h
  · rw [he] at hsome
    cases hsome

theorem isMatch_iff (selector : Selector) : doc.isMatch selector node = true ↔
    ∃ nodes, doc.Places (selector.compounds.map fun c element => c.holds element = true)
      selector.combinators nodes ∧ nodes.getLast? = some node := by
  have hsize : doc.size ≤ doc.size * selector.length :=
    Nat.le_mul_of_pos_right _ selector.length_pos
  rw [isMatch, line_of_size_le (lt_of_parent? h) hsize (Nat.le_add_right doc.size (node + 1))]
  exact holds_line_iff (lt_of_parent? h) (parent?_of_element?_eq_none h) selector (by omega)

/-- In a document that was read, the search for a selector comes to an end within as many elements as
there are nodes, and finds what there is: a node matches exactly if the compounds of the selector can
be placed on elements, the last of them on the node. -/
theorem isMatch_iff_exists_places (selector : Selector) (node : NodeId) :
    (∀ bound, doc.size ≤ bound → doc.line bound node = doc.line doc.size node) ∧
      (doc.isMatch selector node = true ↔
        ∃ nodes, doc.Places (selector.compounds.map fun c element => c.holds element = true)
          selector.combinators nodes ∧ nodes.getLast? = some node) :=
  ⟨fun _ hb => line_of_size_le (lt_of_parent? h) hb le_rfl, isMatch_iff h selector⟩

end
end

/-- The element that has to be a child is not the nearest one of its kind. -/
theorem isMatch_iff_exists_places_outermost :
    let selector : Selector := .under (.under (.compound ⟨some ['a'], none, [], []⟩) .child
      ⟨some ['b'], none, [], []⟩) .descendant ⟨some ['i'], none, [], []⟩
    Selector.ofText? "a > b i".toList = some selector ∧
      ∃ doc, parse "<a><b><b><i></i></b></b></a>".toList = .ok doc ∧
        doc.Places (selector.compounds.map fun c element => c.holds element = true)
          selector.combinators [1, 2, 4] ∧ doc.isMatch selector 4 = true := by
  intro selector
  let doc := ofForest (.element ⟨['a'], [], false⟩ (.element ⟨['b'], [], false⟩
    (.element ⟨['b'], [], false⟩ (.element ⟨['i'], [], false⟩ .nil .nil) .nil) .nil) .nil)
  have h : parse "<a><b><b><i></i></b></b></a>".toList = .ok doc := by decide +kernel
  have hplaces : doc.Places (selector.compounds.map fun c element => c.holds element = true)
      selector.combinators [1, 2, 4] := by
    refine ⟨.cons ⟨_, rfl, by decide +kernel⟩ (.cons ⟨_, rfl, by decide +kernel⟩
      (.cons ⟨_, rfl, by decide +kernel⟩ .nil)), fun i combinator outer inner hc ho hi => ?_⟩
    match i with
    | 0 =>
      cases hc
      cases ho
      cases hi
      rfl
    | 1 =>
      cases hc
      cases ho
      cases hi
      exact .tail (.single (show doc.parent? 4 = some 3 from rfl)) rfl
    | i + 2 => cases hc
  obtain ⟨-, hmatch⟩ := isMatch_iff_exists_places h selector 4
  exact ⟨by decide +kernel, doc, h, hplaces, hmatch.2 ⟨_, hplaces, rfl⟩⟩

end Document
end MailTemplate
