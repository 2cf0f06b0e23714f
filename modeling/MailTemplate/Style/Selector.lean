import MailTemplate.Markup.Document
import MailTemplate.Style.Split

/-! Selectors: type names, classes, ids and attributes, joined by descent and by parenthood. A text
that uses anything else is no selector here. -/

namespace MailTemplate

inductive Condition where
  | any
  | hasType (name : Text)
  | hasClass (name : Text)
  | hasId (name : Text)
  | hasAttribute (name : Text) (value : Option Text)
  deriving Repr, DecidableEq

structure Compound where
  type? : Option Text
  id? : Option Text
  classes : List Text
  attributes : List (Text × Option Text)
  deriving Repr, DecidableEq

/-- How an element has to stand to the one that the selector names before it. -/
inductive Combinator where
  | descendant
  | child
  deriving Repr, DecidableEq

/-- A selector for an element, alone or in the surroundings that an outer selector describes. -/
inductive Selector where
  | compound (compound : Compound)
  | under (outer : Selector) (combinator : Combinator) (compound : Compound)
  deriving Repr, DecidableEq

/-- How specific a selector is: its ids count first, then classes and attributes, then types. -/
structure Specificity where
  ids : Nat
  classes : Nat
  types : Nat
  deriving Repr, DecidableEq

namespace Specificity

/-- The order by which later rules win only over rules that are not more specific. -/
def le (s t : Specificity) : Bool :=
  s.ids < t.ids || (s.ids == t.ids &&
    (s.classes < t.classes || (s.classes == t.classes && s.types ≤ t.types)))

def max (s t : Specificity) : Specificity := if s.le t then t else s

def add (s t : Specificity) : Specificity :=
  ⟨s.ids + t.ids, s.classes + t.classes, s.types + t.types⟩

end Specificity

namespace Condition

def isNameChar (c : Char) : Bool := c.isAlphanum || c == '-' || c == '_'

/-- The name at the front of a text; none where it would be empty. -/
def name? (source : Text) : Option (Text × Text) :=
  match source.takeWhile isNameChar with
  | [] => none
  | name => some (name, source.dropWhile isNameChar)

def unquote (value : Text) : Text :=
  let isQuote (c : Char) : Bool := c == '"' || c == '\''
  Text.dropEndWhile isQuote ((Text.trim value).dropWhile isQuote)

def ofBrackets? (inner : Text) : Option Condition :=
  let (name, value) := match Text.cut? ['='] inner with
    | some (name, value) => (Text.trim name, some (unquote value))
    | none => (Text.trim inner, none)
  if name = [] ∨ !name.all isNameChar then none else some (hasAttribute name value)

/-- The condition at the front of a text. A type name can only come first. -/
def scan? (first : Bool) : Text → Option (Condition × Text)
  | '*' :: rest => some (any, rest)
  | '.' :: rest => (name? rest).map fun (name, rest) => (hasClass name, rest)
  | '#' :: rest => (name? rest).map fun (name, rest) => (hasId name, rest)
  | '[' :: rest => do
    let (inner, rest) ← Text.cut? [']'] rest
    let condition ← ofBrackets? inner
    return (condition, rest)
  | source =>
    if first then (name? source).map fun (name, rest) => (hasType (Text.lower name), rest) else none

theorem length_name?_lt {source name rest : Text} (h : name? source = some (name, rest)) :
    rest.length < source.length := by
  unfold name? at h
  split at h
  · cases h
  · next hn =>
    cases h
    have hs := congrArg List.length
      (List.takeWhile_append_dropWhile (p := isNameChar) (l := source))
    have hp := List.length_pos_iff.2 hn
    simp only [List.length_append] at hs
    omega

theorem length_scan?_lt {first : Bool} {source rest : Text} {condition : Condition}
    (h : scan? first source = some (condition, rest)) : rest.length < source.length := by
  unfold scan? at h
  split at h
  · cases h
    simp
  · obtain ⟨⟨n, r⟩, hn, he⟩ := Option.map_eq_some_iff.1 h
    cases he
    exact Nat.lt_succ_of_lt (length_name?_lt hn)
  · obtain ⟨⟨n, r⟩, hn, he⟩ := Option.map_eq_some_iff.1 h
    cases he
    exact Nat.lt_succ_of_lt (length_name?_lt hn)
  · simp only [Option.bind_eq_bind, Option.bind_eq_some_iff, Prod.exists] at h
    obtain ⟨inner, r, hc, condition, _, h⟩ := h
    cases h
    have hl := congrArg List.length (Text.eq_append_of_cut? hc)
    simp only [List.length_append, List.length_cons] at hl ⊢
    omega
  · split at h
    · obtain ⟨⟨n, r⟩, hn, he⟩ := Option.map_eq_some_iff.1 h
      cases he
      exact length_name?_lt hn
    · cases h

/-- The conditions up to white space, a combinator or the end of the text. -/
def scanAll? (first : Bool) (source : Text) : Option (List Condition × Text) :=
  match source with
  | [] => some ([], [])
  | c :: source =>
    if Text.isSpace c || c == '>' then some ([], c :: source)
    else match _ : scan? first (c :: source) with
      | none => none
      | some (condition, rest) =>
        (scanAll? false rest).map fun (conditions, rest) => (condition :: conditions, rest)
termination_by source.length
decreasing_by
  rename_i h
  exact length_scan?_lt h

theorem length_scanAll?_le {first : Bool} {source rest : Text} {conditions : List Condition}
    (h : scanAll? first source = some (conditions, rest)) : rest.length ≤ source.length := by
  fun_induction scanAll? first source generalizing conditions rest with
  | case1 => cases h; simp
  | case2 => cases h; simp
  | case3 => cases h
  | case4 first c source _ condition r hs ih =>
    obtain ⟨⟨cs, r'⟩, hr, he⟩ := Option.map_eq_some_iff.1 h
    cases he
    exact Nat.le_of_lt (Nat.lt_of_le_of_lt (ih hr) (length_scan?_lt hs))

theorem length_scanAll?_lt {first : Bool} {c : Char} {source rest : Text}
    {conditions : List Condition} (hc : (Text.isSpace c || c == '>') = false)
    (h : scanAll? first (c :: source) = some (conditions, rest)) :
    rest.length < (c :: source).length := by
  unfold scanAll? at h
  simp only [hc, Bool.false_eq_true, if_false] at h
  split at h
  · cases h
  · next hs =>
    obtain ⟨⟨cs, r'⟩, hr, he⟩ := Option.map_eq_some_iff.1 h
    cases he
    exact Nat.lt_of_le_of_lt (length_scanAll?_le hr) (length_scan?_lt hs)

end Condition

namespace Compound

def empty : Compound := ⟨none, none, [], []⟩

/-- One condition more. There is one place for a type and one for an id: the last id counts. -/
def add (compound : Compound) : Condition → Compound
  | .any => compound
  | .hasType name => { compound with type? := some name }
  | .hasClass name => { compound with classes := compound.classes ++ [name] }
  | .hasId name => { compound with id? := some name }
  | .hasAttribute name value =>
    { compound with attributes := compound.attributes ++ [(name, value)] }

def ofConditions (conditions : List Condition) : Compound := conditions.foldl add empty

def specificity (compound : Compound) : Specificity :=
  ⟨compound.id?.toList.length, compound.classes.length + compound.attributes.length,
    compound.type?.toList.length⟩

def holds (compound : Compound) (element : Element) : Bool :=
  compound.type?.all (Text.equalIgnoringCase element.name) &&
  compound.id?.all (fun id => element.id? == some id) &&
  compound.classes.all (element.classes.contains ·) &&
  compound.attributes.all fun (name, value) =>
    (element.attr? name).any fun actual => value.all (actual == ·)

end Compound

namespace Selector

def parts? (combinator : Combinator) (source : Text) : Option (List (Combinator × Compound)) :=
  match source with
  | [] => match combinator with
    | .child => none
    | .descendant => some []
  | c :: source =>
    if _ : Text.isSpace c then parts? combinator source
    else if _ : c = '>' then parts? .child source
    else match _ : Condition.scanAll? true (c :: source) with
      | none => none
      | some (conditions, rest) =>
        (parts? .descendant rest).map ((combinator, .ofConditions conditions) :: ·)
termination_by source.length
decreasing_by
  · exact Nat.lt_succ_self _
  · exact Nat.lt_succ_self _
  · rename_i hs hc h
    exact Condition.length_scanAll?_lt (by simp_all) h

/-- Compounds joined from left to right; what stands before the first one has no meaning. -/
def ofParts? : List (Combinator × Compound) → Option Selector
  | [] => none
  | (_, first) :: rest =>
    some (rest.foldl (fun outer (combinator, c) => .under outer combinator c) (.compound first))

def ofText? (text : Text) : Option Selector := (parts? .descendant text).bind ofParts?

def length : Selector → Nat
  | .compound _ => 1
  | .under outer _ _ => outer.length + 1

def specificity : Selector → Specificity
  | .compound c => c.specificity
  | .under outer _ c => outer.specificity.add c.specificity

def anySuffix {α : Type} (p : List α → Bool) : List α → Bool
  | [] => p []
  | a :: rest => p (a :: rest) || anySuffix p rest

/-- Whether a selector holds for the first element of a line, where each element is the parent of
the one before it. -/
def holds : Selector → List Element → Bool
  | _, [] => false
  | .compound c, element :: _ => c.holds element
  | .under outer .child c, element :: line => c.holds element && outer.holds line
  | .under outer .descendant c, element :: line => c.holds element && anySuffix outer.holds line

end Selector

namespace Document

/-- An element and the elements around it, from the inside out, up to the first node that is no
element; cut at `bound` elements. -/
def line (doc : Document) : Nat → NodeId → List Element
  | 0, _ => []
  | bound + 1, node => match doc.element? node with
    | none => []
    | some element => element :: (doc.parent? node).elim [] (doc.line bound)

def isMatch (doc : Document) (selector : Selector) (node : NodeId) : Bool :=
  selector.holds (doc.line (doc.size * selector.length) node)

end Document
end MailTemplate
