import MailTemplate.Text.Basic

/-! Patterns: how a lexical item is written, and how one is recognised at the front of a text.
A text falls in exactly one way into the leftmost matches of a pattern and the single characters
between them; searching and replacing are functions of these pieces. -/

namespace MailTemplate

/-- A kind of lexical item. What is recognised is exactly what is written, and it is never empty. -/
structure Pattern (α : Type) where
  text : α → Text
  match? : Text → Option (α × Text)
  exact : ∀ {source item rest}, match? source = some (item, rest) → source = text item ++ rest
  text_ne_nil : ∀ {source item rest}, match? source = some (item, rest) → text item ≠ []

/-- A part of a text: an item of the pattern, or a character that begins none. -/
inductive Piece (α : Type) where
  | char (c : Char)
  | item (a : α)
  deriving Repr, DecidableEq

namespace Piece

def item? {α : Type} : Piece α → Option α
  | char _ => none
  | item a => some a

end Piece

namespace Pattern

variable {α : Type} (pattern : Pattern α)

theorem length_lt_of_match? {source rest : Text} {item : α}
    (h : pattern.match? source = some (item, rest)) : rest.length < source.length := by
  have hpos := List.length_pos_iff.2 (pattern.text_ne_nil h)
  rw [pattern.exact h, List.length_append]
  omega

def pieceText : Piece α → Text
  | .char c => [c]
  | .item a => pattern.text a

def pieces : Text → List (Piece α)
  | [] => []
  | c :: rest => match _ : pattern.match? (c :: rest) with
    | some (item, after) => .item item :: pieces after
    | none => .char c :: pieces rest
termination_by source => source.length
decreasing_by
  · exact pattern.length_lt_of_match? ‹_›
  · exact Nat.lt_succ_self _

@[simp] theorem pieces_nil : pattern.pieces [] = [] := by rw [pieces]

theorem pieces_of_match? {source rest : Text} {item : α}
    (h : pattern.match? source = some (item, rest)) :
    pattern.pieces source = .item item :: pattern.pieces rest := by
  cases source with
  | nil => exact absurd (pattern.length_lt_of_match? h) (by simp)
  | cons c source =>
    rw [pieces]
    split <;> simp_all

theorem pieces_cons_of_match?_eq_none {c : Char} {rest : Text}
    (h : pattern.match? (c :: rest) = none) :
    pattern.pieces (c :: rest) = .char c :: pattern.pieces rest := by
  rw [pieces]
  split <;> simp_all

theorem flatMap_pieceText_pieces (source : Text) :
    (pattern.pieces source).flatMap pattern.pieceText = source := by
  induction h : source.length using Nat.strongRecOn generalizing source with
  | _ n ih =>
    subst h
    cases hm : pattern.match? source with
    | some p =>
      obtain ⟨item, rest⟩ := p
      rw [pattern.pieces_of_match? hm, List.flatMap_cons,
        ih _ (pattern.length_lt_of_match? hm) rest rfl]
      exact (pattern.exact hm).symm
    | none =>
      cases source with
      | nil => simp
      | cons c rest =>
        rw [pattern.pieces_cons_of_match?_eq_none hm, List.flatMap_cons, ih _ (by simp) rest rfl]
        rfl

theorem match?_of_mem_pieces {source : Text} {item : α} (h : .item item ∈ pattern.pieces source) :
    ∃ part rest, part <:+ source ∧ pattern.match? part = some (item, rest) := by
  induction hl : source.length using Nat.strongRecOn generalizing source with
  | _ n ih =>
    subst hl
    cases hm : pattern.match? source with
    | some p =>
      obtain ⟨first, rest⟩ := p
      rw [pattern.pieces_of_match? hm, List.mem_cons] at h
      rcases h with h | h
      · cases h
        exact ⟨source, rest, List.suffix_rfl, hm⟩
      · obtain ⟨part, after, hp, ha⟩ := ih _ (pattern.length_lt_of_match? hm) h rfl
        refine ⟨part, after, hp.trans ?_, ha⟩
        rw [pattern.exact hm]
        exact List.suffix_append _ _
    | none =>
      cases source with
      | nil => simp at h
      | cons c rest =>
        rw [pattern.pieces_cons_of_match?_eq_none hm, List.mem_cons] at h
        rcases h with h | h
        · cases h
        · obtain ⟨part, after, hp, ha⟩ := ih _ (Nat.lt_succ_self _) h rfl
          exact ⟨part, after, hp.trans (List.suffix_cons _ _), ha⟩

def items (source : Text) : List α := (pattern.pieces source).filterMap Piece.item?

def replace (f : α → Text) (source : Text) : Text :=
  (pattern.pieces source).flatMap fun
    | .char c => [c]
    | .item a => f a

theorem replace_eq_self {f : α → Text} {source : Text}
    (h : ∀ item, .item item ∈ pattern.pieces source → f item = pattern.text item) :
    pattern.replace f source = source := by
  conv => rhs; rw [← pattern.flatMap_pieceText_pieces source]
  unfold replace
  rw [List.flatMap_def, List.flatMap_def]
  refine congrArg List.flatten (List.map_congr_left fun piece hp => ?_)
  cases piece with
  | char c => rfl
  | item a => exact h a hp

def first? : Text → Option (Text × α × Text)
  | [] => none
  | c :: source => match pattern.match? (c :: source) with
    | some (item, rest) => some ([], item, rest)
    | none => (first? source).map fun (before, item, rest) => (c :: before, item, rest)

theorem eq_append_of_first? {source before rest : Text} {item : α}
    (h : pattern.first? source = some (before, item, rest)) :
    source = before ++ pattern.text item ++ rest := by
  induction source generalizing before with
  | nil => simp [first?] at h
  | cons c source ih =>
    simp only [first?] at h
    split at h
    · next hm =>
      cases h
      simpa using pattern.exact hm
    · obtain ⟨⟨b, i, r⟩, hb, hr⟩ := Option.map_eq_some_iff.1 h
      cases hr
      simp [ih hb]

def removeFirst (source : Text) : Text :=
  match pattern.first? source with
  | some (before, _, rest) => before ++ rest
  | none => source

/-- The matches that satisfy `p`; where the pattern finds another one, nothing is found. -/
def filter (p : α → Bool) : Pattern α where
  text := pattern.text
  match? source := (pattern.match? source).filter (p ·.1)
  exact h := pattern.exact (Option.filter_eq_some_iff.1 h).1
  text_ne_nil h := pattern.text_ne_nil (Option.filter_eq_some_iff.1 h).1

end Pattern
end MailTemplate
