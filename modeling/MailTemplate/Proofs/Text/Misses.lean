import MailTemplate.Proofs.Text.Pieces

/-! Texts in which a pattern finds nothing, whatever comes after them. Such a text stays what it is
when the pattern takes a longer text apart, so that the matches of a longer text can be told part by
part. -/

namespace MailTemplate
namespace Pattern

section
variable {α : Type} {pattern : Pattern α} {text other : Text}

def Misses (pattern : Pattern α) (text : Text) : Prop :=
  ∀ part rest, part <:+ text → part ≠ [] → pattern.match? (part ++ rest) = none

theorem misses_nil : pattern.Misses [] := by
  intro part rest hp hn
  exact absurd (List.suffix_nil.1 hp) hn

theorem Misses.of_suffix (h : pattern.Misses text) (ho : other <:+ text) : pattern.Misses other :=
  fun part rest hp hn => h part rest (hp.trans ho) hn

theorem misses_cons_iff {c : Char} : pattern.Misses (c :: text) ↔
    (∀ rest, pattern.match? (c :: text ++ rest) = none) ∧ pattern.Misses text := by
  constructor
  · intro h
    exact ⟨fun rest => h _ rest List.suffix_rfl (List.cons_ne_nil _ _),
      h.of_suffix (List.suffix_cons _ _)⟩
  · rintro ⟨hc, h⟩ part rest hp hn
    rcases List.suffix_cons_iff.1 hp with rfl | hp
    · exact hc rest
    · exact h part rest hp hn

theorem Misses.append (h : pattern.Misses text) (ho : pattern.Misses other) :
    pattern.Misses (text ++ other) := by
  induction text with
  | nil => exact ho
  | cons c text ih =>
    obtain ⟨hc, h⟩ := misses_cons_iff.1 h
    refine misses_cons_iff.2 ⟨fun rest => ?_, ih h⟩
    simpa using hc (other ++ rest)

theorem misses_of_notMem {c : Char} (hc : ∀ d rest, d ≠ c → pattern.match? (d :: rest) = none)
    (h : c ∉ text) : pattern.Misses text := by
  induction text with
  | nil => exact misses_nil
  | cons d text ih =>
    rw [List.mem_cons, not_or] at h
    exact misses_cons_iff.2 ⟨fun rest => hc d _ (Ne.symm h.1), ih h.2⟩

theorem Misses.filter (h : pattern.Misses text) (p : α → Bool) : (pattern.filter p).Misses text := by
  intro part rest hp hn
  simp [Pattern.filter, h part rest hp hn]

theorem pieces_append_of_misses (h : pattern.Misses text) (rest : Text) :
    pattern.pieces (text ++ rest) = text.map .char ++ pattern.pieces rest := by
  induction text with
  | nil => rfl
  | cons c text ih =>
    obtain ⟨hc, h⟩ := misses_cons_iff.1 h
    have hnone : pattern.match? (c :: (text ++ rest)) = none := hc rest
    simp [pattern.pieces_cons_of_match?_eq_none hnone, ih h]

theorem first?_append_of_misses (h : pattern.Misses text) (rest : Text) :
    pattern.first? (text ++ rest) =
      (pattern.first? rest).map fun (before, item, after) => (text ++ before, item, after) := by
  induction text with
  | nil => simp
  | cons c text ih =>
    obtain ⟨hc, h⟩ := misses_cons_iff.1 h
    have hnone : pattern.match? (c :: (text ++ rest)) = none := hc rest
    simp only [List.cons_append, first?, hnone, ih h, Option.map_map]
    rfl

/-- The first match of a text that a pattern misses and of what it finds next is that match. -/
theorem first?_append_of_match? {rest after : Text} {item : α} (h : pattern.Misses text)
    (hm : pattern.match? rest = some (item, after)) :
    pattern.first? (text ++ rest) = some (text, item, after) := by
  rw [first?_append_of_misses h]
  cases rest with
  | nil => exact absurd (pattern.length_lt_of_match? hm) (by simp)
  | cons c rest => simp [first?, hm]

theorem items_append_of_misses (h : pattern.Misses text) (rest : Text) :
    pattern.items (text ++ rest) = pattern.items rest := by
  have hchars : (text.map Piece.char).filterMap (Piece.item? (α := α)) = [] := by
    simp [List.filterMap_eq_nil_iff, Piece.item?]
  rw [items, pieces_append_of_misses h, List.filterMap_append, hchars]
  rfl

theorem items_of_match? {source rest : Text} {item : α}
    (h : pattern.match? source = some (item, rest)) :
    pattern.items source = item :: pattern.items rest := by
  rw [items, pattern.pieces_of_match? h]
  rfl

variable (f : α → Text)

end
end Pattern
end MailTemplate
