import MailTemplate.Text.Pattern
import Mathlib.Data.List.Infix

/-! What the pieces of a text hold, and what a text holds once pieces of it are replaced. -/

namespace MailTemplate
namespace Pattern

section
variable {α : Type} {pattern : Pattern α} {source : Text} {c : Char}

theorem mem_of_char_mem_pieces (h : .char c ∈ pattern.pieces source) : c ∈ source := by
  rw [← pattern.flatMap_pieceText_pieces source]
  exact List.mem_flatMap.2 ⟨_, h, List.mem_singleton.2 rfl⟩

theorem infix_of_mem_pieces {item : α} (h : .item item ∈ pattern.pieces source) :
    pattern.text item <:+: source := by
  obtain ⟨part, rest, hpart, hmatch⟩ := pattern.match?_of_mem_pieces h
  rw [pattern.exact hmatch] at hpart
  exact (List.prefix_append _ _).isInfix.trans hpart.isInfix

theorem mem_items {item : α} : item ∈ pattern.items source ↔ .item item ∈ pattern.pieces source := by
  rw [items, List.mem_filterMap]
  constructor
  · rintro ⟨piece, hpiece, hitem⟩
    cases piece with
    | char c => cases hitem
    | item found =>
      cases hitem
      exact hpiece
  · intro h
    exact ⟨_, h, rfl⟩

theorem infix_of_mem_items {item : α} (h : item ∈ pattern.items source) :
    pattern.text item <:+: source := infix_of_mem_pieces (mem_items.1 h)

/-- A piece of a text, or what is given for it if it is an item. -/
def fill (given : α → Text) : Piece α → Text
  | .char c => [c]
  | .item item => given item

theorem replace_eq_flatMap (given : α → Text) (source : Text) :
    pattern.replace given source = (pattern.pieces source).flatMap (fill given) := rfl

theorem mem_replace {f : α → Text} (h : c ∈ pattern.replace f source) :
    c ∈ source ∨ ∃ item ∈ pattern.items source, c ∈ f item := by
  rw [replace_eq_flatMap] at h
  obtain ⟨piece, hpiece, hc⟩ := List.mem_flatMap.1 h
  cases piece with
  | char d =>
    rw [List.mem_singleton.1 hc]
    exact .inl (mem_of_char_mem_pieces hpiece)
  | item item => exact .inr ⟨item, mem_items.2 hpiece, hc⟩

theorem mem_of_mem_removeFirst (h : c ∈ pattern.removeFirst source) : c ∈ source := by
  unfold removeFirst at h
  split at h
  · next before item rest hf =>
    rw [pattern.eq_append_of_first? hf]
    rcases List.mem_append.1 h with h | h
    · exact List.mem_append_left _ (List.mem_append_left _ h)
    · exact List.mem_append_right _ h
  · exact h

theorem pieces_of_first?_eq_none (h : pattern.first? source = none) :
    pattern.pieces source = source.map .char := by
  induction source with
  | nil => exact pattern.pieces_nil
  | cons c source ih =>
    rw [first?] at h
    cases hm : pattern.match? (c :: source) with
    | some found =>
      rw [hm] at h
      cases h
    | none =>
      rw [hm] at h
      rw [pattern.pieces_cons_of_match?_eq_none hm, ih (Option.map_eq_none_iff.1 h), List.map_cons]

end
end Pattern
end MailTemplate
