import MailTemplate.Text.Basic
import Mathlib

/-! Texts as bytes. In UTF-8 a smaller character begins with the smaller bytes, and no character is the
beginning of another one, so texts are in the same order as their bytes. -/

namespace MailTemplate
namespace Text

/-- The bytes of a text in UTF-8. -/
def bytes (text : Text) : List UInt8 := text.flatMap String.utf8EncodeChar

section
variable {c d : Char} {first second : Text}

theorem bytes_cons (c : Char) (text : Text) :
    bytes (c :: text) = String.utf8EncodeChar c ++ bytes text := rfl

theorem ofNat_lt_ofNat_iff {a b : Nat} (ha : a < 256) (hb : b < 256) :
    UInt8.ofNat a < UInt8.ofNat b ↔ a < b := by
  rw [UInt8.lt_iff_toNat_lt, UInt8.toNat_ofNat_of_lt' ha, UInt8.toNat_ofNat_of_lt' hb]

theorem ofNat_eq_ofNat_iff {a b : Nat} (ha : a < 256) (hb : b < 256) :
    UInt8.ofNat a = UInt8.ofNat b ↔ a = b := by
  rw [← UInt8.toNat_inj, UInt8.toNat_ofNat_of_lt' ha, UInt8.toNat_ofNat_of_lt' hb]

/-- Of two characters the one with the smaller number has the smaller bytes, whatever comes behind. -/
theorem utf8EncodeChar_append_lt (h : c < d) (front back : List UInt8) :
    String.utf8EncodeChar c ++ front < String.utf8EncodeChar d ++ back := by
  have hlt : c.val.toNat < d.val.toNat := h
  have hmax : d.val.toNat < 1114112 := by
    rcases d.valid with h | h <;> omega
  unfold String.utf8EncodeChar
  generalize c.val.toNat = v at *
  generalize d.val.toNat = w at *
  -- Two numbers compare as what is left of them without the last digit, and then as that digit.
  have hdigit : ∀ {m n : Nat}, m < n → m / 64 < n / 64 ∨ m / 64 = n / 64 ∧ m % 64 < n % 64 := by
    intro m n hmn
    omega
  have hlast := hdigit hlt
  have hthird : v / 64 < w / 64 → _ := hdigit
  have hsecond : v / 4096 < w / 4096 → _ := hdigit
  simp only [Nat.div_div_eq_div_mul, Nat.reduceMul] at hthird hsecond
  dsimp only
  split_ifs <;>
    simp (disch := omega) only [List.cons_append, List.nil_append, List.cons_lt_cons_iff,
      ofNat_lt_ofNat_iff, ofNat_eq_ofNat_iff, Nat.mod_eq_of_lt] <;> omega

theorem bytes_lt_bytes_iff : bytes first < bytes second ↔ first < second := by
  have hlt : ∀ {first second : Text}, first < second → bytes first < bytes second := by
    intro first second h
    induction first generalizing second with
    | nil =>
      cases second with
      | nil => exact absurd h (List.lt_irrefl _)
      | cons d second =>
        obtain ⟨byte, rest, hbytes⟩ := List.exists_cons_of_ne_nil (String.utf8EncodeChar_ne_nil (c := d))
        rw [bytes_cons, hbytes]
        exact List.nil_lt_cons _ _
    | cons c first ih =>
      cases second with
      | nil => exact absurd h (List.not_lt_nil _)
      | cons d second =>
        rw [bytes_cons, bytes_cons]
        rcases List.cons_lt_cons_iff.1 h with hc | ⟨rfl, hrest⟩
        · exact utf8EncodeChar_append_lt hc _ _
        · exact List.append_left_lt (ih hrest)
  refine ⟨fun h => ?_, hlt⟩
  rcases lt_trichotomy first second with hf | rfl | hs
  · exact hf
  · exact absurd h (List.lt_irrefl _)
  · exact absurd h (List.lt_asymm (hlt hs))

end
end Text
end MailTemplate
