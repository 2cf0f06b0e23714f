import MailTemplate.Text.Basic
import Mathlib

/-! Lower case. Folding a text changes letters into letters and nothing else, so it leaves every kind
of character alone that does not tell letters apart. -/

namespace MailTemplate
namespace Text

@[simp] theorem lower_nil : lower [] = [] := rfl

@[simp] theorem lower_cons (c : Char) (text : Text) : lower (c :: text) = c.toLower :: lower text :=
  rfl

theorem lower_lower (text : Text) : lower (lower text) = lower text := by simp [lower]

theorem toLower_eq_or (c : Char) : c.toLower = c ∨ c.isAlpha = true ∧ c.toLower.isAlpha = true := by
  by_cases hu : c.isUpper
  · have ha : c.isAlpha = true := by simp [Char.isAlpha, hu]
    exact .inr ⟨ha, by rw [Char.isAlpha_toLower_eq_isAlpha, ha]⟩
  · exact .inl (Char.toLower_eq_of_not_isUpper hu)

theorem apply_toLower {p : Char → Bool} {b : Bool} (h : ∀ c : Char, c.isAlpha = true → p c = b)
    (c : Char) : p c.toLower = p c := by
  rcases toLower_eq_or c with he | ⟨ha, hl⟩
  · rw [he]
  · rw [h _ ha, h _ hl]

theorem toLower_beq {d : Char} (hd : d.isAlpha = false) (c : Char) : (c.toLower == d) = (c == d) :=
  apply_toLower (p := (· == d)) (b := false)
    (fun c hc => beq_eq_false_iff_ne.2 fun he => by rw [he, hd] at hc; cases hc) c

theorem toLower_eq_iff {c d : Char} (hd : d.isAlpha = false) : c.toLower = d ↔ c = d := by
  rw [← beq_iff_eq (a := c.toLower), toLower_beq hd, beq_iff_eq]

theorem mem_lower_iff {d : Char} (hd : d.isAlpha = false) {text : Text} :
    d ∈ lower text ↔ d ∈ text := by
  simp only [lower, List.mem_map, toLower_eq_iff hd, exists_eq_right]

theorem toNat_lt_of_isAlpha {c : Char} (h : c.isAlpha = true) :
    65 ≤ c.toNat ∧ c.toNat < 123 := by
  simp only [Char.isAlpha, Char.isUpper, Char.isLower, Bool.or_eq_true, Bool.and_eq_true,
    decide_eq_true_eq, UInt32.le_iff_toNat_le, ge_iff_le] at h
  have h1 : c.toNat = c.val.toNat := rfl
  have h2 : 'A'.val.toNat = 65 := rfl
  have h3 : 'Z'.val.toNat = 90 := rfl
  have h4 : 'a'.val.toNat = 97 := rfl
  have h5 : 'z'.val.toNat = 122 := rfl
  omega

theorem isSpace_of_isAlpha {c : Char} (h : c.isAlpha = true) : isSpace c = false := by
  obtain ⟨hl, hu⟩ := toNat_lt_of_isAlpha h
  simp only [isSpace, Bool.or_eq_false_iff, Bool.and_eq_false_iff, decide_eq_false_iff_not,
    beq_eq_false_iff_ne]
  omega

theorem toNat_lt_of_isDigit {c : Char} (h : c.isDigit = true) : 48 ≤ c.toNat ∧ c.toNat < 58 := by
  simp only [Char.isDigit, Bool.and_eq_true, decide_eq_true_eq, UInt32.le_iff_toNat_le,
    ge_iff_le] at h
  have h1 : c.toNat = c.val.toNat := rfl
  have h2 : '0'.val.toNat = 48 := rfl
  have h3 : '9'.val.toNat = 57 := rfl
  omega

theorem toLower_of_isDigit {c : Char} (h : c.isDigit = true) : c.toLower = c := by
  rcases toLower_eq_or c with he | ⟨ha, -⟩
  · exact he
  · have hd := toNat_lt_of_isDigit h
    have hl := toNat_lt_of_isAlpha ha
    omega

theorem isSpace_of_isDigit {c : Char} (h : c.isDigit = true) : isSpace c = false := by
  obtain ⟨hl, hu⟩ := toNat_lt_of_isDigit h
  simp only [isSpace, Bool.or_eq_false_iff, Bool.and_eq_false_iff, decide_eq_false_iff_not,
    beq_eq_false_iff_ne]
  omega

end Text
end MailTemplate
