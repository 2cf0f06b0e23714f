import MailTemplate.Text.Basic
import Mathlib.Data.List.Infix
import Mathlib.Data.List.TakeWhile

/-! Where a text is cut: at the first place of a mark, or behind the longest run of characters of a
kind. A text that holds no mark, followed by one, is cut between the two, provided that the mark
does not overlap itself. -/

namespace MailTemplate
namespace Text

section
variable {mark text before rest : Text}

theorem after?_eq_none_iff : after? mark text = none ↔ ¬ mark <+: text := by
  constructor
  · rintro h ⟨r, rfl⟩
    simp at h
  · intro h
    cases ha : after? mark text with
    | none => rfl
    | some r => exact absurd ⟨r, (after?_eq_some_iff.1 ha).symm⟩ h

theorem cut?_cons_here {c : Char} (h : c :: text = mark ++ rest) :
    cut? mark (c :: text) = some ([], rest) := by
  have ha : after? mark (c :: text) = some rest := after?_eq_some_iff.2 h
  simp [cut?, ha]

theorem cut?_cons_later {c : Char} (h : ¬ mark <+: c :: text) :
    cut? mark (c :: text) = (cut? mark text).map fun (before, rest) => (c :: before, rest) := by
  have ha : after? mark (c :: text) = none := after?_eq_none_iff.2 h
  simp [cut?, ha]

theorem cut?_eq_none_iff (hm : mark ≠ []) : cut? mark text = none ↔ ¬ mark <:+: text := by
  induction text with
  | nil => simp [cut?, hm]
  | cons c text ih =>
    by_cases hp : mark <+: c :: text
    · obtain ⟨r, hr⟩ := hp
      have hc := cut?_cons_here hr.symm
      have hi : mark <:+: c :: text := ⟨[], r, hr⟩
      simp [hc, hi]
    · rw [cut?_cons_later hp, Option.map_eq_none_iff, ih, List.infix_cons_iff, not_or]
      exact ⟨fun h => ⟨hp, h⟩, fun h => h.2⟩

theorem not_infix_of_cut? (hm : mark ≠ []) (h : cut? mark text = some (before, rest)) :
    ¬ mark <:+: before := by
  induction text generalizing before with
  | nil =>
    simp only [cut?, hm, if_false] at h
    cases h
  | cons c text ih =>
    by_cases hp : mark <+: c :: text
    · obtain ⟨r, hr⟩ := hp
      rw [cut?_cons_here hr.symm] at h
      cases h
      simpa using hm
    · rw [cut?_cons_later hp] at h
      obtain ⟨⟨b, r⟩, hb, he⟩ := Option.map_eq_some_iff.1 h
      cases he
      rw [List.infix_cons_iff, not_or]
      refine ⟨fun hi => hp (hi.trans ?_), ih hb⟩
      rw [eq_append_of_cut? hb, List.append_assoc]
      exact List.cons_prefix_cons.2 ⟨rfl, List.prefix_append _ _⟩

def Unbordered (mark : Text) : Prop := ∀ k < mark.length, 0 < k → ¬ mark.drop k <+: mark

instance (mark : Text) : Decidable (Unbordered mark) :=
  inferInstanceAs (Decidable (∀ k < mark.length, 0 < k → ¬ mark.drop k <+: mark))

theorem unbordered_singleton (c : Char) : Unbordered [c] := by
  intro k hk hp
  simp only [List.length_singleton] at hk
  omega

theorem not_prefix_of_unbordered (hu : Unbordered mark) (hn : before ≠ [])
    (h : ¬ mark <+: before) : ¬ mark <+: before ++ (mark ++ rest) := by
  intro hp
  have hb : before <+: before ++ (mark ++ rest) := List.prefix_append _ _
  by_cases hl : mark.length ≤ before.length
  · exact h (List.prefix_of_prefix_length_le hp hb hl)
  · have hlt : before.length < mark.length := Nat.lt_of_not_le hl
    obtain ⟨tail, rfl⟩ := List.prefix_of_prefix_length_le hb hp (Nat.le_of_lt hlt)
    have ht : tail <+: before ++ tail ++ rest := (List.prefix_append_right_inj before).1 hp
    have hd : (before ++ tail).drop before.length = tail := List.drop_left
    refine hu before.length hlt (List.length_pos_iff.2 hn) ?_
    rw [hd]
    exact List.prefix_of_prefix_length_le ht (List.prefix_append _ _) (by simp)

theorem cut?_append (rest : Text) (hu : Unbordered mark) (h : ¬ mark <:+: before) :
    cut? mark (before ++ mark ++ rest) = some (before, rest) := by
  rw [List.append_assoc]
  induction before with
  | nil =>
    cases mark with
    | nil => simp at h
    | cons m mark => exact cut?_cons_here rfl
  | cons c before ih =>
    rw [List.infix_cons_iff, not_or] at h
    have hp : ¬ mark <+: c :: (before ++ (mark ++ rest)) :=
      not_prefix_of_unbordered hu (List.cons_ne_nil c before) h.1
    rw [List.cons_append, cut?_cons_later hp, ih h.2]
    rfl

theorem cut?_append_congr (hm : mark ≠ [])
    (h : cut? mark (before ++ mark ++ rest) = some (before, rest)) (other : Text) :
    cut? mark (before ++ mark ++ other) = some (before, other) := by
  induction before with
  | nil =>
    obtain ⟨m, mark, rfl⟩ := List.exists_cons_of_ne_nil hm
    exact cut?_cons_here rfl
  | cons c before ih =>
    have hp : ¬ mark <+: c :: (before ++ mark ++ rest) := by
      rintro ⟨after, ha⟩
      have hc := cut?_cons_here ha.symm
      rw [List.cons_append, List.cons_append, hc] at h
      exact absurd (Prod.mk.inj (Option.some.inj h)).1.symm (List.cons_ne_nil _ _)
    have hp' : ¬ mark <+: c :: (before ++ mark ++ other) := by
      intro hp'
      have hfront : mark <+: c :: (before ++ mark) := by
        refine List.prefix_of_prefix_length_le hp' ?_ ?_
        · exact List.cons_prefix_cons.2 ⟨rfl, List.prefix_append _ _⟩
        · simp only [List.length_cons, List.length_append]
          omega
      exact hp (hfront.trans (List.cons_prefix_cons.2 ⟨rfl, List.prefix_append _ _⟩))
    rw [List.cons_append, List.cons_append, cut?_cons_later hp, Option.map_eq_some_iff] at h
    obtain ⟨⟨b, r⟩, hcut, he⟩ := h
    have hb : b = before := (List.cons.inj (Prod.mk.inj he).1).2
    have hr : r = rest := (Prod.mk.inj he).2
    rw [hb, hr] at hcut
    rw [List.cons_append, List.cons_append, cut?_cons_later hp', ih hcut]
    rfl

theorem infix_of_infix_append {c : Char} (h : c ∉ before) (hi : c :: mark <:+: before ++ rest) :
    c :: mark <:+: rest := by
  induction before with
  | nil => exact hi
  | cons d before ih =>
    rw [List.mem_cons, not_or] at h
    rcases List.infix_cons_iff.1 hi with hp | hi
    · exact absurd (List.cons_prefix_cons.1 hp).1 h.1
    · exact ih h.2 hi

/-- A text that goes on with a character that its front does not hold has that front before it. -/
theorem exists_append_of_notMem {c : Char} {back after : Text} (h : c ∉ before)
    (he : before ++ back = text ++ c :: after) :
    ∃ inner, text = before ++ inner ∧ back = inner ++ c :: after := by
  rcases List.append_eq_append_iff.1 he with ⟨inner, ht, hb⟩ | ⟨inner, hb, hc⟩
  · exact ⟨inner, ht, hb⟩
  · cases inner with
    | nil => exact ⟨[], by rw [hb, List.append_nil, List.append_nil], hc.symm⟩
    | cons d inner =>
      obtain rfl : c = d := (List.cons.inj hc).1
      exact absurd (hb ▸ List.mem_append_right _ List.mem_cons_self) h

theorem cut?_singleton_append {c : Char} (rest : Text) (h : c ∉ before) :
    cut? [c] (before ++ c :: rest) = some (before, rest) := by
  have hc : ¬ [c] <:+: before := by rwa [List.singleton_infix_iff]
  have hs := cut?_append rest (unbordered_singleton c) hc
  simpa using hs

end

section
variable {p : Char → Bool} {run rest : Text}

theorem takeWhile_run (hr : ∀ c ∈ run, p c = true) (hn : ∀ c ∈ rest.head?, p c = false) :
    (run ++ rest).takeWhile p = run := by
  rw [List.takeWhile_append_of_pos hr]
  cases rest with
  | nil => simp
  | cons c rest =>
    have hc := hn c rfl
    rw [List.takeWhile_cons_of_neg (by simp [hc]), List.append_nil]

theorem dropWhile_run (hr : ∀ c ∈ run, p c = true) (hn : ∀ c ∈ rest.head?, p c = false) :
    (run ++ rest).dropWhile p = rest := by
  rw [List.dropWhile_append_of_pos hr]
  cases rest with
  | nil => rfl
  | cons c rest =>
    have hc := hn c rfl
    rw [List.dropWhile_cons_of_neg (by simp [hc])]

/-- A run that is taken off a text is taken off every other one that goes on with the same character
behind it. -/
theorem run_append_congr {source other : Text} (p : Char → Bool)
    (h : other.head? = (source.dropWhile p).head?) :
    (source.takeWhile p ++ other).takeWhile p = source.takeWhile p ∧
      (source.takeWhile p ++ other).dropWhile p = other := by
  have hr : ∀ c ∈ source.takeWhile p, p c = true := fun c hc => List.mem_takeWhile_imp hc
  have hn : ∀ c ∈ other.head?, p c = false := by
    intro c hc
    have hhead := List.head?_dropWhile_not p source
    rw [← h, hc] at hhead
    exact hhead
  exact ⟨takeWhile_run hr hn, dropWhile_run hr hn⟩

theorem dropSpace_append_congr {source other : Text}
    (h : other.head? = (dropSpace source).head?) : dropSpace (spaceOf source ++ other) = other :=
  (run_append_congr isSpace h).2

theorem head?_append_congr (before : Text) {other : Text} (h : other.head? = rest.head?) :
    (before ++ other).head? = (before ++ rest).head? := by
  rw [List.head?_append, List.head?_append, h]

theorem isSpace_of_dropSpace {text : Text} {c : Char} (h : dropSpace text = c :: rest) :
    isSpace c = false := by
  have hhead := List.head?_dropWhile_not isSpace text
  rw [← dropSpace, h, List.head?_cons] at hhead
  exact hhead

end
end Text
end MailTemplate
