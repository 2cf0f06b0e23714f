import MailTemplate.Proofs.Style.EscapedParts

/-! How far a scan is inside strings and parentheses. Characters without a meaning for it only end the
effect of a backslash, so what is said of a text holds for it in lower case and, up to that effect,
without the white space at its ends. A part of a split text is not split any further by itself. -/

namespace MailTemplate
namespace Nesting

/-- Without the effect of a backslash just before. -/
def settled (nesting : Nesting) : Nesting := { nesting with escaped := false }

/-- A scan is inside of a string in one kind of quotation marks or the other, if in any. -/
def IsSound (nesting : Nesting) : Prop := ∀ quote ∈ nesting.quote, quote = '"' ∨ quote = '\''

def IsNeutral (c : Char) : Prop := c ≠ '\\' ∧ c ≠ '"' ∧ c ≠ '\'' ∧ c ≠ '(' ∧ c ≠ ')'

instance (c : Char) : Decidable (IsNeutral c) :=
  inferInstanceAs (Decidable (c ≠ '\\' ∧ c ≠ '"' ∧ c ≠ '\'' ∧ c ≠ '(' ∧ c ≠ ')'))

section
variable {nesting : Nesting} {c : Char} {text space : Text}

theorem isSound_outside : IsSound outside := by
  intro quote hq
  cases hq

theorem IsSound.settled (h : nesting.IsSound) : nesting.settled.IsSound := h

theorem IsSound.step (h : nesting.IsSound) (c : Char) : (nesting.step c).IsSound := by
  obtain ⟨depth, quote, escaped⟩ := nesting
  intro found hf
  cases escaped with
  | true => exact h found (by simpa [Nesting.step] using hf)
  | false =>
    cases quote with
    | some quote =>
      refine h found ?_
      by_cases hb : c = '\\'
      · simpa [Nesting.step, hb] using hf
      · by_cases hq : c = quote <;> simp_all [Nesting.step]
    | none =>
      by_cases hb : c = '\\'
      · simp [Nesting.step, hb] at hf
      · by_cases hq : c = '"' ∨ c = '\''
        · have hfound : c = found := by simpa [Nesting.step, hb, hq] using hf
          exact hfound ▸ hq
        · by_cases ho : c = '(' <;> by_cases hc : c = ')' <;> simp_all [Nesting.step]

theorem IsSound.foldl (h : nesting.IsSound) (text : Text) : (text.foldl Nesting.step nesting).IsSound := by
  induction text generalizing nesting with
  | nil => exact h
  | cons c text ih => exact ih (h.step c)

theorem step_neutral (h : nesting.IsSound) (hc : IsNeutral c) : nesting.step c = nesting.settled := by
  obtain ⟨depth, quote, escaped⟩ := nesting
  obtain ⟨hb, hd, hs, ho, hcl⟩ := hc
  cases escaped with
  | true => rfl
  | false =>
    cases quote with
    | none => simp [step, settled, hb, hd, hs, ho, hcl]
    | some quote =>
      have hq : c ≠ quote := by
        rcases h quote rfl with rfl | rfl
        · exact hd
        · exact hs
      simp [step, settled, hb, hq]

theorem isNeutral_of_isSpace (hc : Text.isSpace c = true) : IsNeutral c := by
  have hne : ∀ d : Char, Text.isSpace d = false → c ≠ d := by
    rintro d hd rfl
    rw [hd] at hc
    cases hc
  exact ⟨hne _ (by decide), hne _ (by decide), hne _ (by decide), hne _ (by decide), hne _ (by decide)⟩

theorem isNeutral_of_isAlpha (hc : c.isAlpha = true) : IsNeutral c := by
  have hne : ∀ d : Char, d.isAlpha = false → c ≠ d := by
    rintro d hd rfl
    rw [hd] at hc
    cases hc
  exact ⟨hne _ (by decide), hne _ (by decide), hne _ (by decide), hne _ (by decide), hne _ (by decide)⟩

theorem step_toLower (h : nesting.IsSound) (c : Char) : nesting.step c.toLower = nesting.step c := by
  rcases Text.toLower_eq_or c with he | ⟨hc, hl⟩
  · rw [he]
  · rw [step_neutral h (isNeutral_of_isAlpha hc), step_neutral h (isNeutral_of_isAlpha hl)]

theorem foldl_step_lower (h : nesting.IsSound) (text : Text) :
    (Text.lower text).foldl step nesting = text.foldl step nesting := by
  induction text generalizing nesting with
  | nil => rfl
  | cons c text ih => rw [Text.lower_cons, List.foldl_cons, List.foldl_cons, step_toLower h, ih (h.step c)]

theorem settled_foldl (h : nesting.IsSound) (hn : ∀ c ∈ text, IsNeutral c) :
    (text.foldl step nesting).settled = nesting.settled := by
  induction text generalizing nesting with
  | nil => rfl
  | cons c text ih =>
    have hc := step_neutral h (hn c List.mem_cons_self)
    rw [List.foldl_cons, ih (h.step c) fun d hd => hn d (List.mem_cons_of_mem _ hd), hc]
    rfl

theorem foldl_space (h : nesting.IsSound) (he : nesting.escaped = false)
    (hs : ∀ c ∈ space, Text.isSpace c = true) : space.foldl step nesting = nesting := by
  induction space with
  | nil => rfl
  | cons c space ih =>
    have hc : nesting.step c = nesting := by
      rw [step_neutral h (isNeutral_of_isSpace (hs c List.mem_cons_self)), settled, ← he]
    rw [List.foldl_cons, hc]
    exact ih fun d hd => hs d (List.mem_cons_of_mem _ hd)

end
end Nesting

namespace Text

/-- A text in which no separator stands outside, when the scan begins at the given nesting. -/
def Uncut (separator : Char) (nesting : Nesting) (text : Text) : Prop :=
  splitFrom separator nesting text = [text]

/-- How a text is split: a separator outside ends a part, and what is left at the end is the last. -/
inductive Splits (separator : Char) : Nesting → Text → List Text → Prop
  | last {nesting : Nesting} {text : Text} (h : Uncut separator nesting text) :
    Splits separator nesting text [text]
  | part {nesting : Nesting} {front back : Text} {parts : List Text} (h : Uncut separator nesting front)
    (ho : front.foldl Nesting.step nesting = .outside) (hs : Splits separator .outside back parts) :
    Splits separator nesting (front ++ separator :: back) (front :: parts)

section
variable {separator c : Char} {nesting : Nesting} {text front back part : Text}

theorem uncut_nil : Uncut separator nesting [] := rfl

theorem uncut_cons_iff : Uncut separator nesting (c :: text) ↔
    ¬ (nesting = .outside ∧ c = separator) ∧ Uncut separator (nesting.step c) text := by
  by_cases hs : nesting = .outside ∧ c = separator
  · obtain ⟨rfl, rfl⟩ := hs
    refine iff_of_false (fun h => ?_) (fun h => h.1 ⟨rfl, rfl⟩)
    rw [Uncut, splitFrom_separator] at h
    cases (List.cons.inj h).1
  · have hpart : [c :: text] = [text].modifyHead ([c] ++ ·) := rfl
    rw [and_iff_right hs, Uncut, Uncut, splitFrom_cons hs, hpart]
    exact modifyHead_append_inj

theorem uncut_append_iff : Uncut separator nesting (front ++ back) ↔
    Uncut separator nesting front ∧ Uncut separator (front.foldl Nesting.step nesting) back := by
  induction front generalizing nesting with
  | nil => simp [uncut_nil]
  | cons c front ih => rw [List.cons_append, uncut_cons_iff, uncut_cons_iff, ih, and_assoc]; rfl

theorem Uncut.splitFrom_append (h : Uncut separator nesting front) (back : Text) :
    splitFrom separator nesting (front ++ back) =
      (splitFrom separator (front.foldl Nesting.step nesting) back).modifyHead (front ++ ·) := by
  induction front generalizing nesting with
  | nil => exact (congrFun List.modifyHead_id _).symm
  | cons c front ih =>
    obtain ⟨hs, hfront⟩ := uncut_cons_iff.1 h
    rw [List.cons_append, splitFrom_cons hs, ih hfront, List.modifyHead_modifyHead]
    rfl

theorem Uncut.splitFrom_separator (h : Uncut separator nesting front)
    (ho : front.foldl Nesting.step nesting = .outside) (back : Text) :
    splitFrom separator nesting (front ++ separator :: back) =
      front :: splitFrom separator .outside back := by
  rw [h.splitFrom_append, ho, Text.splitFrom_separator]
  simp

theorem splits_splitFrom (separator : Char) (nesting : Nesting) (text : Text) :
    Splits separator nesting text (splitFrom separator nesting text) := by
  induction text generalizing nesting with
  | nil => exact .last uncut_nil
  | cons c text ih =>
    by_cases hs : nesting = .outside ∧ c = separator
    · obtain ⟨rfl, rfl⟩ := hs
      rw [Text.splitFrom_separator]
      exact .part uncut_nil rfl (ih .outside)
    · have hrest := ih (nesting.step c)
      rw [splitFrom_cons hs]
      generalize splitFrom separator (nesting.step c) text = parts at hrest
      cases hrest with
      | last h => exact .last (uncut_cons_iff.2 ⟨hs, h⟩)
      | part h ho hrest => exact .part (uncut_cons_iff.2 ⟨hs, h⟩) ho hrest

/-- The parts of a text cannot be split any further, and all but the last one leave nothing open. -/
theorem Splits.parts {parts : List Text} (h : Splits separator nesting text parts)
    (hn : nesting = .outside) : (∀ part ∈ parts, Uncut separator .outside part) ∧
      ∀ part ∈ parts.dropLast, part.foldl Nesting.step .outside = .outside := by
  induction h with
  | last h =>
    subst hn
    simpa using h
  | @part nesting front back parts h ho hs ih =>
    subst hn
    obtain ⟨huncut, hclosed⟩ := ih rfl
    have hne : parts ≠ [] := by
      cases hs <;> simp
    rw [List.dropLast_cons_of_ne_nil hne]
    refine ⟨fun part hm => ?_, fun part hm => ?_⟩
    · rcases List.mem_cons.1 hm with rfl | hm
      · exact h
      · exact huncut part hm
    · rcases List.mem_cons.1 hm with rfl | hm
      · exact ho
      · exact hclosed part hm

theorem uncut_lower (h : nesting.IsSound) (hs : separator.isAlpha = false) :
    Uncut separator nesting (lower text) ↔ Uncut separator nesting text := by
  induction text generalizing nesting with
  | nil => rfl
  | cons c text ih =>
    rw [lower_cons, uncut_cons_iff, uncut_cons_iff, toLower_eq_iff hs,
      Nesting.step_toLower h, ih (h.step c)]

end
end Text
end MailTemplate
