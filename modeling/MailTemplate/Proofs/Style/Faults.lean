import MailTemplate.Proofs.Style.Comments
import MailTemplate.Proofs.Style.Statements

/-! Where a stylesheet goes wrong. A comment without an end is reported at its place in the stylesheet. A
fault among the statements is reported at its place in the text without comments, which is its place in
the stylesheet exactly if no comment stands in front of it. -/

namespace MailTemplate
namespace Sheet

/-- The stylesheet `front ++ rest` goes wrong behind `front`. Without comments these are `before` and
`fault`; a fault begins outside of the comments. -/
structure GoesWrong (front rest before fault : Text) : Prop where
  plainFront : Uncommented front rest before
  plainRest : Uncommented rest [] fault
  isOutside : ¬ "/*".toList <+: rest
  isFault : Fault before fault

section
variable {css front rest before fault other others : Text} {n : Nat}

theorem fault_ne_nil (h : Fault before fault) : fault ≠ [] := by
  obtain ⟨_, _, begun, _, _, hbreak⟩ := h
  cases hbreak <;> simp

theorem GoesWrong.dropComments_eq (h : GoesWrong front rest before fault) :
    dropComments (front ++ rest) = .ok (before ++ fault) := by
  rw [h.plainFront.dropComments_append, dropComments_eq_ok_iff.2 h.plainRest]
  rfl

theorem GoesWrong.rules_eq (h : GoesWrong front rest before fault) :
    rules (before ++ fault) = .error fault := rules_eq_error_iff.2 ⟨before, rfl, h.isFault⟩

theorem GoesWrong.unique {behind broken : Text} (h : GoesWrong front rest before fault)
    (ho : GoesWrong other others behind broken) (he : front ++ rest = other ++ others) :
    front = other ∧ before = behind := by
  have hplain : before ++ fault = behind ++ broken := by
    have hsame := h.dropComments_eq
    rw [he, ho.dropComments_eq] at hsame
    exact (Except.ok.inj hsame).symm
  have hfault : fault = broken := by
    have hsame := h.rules_eq
    rw [hplain, ho.rules_eq] at hsame
    exact (Except.error.inj hsame).symm
  subst hfault
  obtain rfl : before = behind := List.append_cancel_right hplain
  exact ⟨h.plainFront.unique h.isOutside ho.plainFront ho.isOutside he, rfl⟩

theorem parse_eq_unterminatedComment_iff : parse css = .error (.unterminatedComment n) ↔
    ∃ front inner plain, css = front ++ ("/*".toList ++ inner) ∧
      Uncommented front ("/*".toList ++ inner) plain ∧ ¬ "*/".toList <:+: inner ∧
        Text.byteSize front = n := by
  constructor
  · intro h
    unfold parse at h
    split at h
    · next rest hrest =>
      obtain ⟨front, plain, inner, rfl, hfront, rfl, hinner⟩ := dropComments_eq_error_iff.1 hrest
      cases h
      exact ⟨front, inner, plain, rfl, hfront, hinner, (Text.offset_append _ _).symm⟩
    · split at h <;> cases h
  · rintro ⟨front, inner, plain, rfl, hfront, hinner, rfl⟩
    rw [parse, dropComments_eq_error_iff.2 ⟨front, plain, inner, rfl, hfront, rfl, hinner⟩]
    simp [Text.offset_append]

theorem parse_eq_unbalanced_iff : parse css = .error (.unbalanced n) ↔
    ∃ front rest before fault, css = front ++ rest ∧ GoesWrong front rest before fault ∧
      Text.byteSize before = n := by
  constructor
  · intro h
    unfold parse at h
    split at h
    · cases h
    · next plain hplain =>
      split at h
      · next fault hfault =>
        obtain ⟨before, rfl, hf⟩ := rules_eq_error_iff.1 hfault
        cases h
        obtain ⟨front, rest, rfl, hfront, hrest, hout⟩ :=
          (dropComments_eq_ok_iff.1 hplain).exists_split (fault_ne_nil hf)
        rw [List.append_nil] at hfront hout
        exact ⟨front, rest, before, fault, rfl, ⟨hfront, hrest, hout, hf⟩,
          (Text.offset_append _ _).symm⟩
      · cases h
  · rintro ⟨front, rest, before, fault, rfl, hw, rfl⟩
    rw [parse, hw.dropComments_eq]
    simp [hw.rules_eq, Text.offset_append]

theorem Uncommented.byteSize_eq_iff {plain : Text} (h : Uncommented front rest plain) :
    Text.byteSize plain = Text.byteSize front ↔ ¬ "/*".toList <:+: front := by
  rw [← h.eq_iff]
  exact ⟨Text.eq_of_sublist_of_byteSize h.sublist, fun he => he ▸ rfl⟩

/-- A comment without an end is reported where it begins. A fault is reported at its place in the text
without comments, and at its place in the stylesheet exactly if no comment stands in front of it. -/
theorem parse_error_position (css : Text) :
    (∀ n, parse css = .error (.unterminatedComment n) ↔ ∃ front inner plain,
      css = front ++ ("/*".toList ++ inner) ∧ Uncommented front ("/*".toList ++ inner) plain ∧
        ¬ "*/".toList <:+: inner ∧ Text.byteSize front = n) ∧
    (∀ n, parse css = .error (.unbalanced n) ↔ ∃ front rest before fault,
      css = front ++ rest ∧ GoesWrong front rest before fault ∧ Text.byteSize before = n) ∧
    ((∀ n, parse css = .error (.unbalanced n) → ∃ front rest before fault,
      css = front ++ rest ∧ GoesWrong front rest before fault ∧ Text.byteSize front = n) ↔
        ∀ front rest before fault, css = front ++ rest → GoesWrong front rest before fault →
          ¬ "/*".toList <:+: front) := by
  refine ⟨fun n => parse_eq_unterminatedComment_iff, fun n => parse_eq_unbalanced_iff, ?_, ?_⟩
  · intro h front rest before fault he hw
    obtain ⟨other, others, behind, broken, ho, hother, hsize⟩ :=
      h _ (parse_eq_unbalanced_iff.2 ⟨front, rest, before, fault, he, hw, rfl⟩)
    obtain ⟨rfl, rfl⟩ := hw.unique hother (he.symm.trans ho)
    exact hw.plainFront.byteSize_eq_iff.1 hsize.symm
  · intro h n hn
    obtain ⟨front, rest, before, fault, he, hw, rfl⟩ := parse_eq_unbalanced_iff.1 hn
    exact ⟨front, rest, before, fault, he, hw,
      (hw.plainFront.byteSize_eq_iff.2 (h front rest before fault he hw)).symm⟩

/-- A brace behind a comment closes nothing; its place is told as if the comment were not there, where
the stylesheet has the beginning of the comment. -/
theorem parse_error_moved :
    let css := "/**/\x7d".toList
    parse css = .error (.unbalanced 0) ∧ GoesWrong "/**/".toList ['}'] [] ['}'] ∧
      Text.byteSize "/**/".toList = 4 ∧ ¬ ∃ front rest before fault, css = front ++ rest ∧
        GoesWrong front rest before fault ∧ Text.byteSize front = 0 := by
  intro css
  have hcomment : Uncommented ("/*".toList ++ ([] ++ "*/".toList ++ [])) ['}'] [] :=
    .comment (by decide) .nil
  have hwrong : GoesWrong "/**/".toList ['}'] [] ['}'] :=
    ⟨hcomment, .char (by decide) .nil, by decide, [], [], [], rfl, .nil, .stray⟩
  refine ⟨by decide +kernel, hwrong, by decide, ?_⟩
  rintro ⟨front, rest, before, fault, he, hw, hsize⟩
  obtain ⟨rfl, -⟩ := hwrong.unique hw he
  exact absurd hsize (by decide)

end
end Sheet
end MailTemplate
