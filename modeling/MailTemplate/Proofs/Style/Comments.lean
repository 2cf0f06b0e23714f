import MailTemplate.Proofs.Style.WordsRuled

/-! Comments of a stylesheet: what a text is without them, and where in the text with comments a
character of the text without them stands. -/

namespace MailTemplate

theorem Text.byteSize_le_of_sublist {part whole : Text} (h : List.Sublist part whole) :
    byteSize part ≤ byteSize whole := by
  induction h with
  | slnil => exact Nat.le_refl _
  | cons c _ ih => exact Nat.le_add_left_of_le ih
  | cons_cons c _ ih => exact Nat.add_le_add_left ih _

theorem Text.eq_of_sublist_of_byteSize {part whole : Text} (h : List.Sublist part whole)
    (hb : byteSize part = byteSize whole) : part = whole := by
  induction h with
  | slnil => rfl
  | cons c h _ =>
    have hle := byteSize_le_of_sublist h
    have hpos := c.utf8Size_pos
    simp only [byteSize_cons] at hb
    omega
  | cons_cons c _ ih =>
    rw [ih (by simpa using hb)]

namespace Sheet

/-- `front` is `plain` with comments in it, where the text goes on with `rest`. -/
inductive Uncommented : Text → Text → Text → Prop
  | nil {rest} : Uncommented [] rest []
  | char {c front rest plain} (hc : ¬ "/*".toList <+: c :: (front ++ rest))
    (h : Uncommented front rest plain) : Uncommented (c :: front) rest (c :: plain)
  | comment {body front rest plain} (hb : ¬ "*/".toList <:+: body)
    (h : Uncommented front rest plain) :
    Uncommented ("/*".toList ++ (body ++ "*/".toList ++ front)) rest plain

section
variable {c : Char} {css front rest plain body inner before fault other tail : Text}

theorem dropComments_char (h : ¬ "/*".toList <+: c :: css) :
    dropComments (c :: css) = (dropComments css).map (c :: ·) :=
  dropComments_cons_of_after?_eq_none (Text.after?_eq_none_iff.2 h)

theorem dropComments_comment (hb : ¬ "*/".toList <:+: body) (css : Text) :
    dropComments ("/*".toList ++ (body ++ "*/".toList ++ css)) = dropComments css := by
  have hcut : Text.cut? "*/".toList (body ++ "*/".toList ++ css) = some (body, css) :=
    Text.cut?_append css (by decide) hb
  have hafter := Text.after?_append "/*".toList (body ++ "*/".toList ++ css)
  have hcons : "/*".toList ++ (body ++ "*/".toList ++ css) =
    '/' :: ('*' :: (body ++ "*/".toList ++ css)) := rfl
  rw [hcons] at hafter ⊢
  rw [dropComments]
  split
  · simp_all
  · next found hf =>
    cases hafter.symm.trans hf
    split
    · simp_all
    · next _ _ hc =>
      cases hcut.symm.trans hc
      rfl

theorem dropComments_unterminated (h : ¬ "*/".toList <:+: inner) :
    dropComments ("/*".toList ++ inner) = .error ("/*".toList ++ inner) := by
  have hcut : Text.cut? "*/".toList inner = none := (Text.cut?_eq_none_iff (by decide)).2 h
  have hafter := Text.after?_append "/*".toList inner
  have hcons : "/*".toList ++ inner = '/' :: ('*' :: inner) := rfl
  rw [hcons] at hafter ⊢
  rw [dropComments]
  split
  · simp_all
  · next found hf =>
    cases hafter.symm.trans hf
    split
    · rfl
    · simp_all

theorem Uncommented.dropComments_append (h : Uncommented front rest plain) :
    dropComments (front ++ rest) = (dropComments rest).map (plain ++ ·) := by
  induction h with
  | @nil rest => cases h : dropComments rest <;> simp [h, Except.map]
  | @char c front rest plain hc _ ih =>
    rw [List.cons_append, dropComments_char hc, ih]
    cases dropComments rest <;> rfl
  | @comment body front rest plain hb _ ih =>
    have hshape : "/*".toList ++ (body ++ "*/".toList ++ front) ++ rest =
        "/*".toList ++ (body ++ "*/".toList ++ (front ++ rest)) := by simp only [List.append_assoc]
    rw [hshape, dropComments_comment hb, ih]

theorem exists_uncommented (css : Text) : ∃ front rest plain, css = front ++ rest ∧
    Uncommented front rest plain ∧
      (rest = [] ∨ ∃ inner, rest = "/*".toList ++ inner ∧ ¬ "*/".toList <:+: inner) := by
  induction hl : css.length using Nat.strongRecOn generalizing css with
  | _ n ih =>
    subst hl
    by_cases hopen : "/*".toList <+: css
    · obtain ⟨inner, rfl⟩ := hopen
      cases hcut : Text.cut? "*/".toList inner with
      | none =>
        exact ⟨[], _, [], rfl, .nil, .inr ⟨inner, rfl, (Text.cut?_eq_none_iff (by decide)).1 hcut⟩⟩
      | some pair =>
        obtain ⟨body, after⟩ := pair
        have hinner := Text.eq_append_of_cut? hcut
        have hbody := Text.not_infix_of_cut? (by decide) hcut
        have hlength : after.length < ("/*".toList ++ inner).length := by
          rw [hinner]
          simp
          omega
        obtain ⟨front, rest, plain, rfl, h, hend⟩ := ih _ hlength after rfl
        refine ⟨"/*".toList ++ (body ++ "*/".toList ++ front), rest, plain, ?_, .comment hbody h, hend⟩
        rw [hinner]
        simp only [List.append_assoc]
    · cases css with
      | nil => exact ⟨[], [], [], rfl, .nil, .inl rfl⟩
      | cons c css =>
        obtain ⟨front, rest, plain, rfl, h, hend⟩ := ih _ (Nat.lt_succ_self _) css rfl
        exact ⟨c :: front, rest, c :: plain, rfl, .char hopen h, hend⟩

theorem dropComments_eq_ok_iff : dropComments css = .ok plain ↔ Uncommented css [] plain := by
  constructor
  · intro h
    obtain ⟨front, rest, found, rfl, hfront, rfl | ⟨inner, rfl, hinner⟩⟩ := exists_uncommented css
    · rw [hfront.dropComments_append, dropComments] at h
      cases h
      simpa using hfront
    · rw [hfront.dropComments_append, dropComments_unterminated hinner] at h
      cases h
  · intro h
    have hd := h.dropComments_append
    rw [List.append_nil, dropComments] at hd
    simpa [Except.map] using hd

theorem dropComments_eq_error_iff : dropComments css = .error rest ↔ ∃ front plain inner,
    css = front ++ rest ∧ Uncommented front rest plain ∧ rest = "/*".toList ++ inner ∧
      ¬ "*/".toList <:+: inner := by
  constructor
  · intro h
    obtain ⟨front, found, plain, rfl, hfront, rfl | ⟨inner, rfl, hinner⟩⟩ := exists_uncommented css
    · rw [hfront.dropComments_append, dropComments] at h
      cases h
    · rw [hfront.dropComments_append, dropComments_unterminated hinner] at h
      cases h
      exact ⟨front, plain, inner, rfl, hfront, rfl, hinner⟩
  · rintro ⟨front, plain, inner, rfl, hfront, rfl, hinner⟩
    rw [hfront.dropComments_append, dropComments_unterminated hinner]
    rfl

/-- The beginning of a comment is not made by what follows, unless that begins with a star. -/
theorem not_prefix_append (h : ¬ "/*".toList <+: c :: front) (hr : rest.head? ≠ some '*') :
    ¬ "/*".toList <+: c :: (front ++ rest) := by
  cases front with
  | cons d front => simpa using h
  | nil => cases rest with
    | nil => simp
    | cons d rest =>
      have hd : d ≠ '*' := by simpa using hr
      simp [List.cons_prefix_cons, hd.symm]

theorem Uncommented.append_right (h : Uncommented front [] plain) (hr : rest.head? ≠ some '*') :
    Uncommented front rest plain := by
  generalize he : ([] : Text) = last at h
  induction h with
  | nil => exact .nil
  | char hc _ ih =>
    subst he
    rw [List.append_nil] at hc
    exact .char (not_prefix_append hc hr) (ih rfl)
  | comment hb _ ih => exact .comment hb (ih he)

theorem uncommented_self (h : ¬ "/*".toList <:+: front) : Uncommented front [] front := by
  induction front with
  | nil => exact .nil
  | cons c front ih =>
    rw [List.infix_cons_iff, not_or] at h
    exact .char (by simpa using h.1) (ih h.2)

theorem Uncommented.sublist (h : Uncommented front rest plain) : List.Sublist plain front := by
  induction h with
  | nil => exact .slnil
  | char _ _ ih => exact ih.cons_cons _
  | comment _ _ ih => exact ih.trans ((List.sublist_append_right _ _).trans (List.sublist_append_right _ _))

theorem Uncommented.eq_iff (h : Uncommented front rest plain) :
    plain = front ↔ ¬ "/*".toList <:+: front := by
  induction h with
  | nil => simp
  | @char c front rest plain hc h ih =>
    have hfirst : ¬ "/*".toList <+: c :: front := fun hp => hc (hp.trans (by simp))
    rw [List.infix_cons_iff, or_iff_right hfirst, ← ih]
    simp
  | @comment body front rest plain hb h ih =>
    have hlength := h.sublist.length_le
    refine iff_of_false (fun he => ?_) (not_not.2 (List.prefix_append _ _).isInfix)
    have := congrArg List.length he
    simp at this
    omega

theorem Uncommented.exists_split (h : Uncommented css tail (before ++ fault)) (hf : fault ≠ []) :
    ∃ front rest, css = front ++ rest ∧ Uncommented front (rest ++ tail) before ∧
      Uncommented rest tail fault ∧ ¬ "/*".toList <+: rest ++ tail := by
  generalize he : before ++ fault = plain at h
  induction h generalizing before with
  | nil => simp_all
  | @char c css tail plain hc h ih =>
    cases before with
    | nil =>
      obtain rfl : fault = c :: plain := he
      exact ⟨[], c :: css, rfl, .nil, .char hc h, hc⟩
    | cons d before =>
      obtain ⟨rfl, rfl⟩ := List.cons.inj he
      obtain ⟨front, rest, rfl, hfront, hrest, hopen⟩ := ih rfl
      exact ⟨d :: front, rest, rfl, .char (by simpa using hc) hfront, hrest, hopen⟩
  | @comment body css tail plain hb h ih =>
    obtain ⟨front, rest, rfl, hfront, hrest, hopen⟩ := ih he
    exact ⟨"/*".toList ++ (body ++ "*/".toList ++ front), rest, by simp, .comment hb hfront, hrest, hopen⟩

/-- A place in a text has one place in the text without comments, and only one. -/
theorem Uncommented.unique {others : Text} (h : Uncommented front rest plain)
    (hr : ¬ "/*".toList <+: rest) (ho : Uncommented other others plain)
    (hs : ¬ "/*".toList <+: others) (he : front ++ rest = other ++ others) : front = other := by
  induction h generalizing other with
  | @nil rest =>
    generalize hp : ([] : Text) = plain at ho
    cases ho with
    | nil => rfl
    | char => cases hp
    | comment =>
      refine absurd ?_ hr
      rw [← List.nil_append rest, he, List.append_assoc]
      exact List.prefix_append _ _
  | @char c front rest plain hc h ih =>
    generalize hp : c :: plain = found at ho
    cases ho with
    | nil => cases hp
    | char _ ho =>
      cases hp
      rw [ih hr ho (List.cons.inj he).2]
    | comment =>
      refine absurd ?_ hc
      rw [← List.cons_append, he, List.append_assoc]
      exact List.prefix_append _ _
  | @comment body front rest plain hb h ih =>
    cases ho with
    | nil =>
      refine absurd ?_ hs
      rw [← List.nil_append others, ← he, List.append_assoc]
      exact List.prefix_append _ _
    | char hc _ =>
      refine absurd ?_ hc
      rw [← List.cons_append, ← he, List.append_assoc]
      exact List.prefix_append _ _
    | @comment inner other _ _ hi ho =>
      have hcut : ∀ body after : Text, ¬ "*/".toList <:+: body →
          Text.cut? "*/".toList (body ++ ("*/".toList ++ after)) = some (body, after) := by
        intro body after h
        rw [← List.append_assoc]
        exact Text.cut?_append after (by decide) h
      simp only [List.append_assoc, List.append_cancel_left_eq] at he
      have hsame := hcut body (front ++ rest) hb
      rw [he, hcut inner (other ++ others) hi] at hsame
      obtain ⟨rfl, hrest⟩ := Prod.mk.inj (Option.some.inj hsame)
      rw [ih hr ho hrest.symm]

end
end Sheet
end MailTemplate
