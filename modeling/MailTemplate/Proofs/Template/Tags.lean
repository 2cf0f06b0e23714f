import MailTemplate.Proofs.Text.Cut
import MailTemplate.Template.Tag

/-! Layout tags without the reader: what a tag has to look like to be read as itself, wherever it
stands. The opening and the closing tag of a block are read back from their texts, and between the
braces of a tag there are no other braces. -/

namespace MailTemplate
namespace Text

def IsRun (p : Char → Bool) (text : Text) : Prop := text ≠ [] ∧ ∀ c ∈ text, p c = true

instance (p : Char → Bool) (text : Text) : Decidable (IsRun p text) :=
  @instDecidableAnd _ _ inferInstance (List.decidableBAll _ _)

/-- Whether a word stands somewhere in a text, with no word character next to it. -/
def HoldsWord (word text : Text) : Prop :=
  ∃ before after, text = before ++ word ++ after ∧
    (∀ c ∈ before.getLast?, isWord c = false) ∧ ∀ c ∈ after.head?, isWord c = false

def spaceRanges : List (Nat × Nat) :=
  [(0x85, 0x85), (0xA0, 0xA0), (0x1680, 0x1680), (0x2000, 0x200A), (0x2028, 0x2029),
   (0x202F, 0x202F), (0x205F, 0x205F), (0x3000, 0x3000)]

theorem apart_of_mem_spaceRanges : ∀ space ∈ spaceRanges, ∀ word ∈ wordRanges,
    word.2 < space.1 ∨ space.2 < word.1 := by decide +kernel

theorem isWord_of_isSpace {c : Char} (h : isSpace c = true) : isWord c = false := by
  simp only [isSpace, Bool.or_eq_true, Bool.and_eq_true, decide_eq_true_eq, beq_iff_eq] at h
  by_cases hascii : c.toNat < 0x80
  · have hcode : c.toNat ∈ [0x9, 0xA, 0xB, 0xC, 0xD, 0x20] := by
      simp only [List.mem_cons, List.not_mem_nil]
      omega
    have hall : ∀ n ∈ [0x9, 0xA, 0xB, 0xC, 0xD, 0x20], isWord (Char.ofNat n) = false := by decide
    simpa using hall c.toNat hcode
  · have hcode : ∃ space ∈ spaceRanges, space.1 ≤ c.toNat ∧ c.toNat ≤ space.2 := by
      simp only [spaceRanges, List.exists_mem_cons_iff, List.not_mem_nil, false_and, exists_false]
      omega
    obtain ⟨space, hmem, hspace⟩ := hcode
    rw [isWord, if_neg hascii, List.any_eq_false]
    intro word hword
    have hapart := apart_of_mem_spaceRanges space hmem word hword
    simp only [Bool.and_eq_true, decide_eq_true_eq]
    omega

theorem isSpace_of_isWord {c : Char} (h : isWord c = true) : isSpace c = false := by
  cases hs : isSpace c with
  | false => rfl
  | true => rw [isWord_of_isSpace hs] at h; cases h

section
variable {p : Char → Bool} {run rest : Text}

theorem IsRun.head_append {q : Char → Bool} (h : IsRun p run)
    (hq : ∀ {c}, p c = true → q c = false) (rest : Text) :
    ∀ c ∈ (run ++ rest).head?, q c = false := by
  obtain ⟨hn, hall⟩ := h
  cases run with
  | nil => exact absurd rfl hn
  | cons d tail =>
    intro c hc
    obtain rfl : d = c := by simpa using hc
    exact hq (hall d List.mem_cons_self)

theorem head_dropWhile (text : Text) : ∀ c ∈ (text.dropWhile p).head?, p c = false := by
  intro c hc
  have hd := List.head?_dropWhile_not p text
  rwa [Option.mem_def.1 hc] at hd

theorem isRun_takeWhile (h : run.takeWhile p ≠ []) : IsRun p (run.takeWhile p) :=
  ⟨h, fun _ => List.mem_takeWhile_imp⟩

end

/-- A character that may stand between the braces of a block tag, percent signs apart. -/
def IsTagChar (c : Char) : Prop := c = '-' ∨ isSpace c = true ∨ isWord c = true

theorem IsTagChar.ne {c d : Char} (h : IsTagChar c) (hdash : d ≠ '-') (hspace : isSpace d = false)
    (hword : isWord d = false) : c ≠ d := by
  rintro rfl
  rcases h with h | h | h
  · exact hdash h
  · simp [hspace] at h
  · simp [hword] at h

end Text

open Text

def dashText (dash : Bool) : Text := if dash then ['-'] else []

theorem isTagChar_dashText {dash : Bool} {c : Char} (h : c ∈ dashText dash) : IsTagChar c := by
  cases dash with
  | false => simp [dashText] at h
  | true => exact .inl (by simpa [dashText] using h)

namespace TagStart

/-- A beginning of a tag as it can be read. -/
def WellFormed (start : TagStart) : Prop := ∀ c ∈ start.space, isSpace c = true

instance (start : TagStart) : Decidable start.WellFormed := List.decidableBAll _ _

/-- The beginning of a tag after its brace and percent sign. -/
def inner (start : TagStart) : Text := dashText start.dash ++ start.space

theorem text_eq (start : TagStart) : start.text = '{' :: '%' :: start.inner := rfl

theorem isTagChar_inner {start : TagStart} (h : start.WellFormed) {c : Char}
    (hc : c ∈ start.inner) : IsTagChar c := by
  rcases List.mem_append.1 hc with hc | hc
  · exact isTagChar_dashText hc
  · exact .inr (.inl (h c hc))

theorem isWord_of_mem {start : TagStart} (h : start.WellFormed) {c : Char}
    (hc : c ∈ '%' :: start.inner) : isWord c = false := by
  simp only [inner, List.mem_cons, List.mem_append] at hc
  rcases hc with rfl | hc | hc
  · decide
  · cases hd : start.dash <;> simp [hd, dashText] at hc
    subst hc
    decide
  · exact isWord_of_isSpace (h c hc)

theorem match?_text_append {start : TagStart} {rest : Text} (h : start.WellFormed)
    (hr : ∀ c ∈ rest.head?, isSpace c = false ∧ c ≠ '-') :
    match? (start.text ++ rest) = some (start, rest) := by
  obtain ⟨dash, space⟩ := start
  have hspace : spaceOf (space ++ rest) = space := takeWhile_run h fun c hc => (hr c hc).1
  have hrest : dropSpace (space ++ rest) = rest := dropWhile_run h fun c hc => (hr c hc).1
  cases dash with
  | true => simp [text, match?, hspace, hrest]
  | false =>
    have hdash : ∀ tail, space ++ rest ≠ '-' :: tail := by
      intro tail he
      cases space with
      | nil =>
        simp only [List.nil_append] at he
        exact (hr '-' (by simp [he])).2 rfl
      | cons c space =>
        have hc : isSpace c = true := h c List.mem_cons_self
        rw [(List.cons.inj he).1] at hc
        exact absurd hc (by decide)
    unfold match?
    split
    · next he => exact absurd (by simpa [text] using he) (hdash _)
    · next he =>
      obtain rfl : space ++ rest = _ := by simpa [text] using he
      rw [hspace, hrest]
    · next he => exact absurd rfl (he (space ++ rest))

theorem wellFormed_of_match? {source rest : Text} {start : TagStart}
    (h : match? source = some (start, rest)) : start.WellFormed := by
  unfold match? at h
  split at h <;> cases h <;> exact fun c hc => List.mem_takeWhile_imp hc

theorem match?_eq_none_of_ne {c : Char} (h : c ≠ '{') (rest : Text) : match? (c :: rest) = none := by
  unfold match?
  split <;> simp_all

end TagStart

namespace TagEnd

/-- An end of a tag as it can be read. -/
def WellFormed (close : TagEnd) : Prop := ∀ c ∈ close.space, isSpace c = true

instance (close : TagEnd) : Decidable close.WellFormed := List.decidableBAll _ _

/-- The end of a tag before its percent sign and brace. -/
def inner (close : TagEnd) : Text := close.space ++ dashText close.dash

theorem text_eq (close : TagEnd) : close.text = close.inner ++ ['%', '}'] := rfl

theorem isTagChar_inner {close : TagEnd} (h : close.WellFormed) {c : Char}
    (hc : c ∈ close.inner) : IsTagChar c := by
  rcases List.mem_append.1 hc with hc | hc
  · exact .inr (.inl (h c hc))
  · exact isTagChar_dashText hc

theorem isWord_head {close : TagEnd} (h : close.WellFormed) (rest : Text) :
    ∀ c ∈ (close.text ++ rest).head?, isWord c = false := by
  obtain ⟨space, dash⟩ := close
  intro c hc
  cases space with
  | nil => cases dash <;> simp [text] at hc <;> subst hc <;> decide
  | cons d space =>
    obtain rfl : d = c := by simpa [text] using hc
    exact isWord_of_isSpace (h d List.mem_cons_self)

theorem dropSpace_text_append {close : TagEnd} (h : close.WellFormed) (rest : Text) :
    dropSpace (close.text ++ rest) = dashText close.dash ++ '%' :: '}' :: rest := by
  have htext : close.text ++ rest = close.space ++ (dashText close.dash ++ '%' :: '}' :: rest) := by
    simp [text_eq, inner]
  rw [htext]
  apply dropWhile_run h
  intro c hc
  cases hd : close.dash <;> simp [hd, dashText] at hc <;> subst hc <;> decide

theorem match?_text_append {close : TagEnd} (h : close.WellFormed) (rest : Text) :
    match? (close.text ++ rest) = some (close, rest) := by
  have hdrop := dropSpace_text_append h rest
  have hspace : spaceOf (close.text ++ rest) = close.space := by
    have hsplit := spaceOf_append_dropSpace (close.text ++ rest)
    rw [hdrop] at hsplit
    simpa [text_eq, inner] using hsplit
  rw [match?, hdrop, hspace]
  obtain ⟨space, dash⟩ := close
  cases dash <;> rfl

theorem wellFormed_of_match? {source rest : Text} {close : TagEnd}
    (h : match? source = some (close, rest)) : close.WellFormed := by
  unfold match? at h
  split at h <;> cases h <;> exact fun c hc => List.mem_takeWhile_imp hc

end TagEnd

section
variable {p : Char → Bool} {source run rest : Text}

theorem gap?_eq_some_iff : gap? source = some (run, rest) ↔
    source = run ++ rest ∧ IsRun isSpace run ∧ ∀ c ∈ rest.head?, isSpace c = false := by
  constructor
  · intro h
    refine ⟨eq_append_of_gap? h, ?_⟩
    simp only [gap?] at h
    split at h
    · cases h
    · next hn =>
      cases h
      exact ⟨isRun_takeWhile hn, head_dropWhile source⟩
  · rintro ⟨rfl, ⟨hn, hall⟩, hr⟩
    have hspace : spaceOf (run ++ rest) = run := takeWhile_run hall hr
    have hrest : dropSpace (run ++ rest) = rest := dropWhile_run hall hr
    simp [gap?, hspace, hrest, hn]

theorem word?_eq_some_iff : word? source = some (run, rest) ↔
    source = run ++ rest ∧ IsRun isWord run ∧ ∀ c ∈ rest.head?, isWord c = false := by
  constructor
  · intro h
    refine ⟨eq_append_of_word? h, ?_⟩
    simp only [word?] at h
    split at h
    · cases h
    · next hn =>
      cases h
      exact ⟨isRun_takeWhile hn, head_dropWhile source⟩
  · rintro ⟨rfl, ⟨hn, hall⟩, hr⟩
    have hword : (run ++ rest).takeWhile isWord = run := takeWhile_run hall hr
    have hrest : (run ++ rest).dropWhile isWord = rest := dropWhile_run hall hr
    simp [word?, hword, hrest, hn]

end

namespace BlockTag

/-- An opening tag as it can be read: its name is a word. -/
structure WellFormed (tag : BlockTag) : Prop where
  start : tag.start.WellFormed
  gap : IsRun isSpace tag.gap
  name : IsRun isWord tag.name
  close : tag.close.WellFormed

instance (tag : BlockTag) : Decidable tag.WellFormed :=
  decidable_of_iff (tag.start.WellFormed ∧ IsRun isSpace tag.gap ∧ IsRun isWord tag.name ∧
    tag.close.WellFormed)
    ⟨fun ⟨start, gap, name, close⟩ => ⟨start, gap, name, close⟩,
      fun ⟨start, gap, name, close⟩ => ⟨start, gap, name, close⟩⟩

/-- The tag between its braces, without the percent signs. -/
def inner (tag : BlockTag) : Text :=
  tag.start.inner ++ keyword ++ tag.gap ++ tag.name ++ tag.close.inner

section
variable {tag : BlockTag}

theorem text_eq (tag : BlockTag) : tag.text = '{' :: '%' :: (tag.inner ++ ['%', '}']) := by
  simp [text, inner, TagStart.text_eq, TagEnd.text_eq]

theorem isTagChar_keyword : ∀ c ∈ keyword, IsTagChar c := by
  have hword : keyword.all isWord = true := by decide
  exact fun c hc => .inr (.inr (List.all_eq_true.1 hword c hc))

theorem isTagChar_inner (h : tag.WellFormed) {c : Char} (hc : c ∈ tag.inner) : IsTagChar c := by
  simp only [inner, List.mem_append] at hc
  rcases hc with (((hc | hc) | hc) | hc) | hc
  · exact TagStart.isTagChar_inner h.start hc
  · exact isTagChar_keyword c hc
  · exact .inr (.inl (h.gap.2 c hc))
  · exact .inr (.inr (h.name.2 c hc))
  · exact TagEnd.isTagChar_inner h.close hc

theorem match?_start (h : tag.WellFormed) (rest : Text) : TagStart.match? (tag.text ++ rest) =
    some (tag.start, keyword ++ (tag.gap ++ (tag.name ++ (tag.close.text ++ rest)))) := by
  have htext : tag.text ++ rest = tag.start.text ++
      (keyword ++ (tag.gap ++ (tag.name ++ (tag.close.text ++ rest)))) := by
    simp [text]
  rw [htext]
  apply TagStart.match?_text_append h.start
  intro c hc
  have hkeyword : keyword = 'b' :: "lock".toList := rfl
  obtain rfl : 'b' = c := by simpa only [hkeyword, List.cons_append, List.head?_cons,
    Option.mem_some_iff] using hc
  decide

theorem match?_text_append (h : tag.WellFormed) (rest : Text) :
    match? (tag.text ++ rest) = some (tag, rest) := by
  have hgap : gap? (tag.gap ++ (tag.name ++ (tag.close.text ++ rest))) =
      some (tag.gap, tag.name ++ (tag.close.text ++ rest)) :=
    gap?_eq_some_iff.2 ⟨rfl, h.gap, h.name.head_append isSpace_of_isWord _⟩
  have hword : word? (tag.name ++ (tag.close.text ++ rest)) =
      some (tag.name, tag.close.text ++ rest) :=
    word?_eq_some_iff.2 ⟨rfl, h.name, TagEnd.isWord_head h.close rest⟩
  simp [match?, match?_start h, hgap, hword, TagEnd.match?_text_append h.close rest]

/-- A text begins with a tag exactly if it goes on from the text of one that is well formed. -/
theorem match?_eq_some_iff {source rest : Text} :
    match? source = some (tag, rest) ↔ tag.WellFormed ∧ source = tag.text ++ rest := by
  constructor
  · intro h
    refine ⟨?_, exact h⟩
    simp only [match?, Option.bind_eq_bind, Option.bind_eq_some_iff, Prod.exists] at h
    obtain ⟨start, _, hstart, _, _, gap, _, hgap, name, _, hname, close, _, hclose, h⟩ := h
    cases h
    exact ⟨TagStart.wellFormed_of_match? hstart, (gap?_eq_some_iff.1 hgap).2.1,
      (word?_eq_some_iff.1 hname).2.1, TagEnd.wellFormed_of_match? hclose⟩
  · rintro ⟨h, rfl⟩
    exact match?_text_append h rest

end
end BlockTag

namespace EndTag

/-- A closing tag as it can be read: its label, if it has one, is a word behind white space. -/
structure WellFormed (tag : EndTag) : Prop where
  start : tag.start.WellFormed
  label : ∀ label ∈ tag.label, IsRun isSpace label.1 ∧ IsRun isWord label.2
  close : tag.close.WellFormed

instance (tag : EndTag) : Decidable tag.WellFormed :=
  decidable_of_iff (tag.start.WellFormed ∧
    (∀ label ∈ tag.label, IsRun isSpace label.1 ∧ IsRun isWord label.2) ∧ tag.close.WellFormed)
    ⟨fun ⟨start, label, close⟩ => ⟨start, label, close⟩,
      fun ⟨start, label, close⟩ => ⟨start, label, close⟩⟩

def labelText (tag : EndTag) : Text := tag.label.elim [] fun (gap, word) => gap ++ word

/-- The tag between its braces, without the percent signs. -/
def inner (tag : EndTag) : Text := tag.start.inner ++ keyword ++ tag.labelText ++ tag.close.inner

section
variable {tag : EndTag}

theorem text_eq (tag : EndTag) : tag.text = '{' :: '%' :: (tag.inner ++ ['%', '}']) := by
  simp [text, inner, labelText, TagStart.text_eq, TagEnd.text_eq]

theorem isTagChar_inner (h : tag.WellFormed) {c : Char} (hc : c ∈ tag.inner) : IsTagChar c := by
  simp only [inner, List.mem_append] at hc
  rcases hc with ((hc | hc) | hc) | hc
  · exact TagStart.isTagChar_inner h.start hc
  · have hword : keyword.all isWord = true := by decide
    exact .inr (.inr (List.all_eq_true.1 hword c hc))
  · cases hl : tag.label with
    | none => simp [labelText, hl] at hc
    | some label =>
      obtain ⟨hgap, hword⟩ := h.label label hl
      simp only [labelText, hl, Option.elim_some, List.mem_append] at hc
      exact .inr (hc.imp (hgap.2 c) (hword.2 c))
  · exact TagEnd.isTagChar_inner h.close hc

theorem label?_text_append {gap word : Text} {close : TagEnd} (hgap : IsRun isSpace gap)
    (hword : IsRun isWord word) (hclose : close.WellFormed) (rest : Text) :
    label? (gap ++ (word ++ (close.text ++ rest))) = some ((gap, word), close.text ++ rest) := by
  have hg : gap? (gap ++ (word ++ (close.text ++ rest))) =
      some (gap, word ++ (close.text ++ rest)) :=
    gap?_eq_some_iff.2 ⟨rfl, hgap, hword.head_append isSpace_of_isWord _⟩
  have hw : word? (word ++ (close.text ++ rest)) = some (word, close.text ++ rest) :=
    word?_eq_some_iff.2 ⟨rfl, hword, TagEnd.isWord_head hclose rest⟩
  simp [label?, hg, hw]

theorem label?_eq_none {close : TagEnd} (h : close.WellFormed) (rest : Text) :
    label? (close.text ++ rest) = none := by
  have hword : word? (dashText close.dash ++ '%' :: '}' :: rest) = none := by
    cases close.dash <;> rfl
  simp only [label?, gap?, TagEnd.dropSpace_text_append h rest]
  split <;> simp [hword]

theorem match?_start (h : tag.WellFormed) (rest : Text) : TagStart.match? (tag.text ++ rest) =
    some (tag.start, keyword ++ (tag.labelText ++ (tag.close.text ++ rest))) := by
  have htext : tag.text ++ rest = tag.start.text ++
      (keyword ++ (tag.labelText ++ (tag.close.text ++ rest))) := by
    simp [text, labelText]
  rw [htext]
  apply TagStart.match?_text_append h.start
  intro c hc
  have hkeyword : keyword = 'e' :: "ndblock".toList := rfl
  obtain rfl : 'e' = c := by simpa only [hkeyword, List.cons_append, List.head?_cons,
    Option.mem_some_iff] using hc
  decide

theorem match?_text_append (h : tag.WellFormed) (rest : Text) :
    match? (tag.text ++ rest) = some (tag, rest) := by
  have hstart := match?_start h rest
  have hclose := TagEnd.match?_text_append h.close rest
  obtain ⟨start, label, close⟩ := tag
  cases label with
  | none => simp [match?, hstart, labelText, label?_eq_none h.close rest, hclose]
  | some label =>
    obtain ⟨gap, word⟩ := label
    obtain ⟨hgap, hword⟩ := h.label _ rfl
    simp [match?, hstart, labelText, label?_text_append hgap hword h.close rest, hclose]

/-- A text begins with a tag exactly if it goes on from the text of one that is well formed. -/
theorem match?_eq_some_iff {source rest : Text} :
    match? source = some (tag, rest) ↔ tag.WellFormed ∧ source = tag.text ++ rest := by
  constructor
  · intro h
    refine ⟨?_, exact h⟩
    simp only [match?, Option.bind_eq_bind, Option.bind_eq_some_iff, Prod.exists] at h
    obtain ⟨start, _, hstart, _, _, h⟩ := h
    have hwell := TagStart.wellFormed_of_match? hstart
    split at h
    · next label _ hlabel =>
      simp only [label?, Option.bind_eq_bind, Option.bind_eq_some_iff, Prod.exists] at hlabel h
      obtain ⟨close, _, hclose, h⟩ := h
      obtain ⟨gap, _, hgap, word, _, hword, hlabel⟩ := hlabel
      cases h
      cases hlabel
      refine ⟨hwell, ?_, TagEnd.wellFormed_of_match? hclose⟩
      rintro _ ⟨⟩
      exact ⟨(gap?_eq_some_iff.1 hgap).2.1, (word?_eq_some_iff.1 hword).2.1⟩
    · simp only [Option.bind_eq_some_iff, Prod.exists] at h
      obtain ⟨close, _, hclose, h⟩ := h
      cases h
      exact ⟨hwell, by simp, TagEnd.wellFormed_of_match? hclose⟩
  · rintro ⟨h, rfl⟩
    exact match?_text_append h rest

end
end EndTag

namespace ReferenceTag

/-- A tag that names a file is its keyword between the beginning of a tag and white space. -/
theorem prefix_of_match? {keyword source rest : Text} {tag : ReferenceTag keyword}
    (h : match? keyword source = some (tag, rest)) :
    tag.start.WellFormed ∧ IsRun isSpace tag.gap ∧
      '{' :: '%' :: (tag.start.inner ++ keyword ++ tag.gap) <+: source := by
  refine ⟨?_, ?_, ?_⟩
  · simp only [match?, Option.bind_eq_bind, Option.bind_eq_some_iff, Prod.exists] at h
    obtain ⟨start, _, hstart, _, _, gap, _, hgap, _, _, _, _, _, _, h⟩ := h
    cases h
    exact TagStart.wellFormed_of_match? hstart
  · simp only [match?, Option.bind_eq_bind, Option.bind_eq_some_iff, Prod.exists] at h
    obtain ⟨start, _, hstart, _, _, gap, _, hgap, _, _, _, _, _, _, h⟩ := h
    cases h
    exact (gap?_eq_some_iff.1 hgap).2.1
  · rw [exact h]
    simp [text, TagStart.text_eq]

end ReferenceTag
end MailTemplate
