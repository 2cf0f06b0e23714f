import MailTemplate.Proofs.Guard.Placeholder
import MailTemplate.Proofs.Text.Case

/-! Texts whose private-use characters all belong to whole words. A word begins and ends with the two
private-use characters and has nothing inside that a reader of markup or styles would stop at, so
cutting a text at a character that readers do stop at leaves all words whole. -/

namespace MailTemplate
namespace Guard

def isInner (c : Char) : Bool := isNonceChar c || c == ':'

def IsWord (word : Text) : Prop :=
  ∃ body, word = opener :: (body ++ [closer]) ∧ ∀ c ∈ body, isInner c = true

inductive Sound (words : Text → Prop) : Text → Prop
  | nil : Sound words []
  | char {c : Char} {text : Text} : c ≠ opener → c ≠ closer → Sound words text →
      Sound words (c :: text)
  | word {word text : Text} : words word → Sound words text → Sound words (word ++ text)

def Stops (c : Char) : Prop := isInner c = false ∧ c ≠ closer

def Starts (c : Char) : Prop := isInner c = false ∧ c ≠ opener

section
variable {words : Text → Prop} {text front back : Text}

theorem Sound.append (h : Sound words front) (hb : Sound words back) :
    Sound words (front ++ back) := by
  induction h with
  | nil => exact hb
  | char ho hc _ ih => exact .char ho hc ih
  | word hw _ ih =>
    rw [List.append_assoc]
    exact .word hw ih

theorem Sound.of_word {word : Text} (h : words word) : Sound words word := by
  have hs := Sound.word h Sound.nil
  rwa [List.append_nil] at hs

theorem sound_of_notMem (ho : opener ∉ text) (hc : closer ∉ text) : Sound words text := by
  induction text with
  | nil => exact .nil
  | cons c text ih =>
    rw [List.mem_cons, not_or] at ho hc
    exact .char (fun he => ho.1 he.symm) (fun he => hc.1 he.symm) (ih ho.2 hc.2)

theorem Sound.mono {others : Text → Prop} (h : Sound words text)
    (hw : ∀ word, words word → others word) : Sound others text := by
  induction h with
  | nil => exact .nil
  | char ho hc _ ih => exact .char ho hc ih
  | word hword _ ih => exact .word (hw _ hword) ih

/-- A character that may stand on both sides of a word does not stand in it. -/
theorem IsWord.notMem {word : Text} {c : Char} (h : IsWord word) (hs : Stops c) (ho : Starts c) :
    c ∉ word := by
  obtain ⟨body, rfl, hinner⟩ := h
  intro hc
  rcases List.mem_cons.1 hc with rfl | hc
  · exact ho.2 rfl
  rcases List.mem_append.1 hc with hc | hc
  · exact Bool.eq_false_iff.1 hs.1 (hinner c hc)
  · exact hs.2 (List.mem_singleton.1 hc)

theorem IsWord.cut {word : Text} (h : IsWord word) (hs : word = front ++ back) (hf : front ≠ [])
    (hb : back ≠ []) : (∀ c ∈ back, ¬ Stops c) ∧ ∀ c ∈ front, ¬ Starts c := by
  obtain ⟨body, rfl, hinner⟩ := h
  cases front with
  | nil => exact absurd rfl hf
  | cons d front =>
    have hd : opener = d := (List.cons.inj hs).1
    have hs' : body ++ [closer] = front ++ back := (List.cons.inj hs).2
    subst hd
    have hbody : body = front ++ back.dropLast := by
      have hd := congrArg List.dropLast hs'
      rwa [List.dropLast_concat, List.dropLast_append_of_ne_nil hb] at hd
    constructor
    · rintro c hc ⟨hi, hcl⟩
      have hm : c ∈ body ++ [closer] := by
        rw [hs']
        exact List.mem_append_right _ hc
      rcases List.mem_append.1 hm with hm | hm
      · rw [hinner c hm] at hi
        cases hi
      · exact hcl (List.mem_singleton.1 hm)
    · rintro c hc ⟨hi, ho⟩
      rcases List.mem_cons.1 hc with rfl | hc
      · exact ho rfl
      · have hm : c ∈ body := by
          rw [hbody]
          exact List.mem_append_left _ hc
        rw [hinner c hm] at hi
        cases hi

theorem Sound.split (hw : ∀ word, words word → IsWord word) (h : Sound words (front ++ back))
    (hcut : (∀ c ∈ back.head?, Stops c) ∨ ∀ c ∈ front.getLast?, Starts c) :
    Sound words front ∧ Sound words back := by
  generalize hs : front ++ back = whole at h
  induction h generalizing front with
  | nil =>
    obtain ⟨rfl, rfl⟩ := List.append_eq_nil_iff.1 hs
    exact ⟨.nil, .nil⟩
  | @char c text ho hc ht ih =>
    cases front with
    | nil =>
      rw [List.nil_append] at hs
      exact ⟨.nil, hs ▸ .char ho hc ht⟩
    | cons d front =>
      obtain ⟨rfl, hs'⟩ := List.cons.inj hs
      have hcut' : (∀ c ∈ back.head?, Stops c) ∨ ∀ c ∈ front.getLast?, Starts c := by
        refine hcut.imp_right fun hl c hm => hl c ?_
        cases front with
        | nil => cases hm
        | cons e front => simpa using hm
      obtain ⟨hf, hb⟩ := ih hcut' hs'
      exact ⟨.char ho hc hf, hb⟩
  | @word word text hword ht ih =>
    rcases List.append_eq_append_iff.1 hs with ⟨rest, hwhole, hback⟩ | ⟨rest, hfront, htext⟩
    · -- the cut is in front of the end of the word: it can only be at the beginning or at the end
      by_cases hf : front = []
      · subst hf
        rw [List.nil_append] at hs
        exact ⟨.nil, hs ▸ .word hword ht⟩
      · by_cases hr : rest = []
        · subst hr
          rw [List.append_nil] at hwhole
          rw [List.nil_append] at hback
          exact ⟨hwhole ▸ .of_word hword, hback ▸ ht⟩
        · obtain ⟨hstops, hstarts⟩ := (hw word hword).cut hwhole hf hr
          rcases hcut with hcut | hcut
          · obtain ⟨c, r, rfl⟩ := List.exists_cons_of_ne_nil hr
            exact absurd (hcut c (by rw [hback]; rfl)) (hstops c List.mem_cons_self)
          · have hl := List.getLast?_eq_some_getLast hf
            exact absurd (hcut _ hl) (hstarts _ (List.getLast_mem hf))
    · have hcut' : (∀ c ∈ back.head?, Stops c) ∨ ∀ c ∈ rest.getLast?, Starts c := by
        refine hcut.imp_right fun hl c hm => hl c ?_
        rw [hfront, List.getLast?_append_of_ne_nil]
        · exact hm
        · rintro rfl
          cases hm
      obtain ⟨hf, hb⟩ := ih hcut' htext.symm
      rw [hfront]
      exact ⟨.word hword hf, hb⟩

theorem Sound.tail (hw : ∀ word, words word → IsWord word) {c : Char}
    (h : Sound words (c :: text)) (hc : c ≠ opener) : Sound words text := by
  generalize hs : c :: text = whole at h
  cases h with
  | nil => cases hs
  | char _ _ ht =>
    obtain ⟨-, rfl⟩ := List.cons.inj hs
    exact ht
  | word hword _ =>
    obtain ⟨body, rfl, -⟩ := hw _ hword
    exact absurd (List.cons.inj hs).1 hc

variable (hw : ∀ word, words word → IsWord word)
include hw

theorem Sound.closer_notMem (ho : opener ∉ front) (h : Sound words (front ++ back)) :
    closer ∉ front := by
  induction front with
  | nil => exact List.not_mem_nil
  | cons c front ih =>
    rw [List.mem_cons, not_or] at ho
    have hc : c ≠ opener := fun he => ho.1 he.symm
    have hlater := ih ho.2 (h.tail hw hc)
    rw [List.cons_append] at h
    generalize hs : c :: (front ++ back) = whole at h
    cases h with
    | nil => cases hs
    | char _ hd _ =>
      rw [← (List.cons.inj hs).1] at hd
      rw [List.mem_cons, not_or]
      exact ⟨fun he => hd he.symm, hlater⟩
    | word hword _ =>
      obtain ⟨body, rfl, -⟩ := hw _ hword
      exact absurd (List.cons.inj hs).1 hc

theorem Sound.of_append (ho : opener ∉ front) (h : Sound words (front ++ back)) :
    Sound words back := by
  induction front with
  | nil => exact h
  | cons c front ih =>
    rw [List.mem_cons, not_or] at ho
    exact ih ho.2 (h.tail hw fun he => ho.1 he.symm)

theorem Sound.dropWhile {p : Char → Bool} (h : Sound words text)
    (hp : (∀ c, p c = false → Stops c) ∨ ∀ c, p c = true → Starts c) :
    Sound words (text.takeWhile p) ∧ Sound words (text.dropWhile p) := by
  have hs : text.takeWhile p ++ text.dropWhile p = text := List.takeWhile_append_dropWhile
  rw [← hs] at h
  refine h.split hw (hp.imp (fun hp c hc => hp c ?_) fun hp c hc => hp c ?_)
  · cases hd : text.dropWhile p with
    | nil =>
      rw [hd] at hc
      cases hc
    | cons d rest =>
      rw [hd] at hc
      rw [← Option.some.inj hc]
      have hne : text.dropWhile p ≠ [] := by simp [hd]
      have hhead := List.head_dropWhile_not p hne
      simpa [hd] using hhead
  · exact List.mem_takeWhile_imp (List.mem_of_getLast? hc)

theorem Sound.dropEndWhile {p : Char → Bool} (h : Sound words text)
    (hp : ∀ c, p c = true → Stops c) : Sound words (Text.dropEndWhile p text) := by
  have hs : Text.dropEndWhile p text ++ (text.reverse.takeWhile p).reverse = text := by
    rw [Text.dropEndWhile, ← List.reverse_append, List.takeWhile_append_dropWhile,
      List.reverse_reverse]
  rw [← hs] at h
  refine (h.split hw (.inl fun c hc => hp c ?_)).1
  have hm : c ∈ (text.reverse.takeWhile p).reverse := List.mem_of_mem_head? hc
  exact List.mem_takeWhile_imp (List.mem_reverse.1 hm)

/-- A mark whose first and last characters no word is cut at cuts a text into sound parts. -/
theorem Sound.cut? {mark before rest : Text} (h : Sound words text)
    (hc : Text.cut? mark text = some (before, rest)) (hf : ∀ c ∈ mark.head?, Stops c)
    (hl : ∀ c ∈ mark.getLast?, Starts c) (hm : mark ≠ []) :
    Sound words before ∧ Sound words rest := by
  rw [Text.eq_append_of_cut? hc, List.append_assoc] at h
  have hhead : ∀ c ∈ (mark ++ rest).head?, Stops c := by
    intro c hc
    obtain ⟨m, mark, rfl⟩ := List.exists_cons_of_ne_nil hm
    exact hf c hc
  obtain ⟨hb, hmr⟩ := h.split hw (.inl hhead)
  exact ⟨hb, (hmr.split hw (.inr hl)).2⟩

end

section
variable {words others : Text → Prop} {text : Text}

theorem toLower_ne {c d : Char} (hd : d.isAlpha = false) (h : c ≠ d) : c.toLower ≠ d :=
  fun he => h ((Text.toLower_eq_iff hd).1 he)

theorem Sound.lower (h : Sound words text) (hl : ∀ word, words word → others (Text.lower word)) :
    Sound others (Text.lower text) := by
  induction h with
  | nil => exact .nil
  | char ho hc _ ih => exact .char (toLower_ne (by decide) ho) (toLower_ne (by decide) hc) ih
  | word hword _ ih =>
    rw [Text.lower_append]
    exact .word (hl _ hword) ih

theorem isAlpha_or_of_isInner {c : Char} (h : isInner c = true) :
    c.isAlpha = true ∨ c.isDigit = true ∨ c = '-' ∨ c = '_' ∨ c = ':' := by
  simp only [isInner, isNonceChar, Char.isAlphanum, Bool.or_eq_true, beq_iff_eq] at h
  tauto

theorem isSpace_of_isInner {c : Char} (h : isInner c = true) : Text.isSpace c = false := by
  rcases isAlpha_or_of_isInner h with ha | hd | rfl | rfl | rfl
  · exact Text.isSpace_of_isAlpha ha
  · exact Text.isSpace_of_isDigit hd
  · decide
  · decide
  · decide

theorem stops_of_isSpace {c : Char} (h : Text.isSpace c = true) : Stops c ∧ Starts c := by
  have hi : isInner c = false := by
    by_contra hne
    rw [isSpace_of_isInner (Bool.not_eq_false _ ▸ hne)] at h
    cases h
  refine ⟨⟨hi, ?_⟩, hi, ?_⟩
  · rintro rfl
    revert h
    decide
  · rintro rfl
    revert h
    decide

theorem isInner_toLower (c : Char) : isInner c.toLower = isInner c := by
  refine Text.apply_toLower (b := true) (fun c hc => ?_) c
  simp [isInner, isNonceChar, Char.isAlphanum, hc]

theorem IsWord.lower {word : Text} (h : IsWord word) : IsWord (Text.lower word) := by
  obtain ⟨body, rfl, hinner⟩ := h
  refine ⟨Text.lower body, ?_, fun c hc => ?_⟩
  · rw [Text.lower_cons, Text.lower_append]
    rfl
  · obtain ⟨d, hd, rfl⟩ := List.mem_map.1 hc
    rw [isInner_toLower, hinner d hd]

end
end Guard
end MailTemplate
