import MailTemplate.Proofs.Style.Scanning
import Mathlib.Algebra.Group.Nat.Even

/-! Where a text is split. What is escaped, quoted or in parentheses at a place is told by the text in
front of it: by the backslashes right there, by the last quotation mark that opened a string, and by a
parenthesis that nothing behind it closes. A separator splits exactly where it is none of the three, and
the parts in front of it and behind it are those the two texts have by themselves. -/

namespace MailTemplate

def Nesting.after (text : Text) : Nesting := text.foldl step outside

namespace Text

/-- Behind an odd number of backslashes, the last of which takes away the meaning of what comes next. -/
def IsEscaped (front : Text) : Prop := Odd (front.reverse.takeWhile (· == '\\')).length

/-- Inside of a string: a quotation mark opened one, and it has not been closed by the same mark. Marks
in other strings open none. -/
def IsQuoted (front : Text) : Prop :=
  ∃ before quote inside, ∃ _ : front = before ++ quote :: inside, (quote = '"' ∨ quote = '\'') ∧
    ¬ IsEscaped before ∧ ¬ IsQuoted before ∧
      ∀ part, part ++ [quote] <+: inside → IsEscaped (before ++ quote :: part)
termination_by front.length
decreasing_by
  subst front
  simp

/-- What comes next is neither escaped nor in a string, so a parenthesis has its meaning. -/
def IsBare (front : Text) : Prop := ¬ IsEscaped front ∧ ¬ IsQuoted front

/-- A parenthesis of the piece behind the settled text is still open at its end: every one that closes a
parenthesis behind it closes another one. -/
def HoldsOpen (settled piece : Text) : Prop :=
  ∃ before inside, ∃ _ : piece = before ++ '(' :: inside, IsBare (settled ++ before) ∧
    ∀ part, (_ : part ++ [')'] <+: inside) → IsBare (settled ++ before ++ '(' :: part) →
      HoldsOpen (settled ++ before ++ ['(']) part
termination_by piece.length
decreasing_by
  have hlength := List.IsPrefix.length_le ‹part ++ [')'] <+: inside›
  subst piece
  simp only [List.length_append, List.length_cons, List.length_nil] at hlength ⊢
  omega

/-- The separator between two texts stands between two parts of the whole. -/
def IsSplitPoint (separator : Char) (front back : Text) : Prop :=
  ∃ parts others, parts ≠ [] ∧ others ≠ [] ∧
    splitOutside separator (front ++ separator :: back) = parts ++ others ∧
      joinWith [separator] parts = front ∧ joinWith [separator] others = back

/-- The separator between two texts is inside of parentheses, and none of those that split stands between
the opening one and it. -/
def IsEnclosed (separator : Char) (front back : Text) : Prop :=
  ∃ settled piece, front = settled ++ piece ∧ HoldsOpen settled piece ∧
    ∀ before part, piece = before ++ separator :: part →
      ¬ IsSplitPoint separator (settled ++ before) (part ++ separator :: back)

end Text
open Text

namespace Nesting

section
variable {nesting : Nesting} {c quote : Char} {front settled piece : Text}

theorem after_concat (front : Text) (c : Char) : after (front ++ [c]) = (after front).step c :=
  List.foldl_concat ..

theorem isSound_after (front : Text) : (after front).IsSound := isSound_outside.foldl front

theorem escaped_step (nesting : Nesting) (c : Char) :
    (nesting.step c).escaped = (!nesting.escaped && c == '\\') := by
  grind [step]

theorem escaped_after_iff (front : Text) : (after front).escaped = true ↔ IsEscaped front := by
  induction front using List.reverseRecOn with
  | nil => simp [after, outside, IsEscaped]
  | append_singleton front c ih =>
    have hreverse : (front ++ [c]).reverse = c :: front.reverse := by simp
    rw [after_concat, escaped_step, IsEscaped, hreverse, List.takeWhile_cons]
    by_cases hb : c = '\\'
    · rw [IsEscaped] at ih
      simp [hb, Nat.odd_add_one, ← ih]
    · simp [hb]

/-- A string is open if it was before and this is not its end, or if it begins here. -/
theorem quote_step_iff (h : nesting.IsSound) : (nesting.step c).quote = some quote ↔
    (nesting.quote = some quote ∧ (c = quote → nesting.escaped = true)) ∨
      (nesting.quote = none ∧ nesting.escaped = false ∧ c = quote ∧ (quote = '"' ∨ quote = '\'')) := by
  have hmark : nesting.quote = some quote → quote ≠ '\\' := by
    intro hq
    rcases h quote hq with rfl | rfl <;> decide
  grind [step]

theorem depth_step_open (he : nesting.escaped = false) (hq : nesting.quote = none) :
    (nesting.step '(').depth = nesting.depth + 1 := by
  simp [step, he, hq]

theorem depth_step_close (he : nesting.escaped = false) (hq : nesting.quote = none) :
    (nesting.step ')').depth = nesting.depth - 1 := by
  simp [step, he, hq]

theorem depth_step_le (h : c = '(' → ¬ (nesting.escaped = false ∧ nesting.quote = none)) :
    (nesting.step c).depth ≤ nesting.depth := by
  grind [step]

theorem le_depth_step (h : c = ')' → ¬ (nesting.escaped = false ∧ nesting.quote = none)) :
    nesting.depth ≤ (nesting.step c).depth := by
  grind [step]

/-- The string that is open was opened by the last of its marks that could open one. -/
theorem quote_after_iff (front : Text) (quote : Char) : (after front).quote = some quote ↔
    ∃ before inside, front = before ++ quote :: inside ∧ (quote = '"' ∨ quote = '\'') ∧
      (after before).escaped = false ∧ (after before).quote = none ∧
        ∀ part, part ++ [quote] <+: inside → (after (before ++ quote :: part)).escaped = true := by
  induction front using List.reverseRecOn with
  | nil => simp [after, outside]
  | append_singleton front c ih =>
    rw [after_concat, quote_step_iff (isSound_after front), ih]
    constructor
    · rintro (⟨⟨before, inside, rfl, hmark, hesc, hnone, hlater⟩, hlast⟩ | ⟨hnone, hesc, rfl, hmark⟩)
      · refine ⟨before, inside ++ [c], by simp, hmark, hesc, hnone, fun part hp => ?_⟩
        rcases List.prefix_concat_iff.1 hp with heq | hp
        · obtain ⟨rfl, hc⟩ := List.append_inj' heq rfl
          exact hlast (List.singleton_inj.1 hc).symm
        · exact hlater part hp
      · refine ⟨front, [], rfl, hmark, hesc, hnone, fun part hp => ?_⟩
        simp at hp
    · rintro ⟨before, inside, hfront, hmark, hesc, hnone, hlater⟩
      rcases List.eq_nil_or_concat' inside with rfl | ⟨inside, last, rfl⟩
      · obtain ⟨rfl, hc⟩ := List.append_inj' hfront rfl
        exact .inr ⟨hnone, hesc, List.singleton_inj.1 hc, hmark⟩
      · rw [← List.cons_append, ← List.append_assoc] at hfront
        obtain ⟨rfl, hc⟩ := List.append_inj' hfront rfl
        obtain rfl := List.singleton_inj.1 hc
        refine .inl ⟨⟨before, inside, rfl, hmark, hesc, hnone, fun part hp => ?_⟩, ?_⟩
        · exact hlater part (hp.trans (List.prefix_append _ _))
        · rintro rfl
          exact hlater inside List.prefix_rfl

theorem isQuoted_iff (front : Text) : IsQuoted front ↔ (after front).quote ≠ none := by
  rw [IsQuoted, Option.ne_none_iff_exists']
  constructor
  · rintro ⟨before, quote, inside, hfront, hmark, hesc, hnone, hlater⟩
    rw [isQuoted_iff before, not_not] at hnone
    rw [← escaped_after_iff, Bool.not_eq_true] at hesc
    exact ⟨quote, (quote_after_iff front quote).2 ⟨before, inside, hfront, hmark, hesc, hnone,
      fun part hp => (escaped_after_iff _).2 (hlater part hp)⟩⟩
  · rintro ⟨quote, hq⟩
    obtain ⟨before, inside, hfront, hmark, hesc, hnone, hlater⟩ := (quote_after_iff front quote).1 hq
    refine ⟨before, quote, inside, hfront, hmark, ?_, ?_, fun part hp =>
      (escaped_after_iff _).1 (hlater part hp)⟩
    · rw [← escaped_after_iff, hesc]
      exact Bool.false_ne_true
    · rw [isQuoted_iff before, hnone]
      exact fun h => h rfl
termination_by front.length
decreasing_by all_goals
  rw [hfront]
  simp

theorem isBare_iff (front : Text) :
    IsBare front ↔ (after front).escaped = false ∧ (after front).quote = none := by
  rw [IsBare, ← escaped_after_iff, isQuoted_iff, Bool.not_eq_true, not_not]

theorem depth_after_open (h : IsBare front) :
    (after (front ++ ['('])).depth = (after front).depth + 1 := by
  obtain ⟨hesc, hnone⟩ := (isBare_iff front).1 h
  rw [after_concat, depth_step_open hesc hnone]

theorem depth_after_close (h : IsBare front) :
    (after (front ++ [')'])).depth = (after front).depth - 1 := by
  obtain ⟨hesc, hnone⟩ := (isBare_iff front).1 h
  rw [after_concat, depth_step_close hesc hnone]

theorem depth_after_le (h : c = '(' → ¬ IsBare front) :
    (after (front ++ [c])).depth ≤ (after front).depth := by
  rw [after_concat]
  exact depth_step_le fun hc => (isBare_iff front).not.1 (h hc)

theorem le_depth_after (h : c = ')' → ¬ IsBare front) :
    (after front).depth ≤ (after (front ++ [c])).depth := by
  rw [after_concat]
  exact le_depth_step fun hc => (isBare_iff front).not.1 (h hc)

/-- Behind a parenthesis that opens here, everything is deeper than what stands in front of it. -/
structure StaysInside (before inside : Text) : Prop where
  bare : IsBare before
  lt : ∀ part, part <+: inside → (after before).depth < (after (before ++ '(' :: part)).depth

/-- A piece that ends deeper than it begins holds a parenthesis that is not closed: the one behind the
last place that is no deeper than the beginning. -/
theorem exists_staysInside (settled piece : Text)
    (h : (after settled).depth < (after (settled ++ piece)).depth) :
    ∃ before inside, piece = before ++ '(' :: inside ∧ StaysInside (settled ++ before) inside ∧
      (after (settled ++ before)).depth ≤ (after settled).depth := by
  -- `before` must be no deeper than the beginning: then every deeper end of the piece is deeper than it
  induction piece using List.reverseRecOn with
  | nil => simp at h
  | append_singleton piece c ih =>
    rw [← List.append_assoc] at h
    by_cases hd : (after settled).depth < (after (settled ++ piece)).depth
    · -- still deep before the last character: it only has to be one of the places inside
      obtain ⟨before, inside, rfl, ⟨hbare, hlt⟩, hle⟩ := ih hd
      refine ⟨before, inside ++ [c], by simp, ⟨hbare, fun part hp => ?_⟩, hle⟩
      rcases List.prefix_concat_iff.1 hp with rfl | hp
      · simpa using hle.trans_lt h
      · exact hlt part hp
    · by_cases hopen : c = '(' ∧ IsBare (settled ++ piece)
      · obtain ⟨rfl, hbare⟩ := hopen
        refine ⟨piece, [], rfl, ⟨hbare, fun part hp => ?_⟩, not_lt.1 hd⟩
        rw [List.prefix_nil.1 hp, depth_after_open hbare]
        exact Nat.lt_succ_self _
      · have hle := depth_after_le fun hc => not_and.1 hopen hc
        exact absurd (h.trans_le hle) hd

/-- If parentheses that close have others to close behind a place, no text that goes on there gets out of
the depth it has. -/
theorem depth_lt_of_closes {inside : Text} {depth : Nat} (hstart : depth < (after settled).depth)
    (hcloses : ∀ part, part ++ [')'] <+: inside → IsBare (settled ++ part) →
      ∃ before rest, part = before ++ '(' :: rest ∧ StaysInside (settled ++ before) rest)
    (part : Text) (hp : part <+: inside) :
    ∀ front, front <+: part → depth < (after (settled ++ front)).depth := by
  induction part using List.reverseRecOn with
  | nil =>
    intro front hf
    rwa [List.prefix_nil.1 hf, List.append_nil]
  | append_singleton part c ih =>
    have hpart := ih ((List.prefix_append part [c]).trans hp)
    intro front hf
    rcases List.prefix_concat_iff.1 hf with rfl | hf
    · rw [← List.append_assoc]
      by_cases hclose : c = ')' ∧ IsBare (settled ++ part)
      · -- it closes a parenthesis of the part, in front of which the text was deep enough already
        obtain ⟨rfl, hbare⟩ := hclose
        obtain ⟨before, rest, rfl, hstays⟩ := hcloses part hp hbare
        have hbefore := hpart before (List.prefix_append _ _)
        have hrest := hstays.lt rest List.prefix_rfl
        rw [List.append_assoc] at hrest
        rw [depth_after_close hbare]
        omega
      · exact (hpart part List.prefix_rfl).trans_le (le_depth_after fun hc => not_and.1 hclose hc)
    · exact hpart front hf

theorem holdsOpen_iff (settled piece : Text) : HoldsOpen settled piece ↔
    ∃ before inside, piece = before ++ '(' :: inside ∧ StaysInside (settled ++ before) inside := by
  rw [HoldsOpen]
  constructor
  · rintro ⟨before, inside, hpiece, hbare, hcloses⟩
    have hdepth := depth_after_open hbare
    refine ⟨before, inside, hpiece, hbare, fun part hp => ?_⟩
    rw [List.append_cons]
    refine depth_lt_of_closes (by omega) (fun part hp hclose => ?_) part hp part List.prefix_rfl
    rw [← holdsOpen_iff _ part]
    rw [← List.append_cons] at hclose
    exact hcloses part hp hclose
  · rintro ⟨before, inside, hpiece, hbare, hlt⟩
    have hdepth := depth_after_open hbare
    refine ⟨before, inside, hpiece, hbare, fun part hp hclose => ?_⟩
    have hbehind := hlt (part ++ [')']) hp
    rw [← List.cons_append, ← List.append_assoc, depth_after_close hclose, List.append_cons] at hbehind
    obtain ⟨open?, rest, hpart, hstays, -⟩ := exists_staysInside (settled ++ before ++ ['(']) part
      (by omega)
    exact (holdsOpen_iff _ part).2 ⟨open?, rest, hpart, hstays⟩
termination_by piece.length
decreasing_by all_goals
  have hlength := List.IsPrefix.length_le ‹part ++ [')'] <+: inside›
  subst piece
  simp only [List.length_append, List.length_cons, List.length_nil] at hlength ⊢
  omega

theorem depth_pos_of_holdsOpen (h : HoldsOpen settled piece) : 0 < (after (settled ++ piece)).depth := by
  obtain ⟨before, inside, rfl, hstays⟩ := (holdsOpen_iff settled piece).1 h
  have hlt := hstays.lt inside List.prefix_rfl
  rw [List.append_assoc] at hlt
  omega

theorem after_eq_outside_iff (front : Text) : after front = outside ↔
    ¬ IsEscaped front ∧ ¬ IsQuoted front ∧ (after front).depth = 0 := by
  rw [← escaped_after_iff, isQuoted_iff, not_not, Bool.not_eq_true]
  obtain ⟨depth, quote, escaped⟩ := after front
  simp only [outside, mk.injEq]
  tauto

end
end Nesting

namespace Text
open Nesting

section
variable {separator : Char} {nesting : Nesting} {front back : Text} {parts : List Text}

/-- A separator opens and closes nothing, so the scan is outside at the end of parts that close what
they open. -/
theorem after_joinWith (hn : IsNeutral separator) (h : ∀ part ∈ parts, after part = .outside) :
    after (joinWith [separator] parts) = .outside := by
  induction parts with
  | nil => rfl
  | cons part parts ih =>
    have hpart := h part List.mem_cons_self
    cases parts with
    | nil => exact hpart
    | cons next parts =>
      have hrest := ih fun part hm => h part (List.mem_cons_of_mem _ hm)
      rw [after] at hpart hrest ⊢
      rw [joinWith, List.foldl_append, List.foldl_append, hpart, List.foldl_cons, List.foldl_nil,
        step_neutral isSound_outside hn]
      exact hrest

/-- Where the scan is outside, the parts in front of a separator do not depend on what stands behind it. -/
theorem splitFrom_append_separator (hn : IsNeutral separator) (back : Text)
    (ho : front.foldl Nesting.step nesting = .outside) :
    splitFrom separator nesting (front ++ separator :: back) =
      splitFrom separator nesting front ++ splitOutside separator back := by
  have hsplits := splits_splitFrom separator nesting front
  generalize splitFrom separator nesting front = parts at hsplits
  induction hsplits with
  | last h => exact h.splitFrom_separator ho back
  | part h hout hs ih =>
    rw [List.append_assoc, List.cons_append, h.splitFrom_separator hout, ih, List.cons_append]
    rw [List.foldl_append, hout, List.foldl_cons, step_neutral isSound_outside hn] at ho
    exact ho

theorem isSplitPoint_iff (hn : IsNeutral separator) :
    IsSplitPoint separator front back ↔ after front = .outside := by
  constructor
  · rintro ⟨parts, others, -, hothers, hsplit, rfl, -⟩
    have hclosed := ((splits_splitFrom separator .outside
      (joinWith [separator] parts ++ separator :: back)).parts rfl).2
    rw [← splitOutside, hsplit, List.dropLast_append_of_ne_nil hothers] at hclosed
    exact after_joinWith hn fun part hm => hclosed part (List.mem_append_left _ hm)
  · intro ho
    exact ⟨splitOutside separator front, splitOutside separator back, splitFrom_ne_nil _ _ _,
      splitFrom_ne_nil _ _ _, splitFrom_append_separator hn back ho, joinWith_splitOutside _ _,
      joinWith_splitOutside _ _⟩

/-- A parenthesis that is open at the end of a text is one behind the last separator that splits. -/
theorem isEnclosed_iff (hn : IsNeutral separator) :
    IsEnclosed separator front back ↔ 0 < (after front).depth := by
  constructor
  · rintro ⟨settled, piece, rfl, hopen, -⟩
    exact depth_pos_of_holdsOpen hopen
  · intro hd
    obtain ⟨before, inside, rfl, hstays, -⟩ := exists_staysInside [] front hd
    rw [List.nil_append] at hstays
    refine ⟨before, '(' :: inside, rfl, ?_, ?_⟩
    · exact (holdsOpen_iff _ _).2 ⟨[], inside, rfl, by rwa [List.append_nil]⟩
    · intro front part hpiece hsplit
      rw [isSplitPoint_iff hn] at hsplit
      cases front with
      | nil => exact hn.2.2.2.1 (List.cons.inj hpiece).1.symm
      | cons c front =>
        obtain ⟨rfl, rfl⟩ := List.cons.inj hpiece
        have hlt := hstays.lt front (List.prefix_append _ _)
        rw [hsplit] at hlt
        exact Nat.not_lt_zero _ hlt

end

/-- The parts of a text make the text up, each of them is one part, and a separator stands between two of
them if it is not escaped, not in a string and not in parentheses opened since the one before. -/
theorem splitOutside_spec {separator : Char} (h : separator = ';' ∨ separator = ',') (text : Text) :
    joinWith [separator] (splitOutside separator text) = text ∧
      (∀ part ∈ splitOutside separator text, splitOutside separator part = [part]) ∧
        ∀ front back, text = front ++ separator :: back → (IsSplitPoint separator front back ↔
          ¬ IsEscaped front ∧ ¬ IsQuoted front ∧ ¬ IsEnclosed separator front back) := by
  have hn : IsNeutral separator := by
    rcases h with rfl | rfl <;> decide
  refine ⟨joinWith_splitOutside _ _, ((splits_splitFrom separator .outside text).parts rfl).1,
    fun front back _ => ?_⟩
  rw [isSplitPoint_iff hn, after_eq_outside_iff, isEnclosed_iff hn, Nat.not_lt, Nat.le_zero]

/-- The semicolons of an address and of a string do not split; the one between them does. -/
theorem splitOutside_spec_declarations : (';' = ';' ∨ ';' = ',') ∧
    splitOutside ';' "a:url(x;y);b:'c;d'".toList = ["a:url(x;y)".toList, "b:'c;d'".toList] ∧
      (¬ IsEscaped "a:url(x;y)".toList ∧ ¬ IsQuoted "a:url(x;y)".toList ∧
        ¬ IsEnclosed ';' "a:url(x;y)".toList "b:'c;d'".toList) ∧
          ¬ IsSplitPoint ';' "a:url(x".toList "y);b:'c;d'".toList := by
  have hsplits := (splitOutside_spec (.inl rfl) "a:url(x;y);b:'c;d'".toList).2.2
  refine ⟨.inl rfl, rfl, (hsplits _ _ rfl).1 ?_, fun hsplit => ((hsplits _ _ rfl).1 hsplit).2.2 ?_⟩
  · exact ⟨["a:url(x;y)".toList], ["b:'c;d'".toList], List.cons_ne_nil _ _, List.cons_ne_nil _ _,
      rfl, rfl, rfl⟩
  · exact (isEnclosed_iff (by decide)).2 (by decide)

end Text
end MailTemplate
