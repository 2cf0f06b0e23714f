import MailTemplate.Proofs.Style.EscapedStyles
import MailTemplate.Proofs.Style.Joined

/-! Stylesheets made of rules. Neither comments nor braces are looked for with strings in mind: a body is
read as a whole if it holds no beginning of a comment and closes its blocks, wherever these marks stand.
If every part of the bodies declares something, the rules are read as they are written only then: what is
lost can be counted. -/

namespace MailTemplate

/-- Whether the strings of a text are all closed, and braces and the marks of comments stand in strings
only. -/
def Nesting.hidesMarks : Nesting → Text → Bool
  | nesting, [] => nesting.quote.isNone
  | nesting, c :: text =>
    (nesting.quote.isSome || !(c == '{' || c == '}' || "/*".toList.isPrefixOf (c :: text) ||
      "*/".toList.isPrefixOf (c :: text))) && hidesMarks (nesting.step c) text

namespace Sheet

/-- A rule as it is written: selectors and a body in braces. -/
def ruleText (rule : Text × Text) : Text := rule.1 ++ '{' :: (rule.2 ++ ['}'])

/-- Rules as they are written one after the other. -/
def sheetText (written : List (Text × Text)) : Text := written.flatMap ruleText

/-- Text for the selectors of a rule: it begins nothing else and holds no comment. -/
structure IsSelectorText (selectors : Text) : Prop where
  marks : ∀ c ∈ selectors, c ≠ '{' ∧ c ≠ '}' ∧ c ≠ ';' ∧ c ≠ '@'
  comment : ¬ "/*".toList <:+: selectors

/-- A body that begins no comment and closes all of its blocks and none of those around it. -/
structure IsWhole (body : Text) : Prop where
  comment : ¬ "/*".toList <:+: body
  isBody : IsBody 0 body

instance (selectors : Text) : Decidable (IsSelectorText selectors) :=
  @decidable_of_iff _ ((∀ c ∈ selectors, c ≠ '{' ∧ c ≠ '}' ∧ c ≠ ';' ∧ c ≠ '@') ∧
      ¬ "/*".toList <:+: selectors)
    ⟨fun ⟨marks, comment⟩ => ⟨marks, comment⟩, fun ⟨marks, comment⟩ => ⟨marks, comment⟩⟩
    (@instDecidableAnd _ _ (List.decidableBAll _ _) inferInstance)

instance (body : Text) : Decidable (IsWhole body) :=
  decidable_of_iff (¬ "/*".toList <:+: body ∧ IsBody 0 body)
    ⟨fun ⟨comment, isBody⟩ => ⟨comment, isBody⟩, fun ⟨comment, isBody⟩ => ⟨comment, isBody⟩⟩

/-- A rule of which everything shows: a selector is understood, and every part of the body declares
something or is blank. -/
structure IsShown (rule : Text × Text) : Prop where
  isSome : (rule? rule.1 rule.2).isSome = true
  tidy : ∀ part ∈ Text.splitOutside ';' rule.2, Declaration.IsTidy part

instance (rule : Text × Text) : Decidable (IsShown rule) :=
  @decidable_of_iff _ ((rule? rule.1 rule.2).isSome = true ∧
      ∀ part ∈ Text.splitOutside ';' rule.2, Declaration.IsTidy part)
    ⟨fun ⟨isSome, tidy⟩ => ⟨isSome, tidy⟩, fun ⟨isSome, tidy⟩ => ⟨isSome, tidy⟩⟩
    (@instDecidableAnd _ _ inferInstance (List.decidableBAll _ _))

section
variable {selectors body other css rest plain front : Text} {written : List (Text × Text)}
  {rule : Text × Text} {c : Char} {f : Char → Bool}

theorem isSpace_of_isAsciiSpace (h : Text.isAsciiSpace c = true) : Text.isSpace c = true := by
  simp only [Text.isAsciiSpace, Bool.or_eq_true, beq_iff_eq] at h
  rcases h with (((rfl | rfl) | rfl) | rfl) | rfl <;> decide

theorem rule?_dropWhile (selectors body : Text) :
    rule? (selectors.dropWhile Text.isAsciiSpace) body = rule? selectors body := by
  have hlists : (Text.splitOutside ',' (selectors.dropWhile Text.isAsciiSpace)).filterMap
      Selector.ofText? = (Text.splitOutside ',' selectors).filterMap Selector.ofText? := by
    induction selectors with
    | nil => rfl
    | cons c selectors ih =>
      by_cases hc : Text.isAsciiSpace c = true
      · have hspace := isSpace_of_isAsciiSpace hc
        have hcomma : c ≠ ',' := by
          rintro rfl
          cases hc
        rw [List.dropWhile_cons_of_pos hc, ih, Text.splitOutside, Text.splitOutside,
          Text.splitFrom_cons fun h => hcomma h.2, Text.step_outside_of_isSpace hspace]
        have hread (text : Text) : Selector.ofText? (c :: text) = Selector.ofText? text := by
          rw [Selector.ofText?, Selector.parts?, dif_pos hspace]
          rfl
        cases Text.splitFrom ',' .outside selectors with
        | nil => rfl
        | cons first parts => simp [List.filterMap_cons, hread]
      · rw [List.dropWhile_cons_of_neg hc]
  rw [rule?, rule?, hlists]

theorem understood_cons (rule : Text × Text) (written : List (Text × Text)) :
    understood (rule :: written) = (rule? rule.1 rule.2).toList ++ understood written := by
  cases h : rule? rule.1 rule.2 <;> simp [understood, h]

theorem understood_append (front back : List (Text × Text)) :
    understood (front ++ back) = understood front ++ understood back := List.filterMap_append

theorem Statements.fillers {found : List (Text × Text)} (hf : ∀ c ∈ front, isFiller c = true)
    (h : Statements css found) : Statements (front ++ css) found := by
  induction front with
  | nil => exact h
  | cons c front ih =>
    exact .filler (hf c List.mem_cons_self) (ih fun d hd => hf d (List.mem_cons_of_mem _ hd))

theorem IsSelectorText.exists_prelude (h : IsSelectorText selectors) : ∃ space core,
    selectors = space ++ core ∧ (∀ c ∈ space, isFiller c = true) ∧ IsPrelude core ∧
      ∀ body, rule? core body = rule? selectors body := by
  refine ⟨selectors.takeWhile Text.isAsciiSpace, selectors.dropWhile Text.isAsciiSpace,
    List.takeWhile_append_dropWhile.symm, ?_, ⟨?_, ?_⟩, rule?_dropWhile selectors⟩
  · intro c hc
    simp [isFiller, List.mem_takeWhile_imp hc]
  · intro c hc
    have hhead := List.head?_dropWhile_not Text.isAsciiSpace selectors
    rw [Option.mem_def.1 hc] at hhead
    obtain ⟨-, hclose, hsemicolon, hat⟩ :=
      h.marks c ((List.dropWhile_suffix _).subset (List.mem_of_head? hc))
    exact ⟨by simpa [isFiller, hsemicolon] using hhead, hclose, hat⟩
  · exact fun hm => (h.marks _ ((List.dropWhile_suffix _).subset hm)).1 rfl

theorem rule?_congr {found : Rule} (h : rule? selectors body = some found) (other : Text) :
    rule? selectors other = some ⟨found.selectors, Declaration.block other⟩ := by
  rw [rule?] at h ⊢
  split at h
  · cases h
  · next hl =>
    cases h
    simp

theorem statements_ruleText (hs : IsSelectorText rule.1) (hb : IsBody 0 rule.2) : ∃ sections,
    Statements (ruleText rule) sections ∧ understood sections = understood [rule] := by
  obtain ⟨selectors, body⟩ := rule
  obtain ⟨space, core, rfl, hspace, hcore, hrule⟩ := hs.exists_prelude
  refine ⟨[(core, body)], ?_, ?_⟩
  · simpa [ruleText] using Statements.fillers hspace (.rule hcore hb .nil)
  · rw [understood_cons, understood_cons, hrule]

theorem statements_sheetText
    (h : ∀ rule ∈ written, IsSelectorText rule.1 ∧ IsBody 0 rule.2) : ∃ sections,
      Statements (sheetText written) sections ∧ understood sections = understood written := by
  induction written with
  | nil => exact ⟨[], .nil, rfl⟩
  | cons rule written ih =>
    obtain ⟨hs, hb⟩ := h rule List.mem_cons_self
    obtain ⟨first, hfirst, hfound⟩ := statements_ruleText hs hb
    obtain ⟨more, hmore, hlater⟩ := ih fun other hm => h other (List.mem_cons_of_mem _ hm)
    refine ⟨first ++ more, hfirst.append hmore, ?_⟩
    rw [understood_append, hfound, hlater, ← understood_append]
    rfl

theorem Uncommented.append (h : Uncommented front (css ++ rest) other)
    (hm : Uncommented css rest plain) : Uncommented (front ++ css) rest (other ++ plain) := by
  generalize ht : css ++ rest = text at h
  induction h with
  | nil => exact hm
  | char hc _ ih =>
    subst ht
    exact .char (by simpa using hc) (ih rfl)
  | comment hb _ ih => simpa using Uncommented.comment hb (ih ht)

theorem uncommented_ruleText (hs : ¬ "/*".toList <:+: rule.1) (hb : ¬ "/*".toList <:+: rule.2)
    (rest : Text) : Uncommented (ruleText rule) rest (ruleText rule) := by
  have hbrace : ∀ {c : Char} {text : Text}, c ≠ '/' → ¬ "/*".toList <+: c :: text := by
    intro c text hc hp
    exact hc (List.cons_prefix_cons.1 hp).1.symm
  have hclose : Uncommented ['}'] rest ['}'] := .char (hbrace (by decide)) .nil
  have hbody : Uncommented (rule.2 ++ ['}']) rest (rule.2 ++ ['}']) :=
    .append ((uncommented_self hb).append_right (by simp)) hclose
  exact .append ((uncommented_self hs).append_right (by simp)) (.char (hbrace (by decide)) hbody)

theorem uncommented_sheetText
    (h : ∀ rule ∈ written, IsSelectorText rule.1 ∧ IsWhole rule.2) (rest : Text) :
    Uncommented (sheetText written) rest (sheetText written) := by
  induction written with
  | nil => exact .nil
  | cons rule written ih =>
    obtain ⟨hs, hb⟩ := h rule List.mem_cons_self
    exact (uncommented_ruleText hs.comment hb.comment _).append
      (ih fun other hm => h other (List.mem_cons_of_mem _ hm))

theorem parse_sheetText (h : ∀ rule ∈ written, IsSelectorText rule.1 ∧ IsWhole rule.2) :
    parse (sheetText written) = .ok (understood written) := by
  obtain ⟨sections, hs, hfound⟩ :=
    statements_sheetText fun rule hm => ⟨(h rule hm).1, (h rule hm).2.isBody⟩
  refine parse_eq_ok_iff.2 ⟨_, uncommented_sheetText h [], ?_⟩
  exact rules_eq_ok_iff.2 ⟨_, sections, [], (List.append_nil _).symm, hs, .inl rfl, hfound⟩

end

/-! What is declared, counted. -/

section
variable {selectors body other front rest plain : Text} {written : List (Text × Text)}
  {rule : Text × Text}

/-- What a body declares comes from its characters, and uses all of them if it is tidy. -/
theorem countP_block (body : Text) :
    ((Declaration.block body).map (·.shown.countP Text.counts)).sum ≤ body.countP Text.counts ∧
      ((∀ part ∈ Text.splitOutside ';' body, Declaration.IsTidy part) →
        ((Declaration.block body).map (·.shown.countP Text.counts)).sum = body.countP Text.counts) := by
  have hparts := Declaration.countP_parts Text.counts_eq_false_of_isSpace Text.counts_toLower
    (by decide) (Text.splitOutside ';' body)
  have hwhole : ((Text.splitOutside ';' body).flatMap (· ++ [';'])).countP Text.counts =
      body.countP Text.counts := by
    rw [Text.splitOutside, Text.flatMap_splitFrom, List.countP_append]
    simp [Text.counts]
  rw [hwhole] at hparts
  refine ⟨by rw [hparts]; exact Nat.le_add_right _ _, fun htidy => ?_⟩
  rw [hparts, Declaration.sum_countP_of_isTidy htidy, Nat.add_zero]
  rfl

theorem Uncommented.countP_eq (h : Uncommented front rest plain)
    (hc : front.countP Text.counts ≤ plain.countP Text.counts) : plain = front := by
  induction h with
  | nil => rfl
  | @char c front rest plain _ _ ih =>
    rw [List.countP_cons, List.countP_cons, Nat.add_le_add_iff_right] at hc
    rw [ih hc]
  | @comment body front rest plain _ h _ =>
    have hle := h.sublist.countP_le (p := Text.counts)
    have hopen : "/*".toList.countP Text.counts = 2 := by decide
    simp only [List.countP_append] at hc
    omega

/-- A body that declares as much as stands up to the end of another one, with or without comments, is
that one. -/
theorem isWhole_of_block_eq {inner : Text} (hplain : Uncommented (body ++ ['}']) [] plain)
    (hblock : block? 0 plain = some (inner, rest))
    (ht : ∀ part ∈ Text.splitOutside ';' body, Declaration.IsTidy part)
    (hd : Declaration.block inner = Declaration.block body) : IsWhole body := by
  have hle : body.countP Text.counts ≤ inner.countP Text.counts := by
    rw [← (countP_block body).2 ht, ← hd]
    exact (countP_block inner).1
  obtain ⟨rfl, hinner⟩ := block?_eq_some_iff.1 hblock
  have hbrace : ∀ text : Text, ('}' :: text).countP Text.counts = text.countP Text.counts + 1 :=
    fun text => List.countP_cons_of_pos (by decide)
  have hwhole := hplain.countP_eq (by
    rw [List.countP_append, List.countP_append, hbrace, hbrace, List.countP_nil]
    omega)
  rcases List.eq_nil_or_concat rest with rfl | ⟨more, last, rfl⟩
  · obtain rfl : inner = body := List.append_cancel_right hwhole
    exact ⟨fun hi => hplain.eq_iff.1 hwhole (hi.trans (List.prefix_append _ _).isInfix), hinner⟩
  · -- the brace in front of the rest belongs to the body, which then declares more
    have hshape : (inner ++ '}' :: more) ++ [last] = body ++ ['}'] := by simpa using hwhole
    obtain ⟨rfl, -⟩ := List.append_inj' hshape rfl
    rw [List.countP_append, hbrace] at hle
    omega

/-- A rule of which everything shows has a whole body, if it is read behind others as it is written. -/
theorem isWhole_of_parse {front : List (Text × Text)}
    (hfront : ∀ rule ∈ front, IsSelectorText rule.1 ∧ IsWhole rule.2)
    (hs : IsSelectorText rule.1) (hshown : IsShown rule)
    (h : parse (sheetText front ++ ruleText rule) = .ok (understood front ++ understood [rule])) :
    IsWhole rule.2 := by
  obtain ⟨selectors, body⟩ := rule
  obtain ⟨whole, hwhole, hrules⟩ := parse_eq_ok_iff.1 h
  have hopen : Uncommented (sheetText front ++ (selectors ++ ['{'])) (body ++ ['}'])
      (sheetText front ++ (selectors ++ ['{'])) :=
    (uncommented_sheetText hfront _).append
      (((uncommented_self hs.comment).append_right (by simp)).append
        (.char (fun hp => absurd (List.cons_prefix_cons.1 hp).1 (by decide)) .nil))
  have hshape : sheetText front ++ ruleText (selectors, body) =
      sheetText front ++ (selectors ++ ['{']) ++ (body ++ ['}']) := by simp [ruleText]
  have hdrop := dropComments_eq_ok_iff.2 hwhole
  rw [hshape, hopen.dropComments_append] at hdrop
  obtain ⟨plain, hplain, rfl⟩ := map_eq_ok_iff.1 hdrop
  -- the rules in front are read first, and the white space in front of the selectors
  obtain ⟨sections, hsections, hfound⟩ :=
    statements_sheetText fun rule hm => ⟨(hfront rule hm).1, (hfront rule hm).2.isBody⟩
  obtain ⟨space, core, rfl, hspace, hcore, hrule⟩ := hs.exists_prelude
  have hlead : Statements (sheetText front ++ (space ++ [])) (sections ++ []) :=
    hsections.append (.fillers hspace .nil)
  have hread : sheetText front ++ (space ++ core ++ ['{']) ++ plain =
      sheetText front ++ (space ++ []) ++ (core ++ '{' :: plain) := by simp
  rw [hread, rules_append hlead, List.append_nil, hfound] at hrules
  obtain ⟨found, hfound, he⟩ := map_eq_ok_iff.1 hrules
  obtain rfl := List.append_cancel_left he
  obtain ⟨result, hresult⟩ := Option.isSome_iff_exists.1 hshown.isSome
  cases hblock : block? 0 plain with
  | none =>
    rw [rules_unclosed hcore (block?_eq_none_iff.1 hblock)] at hfound
    cases hfound
  | some pair =>
    obtain ⟨inner, rest⟩ := pair
    obtain ⟨rfl, hinner⟩ := block?_eq_some_iff.1 hblock
    rw [rules_rule hcore hinner, hrule, rule?_congr hresult inner] at hfound
    obtain ⟨later, -, he⟩ := map_eq_ok_iff.1 hfound
    rw [understood_cons, hresult] at he
    have hsame : result.declarations = Declaration.block inner :=
      congrArg Rule.declarations (List.cons.inj he).1.symm
    refine isWhole_of_block_eq (dropComments_eq_ok_iff.1 hplain) hblock hshown.tidy ?_
    rw [← hsame, declarations_of_rule? hresult]

/-- Rules are read as they are written if their bodies are whole, and, where everything of them shows,
only then. -/
theorem parse_sheetText_of_isWhole (h : ∀ rule ∈ written, IsSelectorText rule.1) :
    ((∀ rule ∈ written, IsWhole rule.2) → parse (sheetText written) = .ok (understood written)) ∧
    ((∀ rule ∈ written, IsShown rule) →
      (∀ front, front <+: written → parse (sheetText front) = .ok (understood front)) →
        ∀ rule ∈ written, IsWhole rule.2) := by
  refine ⟨fun hwhole => parse_sheetText fun rule hm => ⟨h rule hm, hwhole rule hm⟩, ?_⟩
  intro hshown hread
  induction written using List.reverseRecOn with
  | nil => simp
  | append_singleton front last ih =>
    have hfront : ∀ rule ∈ front, IsWhole rule.2 :=
      ih (fun rule hm => h rule (List.mem_append_left _ hm))
        (fun rule hm => hshown rule (List.mem_append_left _ hm))
        fun first hp => hread first (hp.trans (List.prefix_append _ _))
    have hlast : last ∈ front ++ [last] := by simp
    have hwhole := hread _ List.prefix_rfl
    rw [sheetText, List.flatMap_append, understood_append, List.flatMap_singleton] at hwhole
    have hbody := isWhole_of_parse (fun rule hm => ⟨h rule (List.mem_append_left _ hm), hfront rule hm⟩)
      (h last hlast) (hshown last hlast) hwhole
    intro rule hm
    rcases List.mem_append.1 hm with hm | hm
    · exact hfront rule hm
    · rw [List.mem_singleton.1 hm]
      exact hbody

/-- Strings that open and close a block, end a comment and hold an escaped quote. -/
theorem parse_sheetText_closed :
    let written := [("p ".toList, "a: \"\x7b;\x7d\"; b: '*/\\'\x7b\x7d'".toList),
      ("\n q,r:x".toList, "".toList)]
    (∀ rule ∈ written, IsSelectorText rule.1) ∧ (∀ rule ∈ written, IsShown rule) ∧
      (∀ front, front <+: written → parse (sheetText front) = .ok (understood front)) ∧
      (∀ rule ∈ written, IsWhole rule.2) ∧
      parse (sheetText written) = .ok [
        ⟨[.compound ⟨some ['p'], none, [], []⟩],
          [⟨['a'], "\"\x7b;\x7d\"".toList, false⟩, ⟨['b'], "'*/\\'\x7b\x7d'".toList, false⟩]⟩,
        ⟨[.compound ⟨some ['q'], none, [], []⟩], []⟩] := by
  intro written
  have hselectors : ∀ rule ∈ written, IsSelectorText rule.1 := by decide +kernel
  have hwhole : ∀ rule ∈ written, IsWhole rule.2 := by decide +kernel
  have hshown : ∀ rule ∈ written, IsShown rule := by decide +kernel
  have hread : ∀ front, front <+: written → parse (sheetText front) = .ok (understood front) :=
    fun front hp => (parse_sheetText_of_isWhole fun rule hm => hselectors rule (hp.subset hm)).1
      fun rule hm => hwhole rule (hp.subset hm)
  exact ⟨hselectors, hshown, hread, (parse_sheetText_of_isWhole hselectors).2 hshown hread,
    (hread written List.prefix_rfl).trans (by decide +kernel)⟩

/-- A brace in a string ends its block, and the next rule is lost; the beginning of a comment in a string
is a fault. -/
theorem not_parse_sheetText :
    let written := [("p".toList, "a:\"\x7d\"".toList), ("q".toList, "b:c".toList)]
    let commented := [("p".toList, "a:\"/*\"".toList)]
    (∀ rule ∈ written ++ commented,
      IsSelectorText rule.1 ∧ Nesting.hidesMarks .outside rule.2 = true) ∧
    understood written = [
      ⟨[.compound ⟨some ['p'], none, [], []⟩], [⟨['a'], "\"\x7d\"".toList, false⟩]⟩,
      ⟨[.compound ⟨some ['q'], none, [], []⟩], [⟨['b'], ['c'], false⟩]⟩] ∧
    parse (sheetText written) =
      .ok [⟨[.compound ⟨some ['p'], none, [], []⟩], [⟨['a'], ['"'], false⟩]⟩] ∧
    parse (sheetText commented) = .error (.unterminatedComment 5) := by
  intro written commented
  exact ⟨by decide +kernel, by decide +kernel, by decide +kernel, by decide +kernel⟩

end
end Sheet
end MailTemplate
