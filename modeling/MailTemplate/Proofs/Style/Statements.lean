import MailTemplate.Proofs.Text.Cut
import MailTemplate.Proofs.Text.Success
import MailTemplate.Style.Sheet

/-! A stylesheet as a sequence of statements. Braces are told by counting: a block ends where more are
closed than opened. Every text without comments is complete statements up to its end, up to a last
at-rule or up to a fault, and is read as that. -/

namespace MailTemplate
namespace Sheet

/-- Text with `depth` more blocks open in front of it than the one it stands in, all of which it
leaves open: nowhere does it close more than is open. -/
def StaysOpen (depth : Nat) (text : Text) : Prop :=
  ∀ front, front <+: text → front.count '}' ≤ front.count '{' + depth

structure IsBody (depth : Nat) (body : Text) : Prop where
  staysOpen : StaysOpen depth body
  count_eq : body.count '}' = body.count '{' + depth

instance (depth : Nat) (text : Text) : Decidable (StaysOpen depth text) :=
  decidable_of_iff (∀ front ∈ text.inits, front.count '}' ≤ front.count '{' + depth)
    (by simp [StaysOpen, List.mem_inits])

theorem isBody_iff {depth : Nat} {body : Text} : IsBody depth body ↔
    StaysOpen depth body ∧ body.count '}' = body.count '{' + depth :=
  ⟨fun ⟨hopen, hcount⟩ => ⟨hopen, hcount⟩, fun ⟨hopen, hcount⟩ => ⟨hopen, hcount⟩⟩

instance (depth : Nat) (body : Text) : Decidable (IsBody depth body) :=
  decidable_of_iff _ isBody_iff.symm

section
variable {depth : Nat} {c : Char} {text body css rest : Text}

theorem staysOpen_nil : StaysOpen depth [] := by
  intro front hf
  simp [List.prefix_nil.1 hf]

theorem staysOpen_cons_iff : StaysOpen depth (c :: text) ↔
    ∀ front, front <+: text → (c :: front).count '}' ≤ (c :: front).count '{' + depth := by
  constructor
  · exact fun h front hf => h (c :: front) (List.cons_prefix_cons.2 ⟨rfl, hf⟩)
  · intro h front hf
    rcases List.prefix_cons_iff.1 hf with rfl | ⟨rest, rfl, hr⟩
    · simp
    · exact h rest hr

theorem staysOpen_open : StaysOpen depth ('{' :: text) ↔ StaysOpen (depth + 1) text := by
  rw [staysOpen_cons_iff]
  refine forall₂_congr fun front _ => ?_
  simp
  omega

theorem staysOpen_close : StaysOpen depth ('}' :: text) ↔
    ∃ outer, depth = outer + 1 ∧ StaysOpen outer text := by
  rw [staysOpen_cons_iff]
  cases depth with
  | zero =>
    refine iff_of_false (fun h => ?_) (by simp)
    simpa using h [] List.nil_prefix
  | succ outer =>
    simp only [Nat.add_right_cancel_iff, exists_eq_left']
    refine forall₂_congr fun front _ => ?_
    simp
    omega

theorem staysOpen_other (ho : c ≠ '{') (hc : c ≠ '}') :
    StaysOpen depth (c :: text) ↔ StaysOpen depth text := by
  rw [staysOpen_cons_iff]
  refine forall₂_congr fun front _ => ?_
  simp [ho, hc]

theorem isBody_nil : IsBody depth [] ↔ depth = 0 := by
  simp [isBody_iff, staysOpen_nil, eq_comm]

theorem isBody_open : IsBody depth ('{' :: text) ↔ IsBody (depth + 1) text := by
  rw [isBody_iff, isBody_iff, staysOpen_open]
  refine and_congr_right fun _ => ?_
  simp
  omega

theorem isBody_close : IsBody depth ('}' :: text) ↔ ∃ outer, depth = outer + 1 ∧ IsBody outer text := by
  rw [isBody_iff, staysOpen_close]
  constructor
  · rintro ⟨⟨outer, rfl, hopen⟩, hcount⟩
    exact ⟨outer, rfl, hopen, by simp at hcount; omega⟩
  · rintro ⟨outer, rfl, hopen, hcount⟩
    exact ⟨⟨outer, rfl, hopen⟩, by simp; omega⟩

theorem isBody_other (ho : c ≠ '{') (hc : c ≠ '}') : IsBody depth (c :: text) ↔ IsBody depth text := by
  rw [isBody_iff, isBody_iff, staysOpen_other ho hc]
  simp [ho, hc]

theorem block?_open : block? depth ('{' :: css) =
    (block? (depth + 1) css).map fun (body, rest) => ('{' :: body, rest) := rfl

theorem block?_close : block? (depth + 1) ('}' :: css) =
    (block? depth css).map fun (body, rest) => ('}' :: body, rest) := rfl

theorem block?_other (ho : c ≠ '{') (hc : c ≠ '}') : block? depth (c :: css) =
    (block? depth css).map fun (body, rest) => (c :: body, rest) := by
  simp [block?, ho, hc]

/-- A block is never closed exactly if it stays open up to the end of the text. -/
theorem block?_eq_none_iff : block? depth css = none ↔ StaysOpen depth css := by
  induction css generalizing depth with
  | nil => exact iff_of_true rfl staysOpen_nil
  | cons c css ih =>
    by_cases ho : c = '{'
    · rw [ho, block?_open, Option.map_eq_none_iff, ih, staysOpen_open]
    · by_cases hc : c = '}'
      · rw [hc, staysOpen_close]
        cases depth with
        | zero => exact iff_of_false (by simp [block?]) (by simp)
        | succ outer => simp [block?_close, ih]
      · rw [block?_other ho hc, Option.map_eq_none_iff, ih, staysOpen_other ho hc]

theorem block?_append (h : IsBody depth body) (rest : Text) :
    block? depth (body ++ '}' :: rest) = some (body, rest) := by
  induction body generalizing depth with
  | nil =>
    rw [isBody_nil.1 h]
    rfl
  | cons c body ih =>
    by_cases ho : c = '{'
    · subst ho
      rw [List.cons_append, block?_open, ih (isBody_open.1 h)]
      rfl
    · by_cases hc : c = '}'
      · subst hc
        obtain ⟨outer, rfl, hin⟩ := isBody_close.1 h
        rw [List.cons_append, block?_close, ih hin]
        rfl
      · rw [List.cons_append, block?_other ho hc, ih ((isBody_other ho hc).1 h)]
        rfl

theorem isBody_of_block? (h : block? depth css = some (body, rest)) : IsBody depth body := by
  induction css generalizing depth body with
  | nil => cases h
  | cons c css ih =>
    by_cases ho : c = '{'
    · subst ho
      rw [block?_open] at h
      obtain ⟨⟨inner, after⟩, hb, he⟩ := Option.map_eq_some_iff.1 h
      cases he
      exact isBody_open.2 (ih hb)
    · by_cases hc : c = '}'
      · subst hc
        cases depth with
        | zero =>
          cases h
          exact isBody_nil.2 rfl
        | succ outer =>
          rw [block?_close] at h
          obtain ⟨⟨inner, after⟩, hb, he⟩ := Option.map_eq_some_iff.1 h
          cases he
          exact isBody_close.2 ⟨outer, rfl, ih hb⟩
      · rw [block?_other ho hc] at h
        obtain ⟨⟨inner, after⟩, hb, he⟩ := Option.map_eq_some_iff.1 h
        cases he
        exact (isBody_other ho hc).2 (ih hb)

theorem block?_eq_some_iff : block? depth css = some (body, rest) ↔
    css = body ++ '}' :: rest ∧ IsBody depth body :=
  ⟨fun h => ⟨eq_append_of_block? h, isBody_of_block? h⟩, fun ⟨hcss, hb⟩ => hcss ▸ block?_append hb rest⟩

end

def isFiller (c : Char) : Bool := Text.isAsciiSpace c || c == ';'

def BeginsRule (c : Char) : Prop := isFiller c = false ∧ c ≠ '}' ∧ c ≠ '@'

structure IsPrelude (selectors : Text) : Prop where
  begins : ∀ c ∈ selectors.head?, BeginsRule c
  brace : '{' ∉ selectors

structure IsAtPrelude (words : Text) : Prop where
  semicolon : ';' ∉ words
  brace : '{' ∉ words

inductive Statements : Text → List (Text × Text) → Prop
  | nil : Statements [] []
  | filler {c css found} (hc : isFiller c = true) (h : Statements css found) :
    Statements (c :: css) found
  | atLine {words css found} (hw : IsAtPrelude words) (h : Statements css found) :
    Statements ('@' :: words ++ ';' :: css) found
  | atBlock {words body css found} (hw : IsAtPrelude words) (hb : IsBody 0 body)
    (h : Statements css found) : Statements ('@' :: words ++ '{' :: (body ++ '}' :: css)) found
  | rule {selectors body css found} (hs : IsPrelude selectors) (hb : IsBody 0 body)
    (h : Statements css found) :
    Statements (selectors ++ '{' :: (body ++ '}' :: css)) ((selectors, body) :: found)

/-- The text from the fault on in what cannot be read as statements, with what stands between it and the
statements before. -/
inductive Breaks : Text → Text → Prop
  | stray {css} : Breaks [] ('}' :: css)
  | noBlock {c css} (hc : BeginsRule c) (h : '{' ∉ c :: css) : Breaks [] (c :: css)
  | unclosed {selectors css} (hs : IsPrelude selectors) (h : StaysOpen 0 css) :
    Breaks selectors ('{' :: css)
  | unclosedAt {words css} (hw : IsAtPrelude words) (h : StaysOpen 0 css) :
    Breaks ('@' :: words) ('{' :: css)

def IsTail (text : Text) : Prop := text = [] ∨ ∃ words, text = '@' :: words ∧ IsAtPrelude words

/-- The rules with a selector that is understood. -/
def understood (found : List (Text × Text)) : List Rule :=
  found.filterMap fun (selectors, body) => rule? selectors body

section
variable {c : Char} {css words selectors body rest front back fault : Text}
  {found more : List (Text × Text)}

theorem rules_filler (hc : isFiller c = true) : rules (c :: css) = rules css := by
  rw [rules]
  exact if_pos hc

theorem rules_at (h : afterAtRule css = .ok rest) : rules ('@' :: css) = rules rest := by
  rw [rules, if_neg (by decide), if_neg (by decide), dif_pos rfl]
  split <;> simp_all

theorem rules_at_error (h : afterAtRule css = .error fault) :
    rules ('@' :: css) = .error fault := by
  rw [rules, if_neg (by decide), if_neg (by decide), dif_pos rfl]
  split <;> simp_all

theorem rules_stray : rules ('}' :: css) = .error ('}' :: css) := by
  rw [rules, if_neg (by decide), if_pos rfl]

theorem IsAtPrelude.all (h : IsAtPrelude words) :
    ∀ c ∈ words, (c != ';' && c != '{') = true := by
  intro c hc
  have hs : c ≠ ';' := fun he => h.semicolon (he ▸ hc)
  have hb : c ≠ '{' := fun he => h.brace (he ▸ hc)
  simp [hs, hb]

theorem isAtPrelude_takeWhile (css : Text) :
    IsAtPrelude (css.takeWhile fun c => c != ';' && c != '{') :=
  ⟨fun hm => by simpa using List.mem_takeWhile_imp hm,
    fun hm => by simpa using List.mem_takeWhile_imp hm⟩

theorem afterAtRule_tail (h : IsAtPrelude words) : afterAtRule words = .ok [] := by
  have hd : words.dropWhile (fun c => c != ';' && c != '{') = [] :=
    List.dropWhile_eq_nil_iff.2 h.all
  simp [afterAtRule, hd]

theorem afterAtRule_line (h : IsAtPrelude words) (rest : Text) :
    afterAtRule (words ++ ';' :: rest) = .ok rest := by
  have hd : (words ++ ';' :: rest).dropWhile (fun c => c != ';' && c != '{') = ';' :: rest :=
    Text.dropWhile_run h.all (by simp)
  simp [afterAtRule, hd]

theorem afterAtRule_block (h : IsAtPrelude words) (hb : IsBody 0 body) (rest : Text) :
    afterAtRule (words ++ '{' :: (body ++ '}' :: rest)) = .ok rest := by
  have hd : (words ++ '{' :: (body ++ '}' :: rest)).dropWhile (fun c => c != ';' && c != '{') =
      '{' :: (body ++ '}' :: rest) := Text.dropWhile_run h.all (by simp)
  simp [afterAtRule, hd, block?_append hb]

theorem afterAtRule_unclosed (h : IsAtPrelude words) (ho : StaysOpen 0 css) :
    afterAtRule (words ++ '{' :: css) = .error ('{' :: css) := by
  have hd : (words ++ '{' :: css).dropWhile (fun c => c != ';' && c != '{') = '{' :: css :=
    Text.dropWhile_run h.all (by simp)
  simp [afterAtRule, hd, block?_eq_none_iff.2 ho]

theorem exists_isAtPrelude (css : Text) : ∃ words rest, css = words ++ rest ∧ IsAtPrelude words ∧
    (rest = [] ∨ (∃ after, rest = ';' :: after) ∨ ∃ after, rest = '{' :: after) := by
  refine ⟨_, _, (List.takeWhile_append_dropWhile (p := fun c => c != ';' && c != '{')).symm,
    isAtPrelude_takeWhile css, ?_⟩
  have hhead := List.head?_dropWhile_not (fun c => c != ';' && c != '{') css
  cases hd : css.dropWhile (fun c => c != ';' && c != '{') with
  | nil => exact .inl rfl
  | cons c after =>
    rw [hd, List.head?_cons] at hhead
    by_cases hc : c = ';'
    · exact .inr (.inl ⟨after, by rw [hc]⟩)
    · exact .inr (.inr ⟨after, by simpa [hc] using hhead⟩)

theorem exists_append_of_afterAtRule (h : afterAtRule css = .ok rest) : ∃ words, css = words ++ rest := by
  obtain ⟨words, back, rfl, hw, rfl | ⟨after, rfl⟩ | ⟨inner, rfl⟩⟩ := exists_isAtPrelude css
  · rw [List.append_nil, afterAtRule_tail hw] at h
    cases h
    exact ⟨words, rfl⟩
  · rw [afterAtRule_line hw] at h
    cases h
    exact ⟨words ++ [';'], by simp⟩
  · cases hblock : block? 0 inner with
    | none =>
      rw [afterAtRule_unclosed hw (block?_eq_none_iff.1 hblock)] at h
      cases h
    | some pair =>
      obtain ⟨rfl, hbody⟩ := block?_eq_some_iff.1 hblock
      rw [afterAtRule_block hw hbody] at h
      cases h
      exact ⟨words ++ '{' :: (pair.1 ++ ['}']), by simp⟩

theorem beginsRule_brace : BeginsRule '{' := ⟨by decide, by decide, by decide⟩

theorem IsPrelude.exists_cons (h : IsPrelude selectors) (css : Text) :
    ∃ c rest, selectors ++ '{' :: css = c :: rest ∧ BeginsRule c := by
  cases selectors with
  | nil => exact ⟨'{', css, rfl, beginsRule_brace⟩
  | cons c selectors => exact ⟨c, selectors ++ '{' :: css, rfl, h.begins c rfl⟩

theorem rules_noBlock (hc : BeginsRule c) (h : '{' ∉ c :: css) :
    rules (c :: css) = .error (c :: css) := by
  obtain ⟨hfill, hclose, hat⟩ := hc
  have hcut : Text.cut? ['{'] (c :: css) = none := by
    rwa [Text.cut?_eq_none_iff (List.cons_ne_nil _ _), List.singleton_infix_iff]
  rw [rules, if_neg (by simpa [isFiller] using hfill), if_neg hclose, dif_neg hat]
  split <;> simp_all

theorem rules_prelude (hs : IsPrelude selectors) (css : Text) : rules (selectors ++ '{' :: css) =
    match block? 0 css with
    | none => .error ('{' :: css)
    | some (body, rest) => (rules rest).map ((rule? selectors body).toList ++ ·) := by
  have hcut : Text.cut? ['{'] (selectors ++ '{' :: css) = some (selectors, css) :=
    Text.cut?_singleton_append css hs.brace
  obtain ⟨c, after, he, hfill, hclose, hat⟩ := hs.exists_cons css
  rw [he] at hcut ⊢
  rw [rules, if_neg (by simpa [isFiller] using hfill), if_neg hclose, dif_neg hat]
  split
  · simp_all
  · next _ _ hc =>
    cases hcut.symm.trans hc
    split <;> simp_all

theorem rules_unclosed (hs : IsPrelude selectors) (h : StaysOpen 0 css) :
    rules (selectors ++ '{' :: css) = .error ('{' :: css) := by
  rw [rules_prelude hs, block?_eq_none_iff.2 h]

theorem rules_rule (hs : IsPrelude selectors) (hb : IsBody 0 body) (rest : Text) :
    rules (selectors ++ '{' :: (body ++ '}' :: rest)) =
      (rules rest).map ((rule? selectors body).toList ++ ·) := by
  rw [rules_prelude hs, block?_append hb]

theorem rules_of_isTail (h : IsTail rest) : rules rest = .ok [] := by
  rcases h with rfl | ⟨words, rfl, hw⟩
  · rw [rules]
  · rw [rules_at (afterAtRule_tail hw), rules]

theorem rules_of_breaks {begun : Text} (h : Breaks begun fault) :
    rules (begun ++ fault) = .error fault := by
  cases h with
  | stray => exact rules_stray
  | noBlock hc h => exact rules_noBlock hc h
  | unclosed hs h => exact rules_unclosed hs h
  | unclosedAt hw h => exact rules_at_error (afterAtRule_unclosed hw h)

theorem rules_append (h : Statements front found) (rest : Text) :
    rules (front ++ rest) = (rules rest).map (understood found ++ ·) := by
  induction h with
  | nil => cases h : rules rest <;> simp [h, understood, Except.map]
  | filler hc _ ih => rw [List.cons_append, rules_filler hc, ih]
  | @atLine words css _ hw _ ih =>
    have hshape : '@' :: words ++ ';' :: css ++ rest = '@' :: (words ++ ';' :: (css ++ rest)) := by
      simp
    rw [hshape, rules_at (afterAtRule_line hw _), ih]
  | @atBlock words body css _ hw hb _ ih =>
    have hshape : '@' :: words ++ '{' :: (body ++ '}' :: css) ++ rest =
        '@' :: (words ++ '{' :: (body ++ '}' :: (css ++ rest))) := by simp
    rw [hshape, rules_at (afterAtRule_block hw hb _), ih]
  | @rule selectors body css found hs hb _ ih =>
    have hshape : selectors ++ '{' :: (body ++ '}' :: css) ++ rest =
        selectors ++ '{' :: (body ++ '}' :: (css ++ rest)) := by simp
    have hfirst : understood ((selectors, body) :: found) =
        (rule? selectors body).toList ++ understood found := by
      cases hr : rule? selectors body <;> simp [understood, hr]
    rw [hshape, rules_rule hs hb, ih, hfirst]
    cases rules rest <;> simp [Except.map]

theorem Statements.append (h : Statements front found) (hm : Statements back more) :
    Statements (front ++ back) (found ++ more) := by
  induction h with
  | nil => exact hm
  | filler hc _ ih => exact .filler hc ih
  | atLine hw _ ih => simpa using Statements.atLine hw ih
  | atBlock hw hb _ ih => simpa using Statements.atBlock hw hb ih
  | rule hs hb _ ih => simpa using Statements.rule hs hb ih

/-- The text before a fault: complete statements, and the beginning of one more. -/
def Fault (before fault : Text) : Prop :=
  ∃ front found begun, before = front ++ begun ∧ Statements front found ∧ Breaks begun fault

/-- What is left where no more statement is complete: a last at-rule, nothing, or a fault. -/
def IsLast (text : Text) : Prop := IsTail text ∨ ∃ begun fault, text = begun ++ fault ∧ Breaks begun fault

def HasStatement (text : Text) : Prop :=
  ∃ first found rest, text = first ++ rest ∧ first ≠ [] ∧ Statements first found

theorem isLast_or_hasStatement_at (css : Text) : IsLast ('@' :: css) ∨ HasStatement ('@' :: css) := by
  obtain ⟨words, rest, rfl, hw, rfl | ⟨after, rfl⟩ | ⟨after, rfl⟩⟩ := exists_isAtPrelude css
  · exact .inl (.inl (.inr ⟨words, by simp, hw⟩))
  · exact .inr ⟨'@' :: words ++ [';'], [], after, by simp, by simp, .atLine hw .nil⟩
  · cases hb : block? 0 after with
    | none => exact .inl (.inr ⟨'@' :: words, _, rfl, .unclosedAt hw (block?_eq_none_iff.1 hb)⟩)
    | some pair =>
      obtain ⟨rfl, hbody⟩ := block?_eq_some_iff.1 hb
      exact .inr ⟨'@' :: words ++ '{' :: (pair.1 ++ ['}']), [], pair.2, by simp, by simp,
        .atBlock hw hbody .nil⟩

theorem exists_isPrelude (hc : BeginsRule c) (h : '{' ∈ c :: css) : ∃ selectors inner,
    c :: css = selectors ++ '{' :: inner ∧ IsPrelude selectors := by
  obtain ⟨selectors, inner, hwhole, hbrace⟩ := List.eq_append_cons_of_mem h
  refine ⟨selectors, inner, hwhole, fun d hd => ?_, hbrace⟩
  cases selectors with
  | nil => cases hd
  | cons first selectors =>
    obtain rfl := (List.cons.inj hwhole).1
    rwa [← Option.some.inj hd]

theorem isPrelude_of_cut? {inner : Text} (hc : BeginsRule c)
    (h : Text.cut? ['{'] (c :: css) = some (selectors, inner)) :
    c :: css = selectors ++ '{' :: inner ∧ IsPrelude selectors := by
  have hmem : '{' ∈ c :: css := by
    rw [Text.eq_append_of_cut? h]
    simp
  obtain ⟨before, after, hwhole, hs⟩ := exists_isPrelude hc hmem
  rw [hwhole, Text.cut?_singleton_append after hs.brace] at h
  cases h
  exact ⟨hwhole, hs⟩

theorem isLast_or_hasStatement_rule (hc : BeginsRule c) (css : Text) :
    IsLast (c :: css) ∨ HasStatement (c :: css) := by
  by_cases hm : '{' ∈ c :: css
  · obtain ⟨selectors, inner, hwhole, hs⟩ := exists_isPrelude hc hm
    rw [hwhole]
    cases hb : block? 0 inner with
    | none => exact .inl (.inr ⟨selectors, _, rfl, .unclosed hs (block?_eq_none_iff.1 hb)⟩)
    | some pair =>
      obtain ⟨rfl, hbody⟩ := block?_eq_some_iff.1 hb
      exact .inr ⟨selectors ++ '{' :: (pair.1 ++ ['}']), [(selectors, pair.1)], pair.2, by simp,
        by simp, .rule hs hbody .nil⟩
  · exact .inl (.inr ⟨[], _, rfl, .noBlock hc hm⟩)

theorem isLast_or_hasStatement (css : Text) : IsLast css ∨ HasStatement css := by
  cases css with
  | nil => exact .inl (.inl (.inl rfl))
  | cons c css =>
    by_cases hfill : isFiller c = true
    · exact .inr ⟨[c], [], css, rfl, by simp, .filler hfill .nil⟩
    by_cases hclose : c = '}'
    · exact .inl (.inr ⟨[], _, rfl, hclose ▸ .stray⟩)
    by_cases hat : c = '@'
    · exact hat ▸ isLast_or_hasStatement_at css
    · exact isLast_or_hasStatement_rule ⟨by simpa using hfill, hclose, hat⟩ css

/-- Statements can be read up to the end, or up to a last at-rule, or up to a fault. -/
theorem exists_statements (css : Text) : ∃ front found rest, css = front ++ rest ∧
    Statements front found ∧ IsLast rest := by
  induction hl : css.length using Nat.strongRecOn generalizing css with
  | _ n ih =>
    subst hl
    rcases isLast_or_hasStatement css with hlast | ⟨first, sections, rest, rfl, hn, hfirst⟩
    · exact ⟨[], [], css, rfl, .nil, hlast⟩
    · have hlength : rest.length < (first ++ rest).length := by
        have hpos := List.length_pos_iff.2 hn
        rw [List.length_append]
        omega
      obtain ⟨front, found, last, rfl, hs, hlast⟩ := ih _ hlength rest rfl
      exact ⟨first ++ front, sections ++ found, last, by simp, hfirst.append hs, hlast⟩

theorem rules_eq_ok_iff {result : List Rule} : rules css = .ok result ↔ ∃ front found tail,
    css = front ++ tail ∧ Statements front found ∧ IsTail tail ∧ understood found = result := by
  constructor
  · intro h
    obtain ⟨front, found, rest, rfl, hs, htail | ⟨begun, fault, rfl, hbreak⟩⟩ := exists_statements css
    · rw [rules_append hs, rules_of_isTail htail] at h
      exact ⟨front, found, rest, rfl, hs, htail, by simpa [Except.map] using h⟩
    · rw [rules_append hs, rules_of_breaks hbreak] at h
      cases h
  · rintro ⟨front, found, tail, rfl, hs, htail, rfl⟩
    rw [rules_append hs, rules_of_isTail htail]
    simp [Except.map]

theorem rules_eq_error_iff : rules css = .error fault ↔
    ∃ before, css = before ++ fault ∧ Fault before fault := by
  constructor
  · intro h
    obtain ⟨front, found, rest, rfl, hs, htail | ⟨begun, found', rfl, hbreak⟩⟩ := exists_statements css
    · rw [rules_append hs, rules_of_isTail htail] at h
      cases h
    · rw [rules_append hs, rules_of_breaks hbreak] at h
      cases h
      exact ⟨front ++ begun, by simp, front, found, begun, rfl, hs, hbreak⟩
  · rintro ⟨before, rfl, front, found, begun, rfl, hs, hbreak⟩
    rw [List.append_assoc, rules_append hs, rules_of_breaks hbreak]
    rfl

end
end Sheet
end MailTemplate
