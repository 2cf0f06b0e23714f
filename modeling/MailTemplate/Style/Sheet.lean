import MailTemplate.Markup.Error
import MailTemplate.Style.Declaration
import MailTemplate.Style.Selector

/-! Stylesheets. Comments are taken out first; then come rules, and at-rules, which are passed over
because no single element can carry them. Only text whose braces do not match is a fault. -/

namespace MailTemplate

/-- What can go wrong with styles. Positions count bytes; that of a brace is in the stylesheet
without its comments. -/
inductive StyleError where
  | markup (error : MarkupError)
  | unterminatedComment (start : Nat)
  | unbalanced (position : Nat)
  | stylesheet (reason : Text)
  deriving Repr, DecidableEq

def StyleError.message : StyleError → Text
  | markup error => error.message
  | unterminatedComment n => "unterminated CSS comment at byte ".toList ++ Text.ofNat n
  | unbalanced n => "unbalanced braces in CSS at byte ".toList ++ Text.ofNat n
  | stylesheet reason => reason

/-- A rule: selectors, of which one has to match, and what it then declares. -/
structure Rule where
  selectors : List Selector
  declarations : List Declaration
  deriving Repr, DecidableEq

namespace Sheet

/-- A stylesheet without its comments, or the text from a comment on that has no end. -/
def dropComments : Text → Except Text Text
  | [] => .ok []
  | c :: css => match _ : Text.after? "/*".toList (c :: css) with
    | none => (dropComments css).map (c :: ·)
    | some inner => match _ : Text.cut? "*/".toList inner with
      | none => .error (c :: css)
      | some (_, rest) => dropComments rest
termination_by css => css.length
decreasing_by
  · exact Nat.lt_succ_self _
  · rename_i ha _ hc
    have hl := congrArg List.length (Text.after?_eq_some_iff.1 ha)
    rw [Text.eq_append_of_cut? hc] at hl
    simp only [List.length_append, List.length_cons] at hl ⊢
    have : "*/".toList.length = 2 := by decide
    omega

/-- The content of a block and what follows it, where `depth` more blocks are open inside. -/
def block? : Nat → Text → Option (Text × Text)
  | _, [] => none
  | depth, c :: css =>
    if c = '{' then (block? (depth + 1) css).map fun (body, rest) => (c :: body, rest)
    else if c = '}' then match depth with
      | 0 => some ([], css)
      | depth + 1 => (block? depth css).map fun (body, rest) => (c :: body, rest)
    else (block? depth css).map fun (body, rest) => (c :: body, rest)

theorem eq_append_of_block? {depth : Nat} {css body rest : Text}
    (h : block? depth css = some (body, rest)) : css = body ++ '}' :: rest := by
  induction css generalizing depth body rest with
  | nil => simp [block?] at h
  | cons c css ih =>
    simp only [block?] at h
    split at h
    · obtain ⟨⟨b, r⟩, hb, he⟩ := Option.map_eq_some_iff.1 h
      cases he
      simp [ih hb]
    · split at h
      · split at h
        · cases h
          simp_all
        · obtain ⟨⟨b, r⟩, hb, he⟩ := Option.map_eq_some_iff.1 h
          cases he
          simp [ih hb]
      · obtain ⟨⟨b, r⟩, hb, he⟩ := Option.map_eq_some_iff.1 h
        cases he
        simp [ih hb]

/-- The text after an at-rule: after its semicolon or its block, whichever begins first. An at-rule
with neither is the last; a block without end is a fault, from its brace on. -/
def afterAtRule (css : Text) : Except Text Text :=
  match css.dropWhile fun c => c != ';' && c != '{' with
  | [] => .ok []
  | c :: rest =>
    if c = ';' then .ok rest
    else match block? 0 rest with
      | some (_, rest) => .ok rest
      | none => .error (c :: rest)

/-- The rule of a list of selectors and a block; none without a selector that is understood. -/
def rule? (selectors body : Text) : Option Rule :=
  match (Text.splitOutside ',' selectors).filterMap Selector.ofText? with
  | [] => none
  | selectors => some ⟨selectors, Declaration.block body⟩

theorem length_afterAtRule_le {css rest : Text} (h : afterAtRule css = .ok rest) :
    rest.length ≤ css.length := by
  have hd := Text.length_dropWhile_le (fun c => c != ';' && c != '{') css
  unfold afterAtRule at h
  split at h
  · cases h
    simp
  · next hs =>
    rw [hs] at hd
    split at h
    · cases h
      exact Nat.le_of_succ_le hd
    · split at h
      · next hb =>
        cases h
        have hl := congrArg List.length (eq_append_of_block? hb)
        simp only [List.length_append, List.length_cons] at hl hd
        omega
      · cases h

/-- The rules of a stylesheet without comments, or the text from the fault on. -/
def rules (css : Text) : Except Text (List Rule) :=
  match css with
  | [] => .ok []
  | c :: css =>
    if Text.isAsciiSpace c || c == ';' then rules css
    else if c = '}' then .error (c :: css)
    else if _ : c = '@' then match _ : afterAtRule css with
      | .error fault => .error fault
      | .ok rest => rules rest
    else match _ : Text.cut? ['{'] (c :: css) with
      | none => .error (c :: css)
      | some (selectors, inner) => match _ : block? 0 inner with
        | none => .error ('{' :: inner)
        | some (body, rest) => (rules rest).map ((rule? selectors body).toList ++ ·)
termination_by css.length
decreasing_by
  · exact Nat.lt_succ_self _
  · rename_i h
    exact Nat.lt_succ_of_le (length_afterAtRule_le h)
  · rename_i hc hb
    have hl := congrArg List.length (Text.eq_append_of_cut? hc)
    have hr := congrArg List.length (eq_append_of_block? hb)
    simp only [List.length_append, List.length_cons, List.length_nil] at hl hr ⊢
    omega

def parse (css : Text) : Except StyleError (List Rule) :=
  match dropComments css with
  | .error rest => .error (.unterminatedComment (Text.offset css rest))
  | .ok plain => match rules plain with
    | .error rest => .error (.unbalanced (Text.offset plain rest))
    | .ok rules => .ok rules

end Sheet
end MailTemplate
