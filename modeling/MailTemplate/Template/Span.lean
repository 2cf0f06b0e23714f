import MailTemplate.Text.Pattern
import MailTemplate.Text.Word

/-! Spans of template syntax: an expression, a tag or a comment between its two-character braces.
A span ends at the first closing braces of its kind after the opening ones. -/

namespace MailTemplate

/-- The three kinds of span, told apart by the character next to the brace. -/
inductive SpanKind where
  | expression
  | tag
  | comment
  deriving Repr, DecidableEq

namespace SpanKind

/-- The characters that begin a span of this kind. -/
def opener : SpanKind → Text
  | expression => ['{', '{']
  | tag => ['{', '%']
  | comment => ['{', '#']

def closer : SpanKind → Text
  | expression => ['}', '}']
  | tag => ['%', '}']
  | comment => ['#', '}']

/-- The kind of the span that begins a text, and what follows the opening characters. -/
def match? : Text → Option (SpanKind × Text)
  | '{' :: '{' :: rest => some (expression, rest)
  | '{' :: '%' :: rest => some (tag, rest)
  | '{' :: '#' :: rest => some (comment, rest)
  | _ => none

theorem match?_eq_some_iff {source rest : Text} {kind : SpanKind} :
    match? source = some (kind, rest) ↔ source = kind.opener ++ rest := by
  constructor
  · intro h
    unfold match? at h
    split at h <;> cases h <;> rfl
  · rintro rfl
    cases kind <;> rfl

end SpanKind

/-- A span: its kind, and what stands between the braces. -/
structure Span where
  kind : SpanKind
  body : Text
  deriving Repr, DecidableEq

namespace Span

def text (span : Span) : Text := span.kind.opener ++ span.body ++ span.kind.closer

def match? (source : Text) : Option (Span × Text) := do
  let (kind, rest) ← SpanKind.match? source
  let (body, rest) ← Text.cut? kind.closer rest
  return (⟨kind, body⟩, rest)

theorem exact {source rest : Text} {span : Span} (h : match? source = some (span, rest)) :
    source = span.text ++ rest := by
  simp only [match?, Option.bind_eq_bind, Option.bind_eq_some_iff, Prod.exists] at h
  obtain ⟨kind, after, hk, body, last, hb, h⟩ := h
  cases h
  rw [SpanKind.match?_eq_some_iff.1 hk, Text.eq_append_of_cut? hb]
  simp [text]

theorem text_ne_nil (span : Span) : span.text ≠ [] := by
  rcases span with ⟨_ | _ | _, body⟩ <;> simp [text, SpanKind.opener]

def pattern : Pattern Span := ⟨text, match?, exact, fun _ => text_ne_nil _⟩

/-- The word that a tag begins with; empty for the other kinds. -/
def keyword (span : Span) : Text :=
  match span.kind, span.body with
  | .tag, '-' :: body => (Text.dropSpace body).takeWhile Text.isWord
  | .tag, body => (Text.dropSpace body).takeWhile Text.isWord
  | _, _ => []

/-- The tags that belong to the layout, not to the renderer of the finished template. -/
def isStructural (span : Span) : Bool :=
  ["block".toList, "endblock".toList, "extends".toList].contains span.keyword

end Span
end MailTemplate
