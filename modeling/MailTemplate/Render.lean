import MailTemplate.Markup.CustomTag
import MailTemplate.Style.Cascade

/-! Rendering: from the joined source of a template to its finished text. Template syntax is hidden,
custom elements become tables, styles are written in, and the syntax is brought back. A step that
fails is skipped as a whole and leaves a line in the log. -/

namespace MailTemplate

inductive Level where
  | warning
  | error
  deriving Repr, DecidableEq

structure LogLine where
  level : Level
  text : Text
  deriving Repr, DecidableEq

inductive Skipped where
  | markup (cause : MarkupError)
  | style (cause : StyleError)
  deriving Repr, DecidableEq

def Skipped.message : Skipped → Text
  | markup cause => "markup normalization skipped: ".toList ++ cause.message
  | style cause => "style inlining skipped: ".toList ++ cause.message

/-- What a configured stylesheet came to: its text, or why it cannot be read. -/
abbrev Loaded := Except Text Text

namespace Render

/-- The text with tables in place of custom elements; as it was, where that fails. -/
def markup (source : Text) : Text × List LogLine :=
  match Document.withTables source with
  | .ok text => (text, [])
  | .error cause => (source, [⟨.warning, (Skipped.markup cause).message⟩])

/-- The text with the styles of the stylesheet, if there is one, and of its own style elements
written in. -/
def tryStyles (stylesheet : Option Loaded) (source : Text) : Except StyleError Text :=
  match stylesheet with
  | none => Cascade.styled source none
  | some (.ok css) => Cascade.styled source (some css)
  | some (.error reason) => .error (.stylesheet reason)

/-- The text with styles written in; as it was, where that fails. The line in the log names the
template. -/
def styles (name : Text) (stylesheet : Option Loaded) (source : Text) : Text × List LogLine :=
  match tryStyles stylesheet source with
  | .ok text => (text, [])
  | .error cause => (source, [⟨.warning, name ++ ": ".toList ++ (Skipped.style cause).message⟩])

/-- All steps for the source of one template, with a nonce of its own. -/
def template (nonce name : Text) (stylesheet : Option Loaded) (source : Text) :
    Text × List LogLine :=
  let (guard, hidden) := (Guard.fresh nonce).hide source
  let (tables, markupLog) := markup hidden
  let (styled, styleLog) := styles name stylesheet tables
  (guard.reveal styled, markupLog ++ styleLog)

end Render
end MailTemplate
