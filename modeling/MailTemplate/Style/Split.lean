import MailTemplate.Text.Basic

/-! Splitting a text at a separator that stands outside quoted strings and parentheses. A backslash
takes away the meaning of the character after it, in strings and outside. -/

namespace MailTemplate

/-- How far a scan is inside parentheses and strings, and whether a backslash came just before. -/
structure Nesting where
  depth : Nat
  quote : Option Char
  escaped : Bool
  deriving Repr, DecidableEq

namespace Nesting

/-- Outside everything: where a scan begins, and where a separator splits. -/
def outside : Nesting := ⟨0, none, false⟩

/-- The nesting after one more character. A parenthesis that closes nothing has no effect. -/
def step (nesting : Nesting) (c : Char) : Nesting :=
  if nesting.escaped then { nesting with escaped := false }
  else if c = '\\' then { nesting with escaped := true }
  else match nesting.quote with
    | some quote => if c = quote then { nesting with quote := none } else nesting
    | none =>
      if c = '"' || c = '\'' then { nesting with quote := some c }
      else if c = '(' then { nesting with depth := nesting.depth + 1 }
      else if c = ')' then { nesting with depth := nesting.depth - 1 }
      else nesting

end Nesting

namespace Text

/-- The parts of a text between separators that stand outside everything; the scan begins at the
given nesting. -/
def splitFrom (separator : Char) (nesting : Nesting) : Text → List Text
  | [] => [[]]
  | c :: text =>
    if nesting = .outside ∧ c = separator then [] :: splitFrom separator .outside text
    else (splitFrom separator (nesting.step c) text).modifyHead (c :: ·)

def splitOutside (separator : Char) (text : Text) : List Text :=
  splitFrom separator .outside text

end Text
end MailTemplate
