import MailTemplate.Text.Basic

/-! Writing JSON over several lines: two blanks for each level, one item on a line, and an empty
list as a pair of brackets. -/

namespace MailTemplate
namespace Json

def hexDigit (n : Nat) : Char := Nat.digitChar n

/-- A character inside a string. Quotes, backslashes and control characters are escaped. -/
def escapeChar (c : Char) : Text :=
  if c = '"' then ['\\', '"']
  else if c = '\\' then ['\\', '\\']
  else if c = '\x08' then ['\\', 'b']
  else if c = '\t' then ['\\', 't']
  else if c = '\n' then ['\\', 'n']
  else if c = '\x0c' then ['\\', 'f']
  else if c = '\r' then ['\\', 'r']
  else if c.toNat < 0x20 then
    ['\\', 'u', '0', '0', hexDigit (c.toNat / 16), hexDigit (c.toNat % 16)]
  else [c]

def quote (text : Text) : Text := '"' :: text.flatMap escapeChar ++ ['"']

def brackets (opening closing : Char) (level : Nat) (items : List Text) : Text :=
  let newLine (level : Nat) : Text := '\n' :: List.replicate (2 * level) ' '
  match items with
  | [] => [opening, closing]
  | items =>
    opening :: newLine (level + 1) ++ Text.joinWith (',' :: newLine (level + 1)) items ++
      newLine level ++ [closing]

def list (level : Nat) (values : List Text) : Text := brackets '[' ']' level values

def object (level : Nat) (fields : List (String × Text)) : Text :=
  brackets '{' '}' level
    (fields.map fun (name, value) => quote name.toList ++ [':', ' '] ++ value)

end Json
end MailTemplate
