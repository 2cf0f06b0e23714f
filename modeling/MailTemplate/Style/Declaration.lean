import MailTemplate.Style.Split

/-! Declarations: a property with a value, maybe marked as important. -/

namespace MailTemplate

/-- A declaration. The property is in lower case; the value is without white space around it and
without the mark. -/
structure Declaration where
  property : Text
  value : Text
  important : Bool
  deriving Repr, DecidableEq

namespace Declaration

def mark : Text := "!important".toList

def unmarked (value : Text) : Text × Bool :=
  match Text.beforeEnd? mark (Text.lower value) with
  | some before => (Text.trimEnd (value.take before.length), true)
  | none => (value, false)

/-- The declaration that a text makes; none without a colon, a property or a value. -/
def ofText? (text : Text) : Option Declaration := do
  let (property, value) ← Text.cut? [':'] text
  let property := Text.lower (Text.trim property)
  let value := Text.trim value
  if property = [] ∨ value = [] then none
  else
    let (value, important) := unmarked value
    return ⟨property, value, important⟩

def block (body : Text) : List Declaration := (Text.splitOutside ';' body).filterMap ofText?

end Declaration
end MailTemplate
