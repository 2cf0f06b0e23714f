import MailTemplate.Json.Scan

/-! Values whose content does not matter: they are passed over, to any depth, and still have to be
well-formed. Values that do not fit where they stand. -/

namespace MailTemplate

inductive Bracket where
  | list
  | object
  deriving Repr, DecidableEq

namespace Json

def skipKey (source : Text) : Except JsonFault Text := do
  match dropBlank source with
  | [] => throw .incomplete
  | '"' :: source => match dropBlank (← skipString source) with
    | [] => throw .incomplete
    | ':' :: source => return source
    | _ => throw .malformed
  | _ => throw .malformed

mutual

/-- The text after a value and after all brackets around it; `fuel` bounds the number of tokens. -/
def skipValue : (fuel : Nat) → List Bracket → Text → Except JsonFault Text
  | 0, _, _ => .error .incomplete
  | fuel + 1, opened, source =>
    match dropBlank source with
    | [] => .error .incomplete
    | '[' :: source => match dropBlank source with
      | [] => .error .incomplete
      | ']' :: source => skipRest fuel opened source
      | source => skipValue fuel (.list :: opened) source
    | '{' :: source => match dropBlank source with
      | [] => .error .incomplete
      | '}' :: source => skipRest fuel opened source
      | source => do skipValue fuel (.object :: opened) (← skipKey source)
    | 'n' :: source => do skipRest fuel opened (← expect "ull".toList source)
    | 't' :: source => do skipRest fuel opened (← expect "rue".toList source)
    | 'f' :: source => do skipRest fuel opened (← expect "alse".toList source)
    | '"' :: source => do skipRest fuel opened (← skipString source)
    | '-' :: source => do skipRest fuel opened (← skipNumber source)
    | c :: source =>
      if c.isDigit then do skipRest fuel opened (← skipNumber (c :: source))
      else .error .malformed

def skipRest : (fuel : Nat) → List Bracket → Text → Except JsonFault Text
  | 0, _, _ => .error .incomplete
  | _, [], source => .ok source
  | fuel + 1, bracket :: opened, source =>
    match bracket, dropBlank source with
    | _, [] => .error .incomplete
    | .list, ',' :: source => skipValue fuel (.list :: opened) source
    | .object, ',' :: source => do skipValue fuel (.object :: opened) (← skipKey source)
    | .list, ']' :: source => skipRest fuel opened source
    | .object, '}' :: source => skipRest fuel opened source
    | _, _ => .error .malformed

end

def skip (source : Text) : Except JsonFault Text := skipValue (2 * source.length + 2) [] source

/-- What is wrong with a value that is not of the kind that is asked for: as a scalar it may be
malformed or incomplete before it is unfit. -/
def unfit (source : Text) : JsonFault :=
  let after {α : Type} : Except JsonFault α → JsonFault
    | .error fault => fault
    | .ok _ => .unfit
  match source with
  | [] => .incomplete
  | 'n' :: source => after (expect "ull".toList source)
  | 't' :: source => after (expect "rue".toList source)
  | 'f' :: source => after (expect "alse".toList source)
  | '"' :: source => after (string source)
  | '[' :: _ => .unfit
  | '{' :: _ => .unfit
  | '-' :: source => after (number false source)
  | c :: source => if c.isDigit then after (number true (c :: source)) else .malformed

end Json
end MailTemplate
