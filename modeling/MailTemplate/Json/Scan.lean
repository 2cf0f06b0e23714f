import MailTemplate.Text.Basic

/-! The lexical parts of JSON: blanks, literals, strings and numbers, each read from the front of a
text. The first fault in reading order decides what is wrong with a text. -/

namespace MailTemplate

/-- What is wrong with a text of JSON: it is no JSON, it is JSON of the wrong shape, or it ends too
early. -/
inductive JsonFault where
  | malformed
  | unfit
  | incomplete
  deriving Repr, DecidableEq

namespace Json

def isBlank (c : Char) : Bool := c == ' ' || c == '\n' || c == '\t' || c == '\r'

def dropBlank (source : Text) : Text := source.dropWhile isBlank

def expect : (letters source : Text) → Except JsonFault Text
  | [], source => .ok source
  | _ :: _, [] => .error .incomplete
  | l :: letters, c :: source => if l = c then expect letters source else .error .malformed

def hexDigit? (c : Char) : Option Nat :=
  if c.isDigit then some (c.toNat - '0'.toNat)
  else if 'a' ≤ c ∧ c ≤ 'f' then some (c.toNat - 'a'.toNat + 10)
  else if 'A' ≤ c ∧ c ≤ 'F' then some (c.toNat - 'A'.toNat + 10)
  else none

/-- Four hexadecimal digits. Fewer than four bytes are an early end, whatever they are. -/
def hexUnit (source : Text) : Except JsonFault (Nat × Text) :=
  if Text.byteSize source < 4 then .error .incomplete
  else match source with
    | a :: b :: c :: d :: rest =>
      match hexDigit? a, hexDigit? b, hexDigit? c, hexDigit? d with
      | some a, some b, some c, some d => .ok (((a * 16 + b) * 16 + c) * 16 + d, rest)
      | _, _, _, _ => .error .malformed
    | _ => .error .malformed

/-- The second unit of a pair: it is written like the first. -/
def secondUnit : Text → Except JsonFault (Nat × Text)
  | [] => .error .incomplete
  | ['\\'] => .error .incomplete
  | '\\' :: 'u' :: rest => hexUnit rest
  | _ => .error .malformed

/-- A character given by its number. A number in the upper half is the first unit of a pair. -/
def numbered (source : Text) : Except JsonFault (Char × Text) := do
  let (first, rest) ← hexUnit source
  if 0xDC00 ≤ first ∧ first ≤ 0xDFFF then throw .malformed
  if 0xD800 ≤ first ∧ first ≤ 0xDBFF then
    let (second, rest) ← secondUnit rest
    if second < 0xDC00 ∨ 0xDFFF < second then throw .malformed
    return (Char.ofNat ((first - 0xD800) * 0x400 + (second - 0xDC00) + 0x10000), rest)
  return (Char.ofNat first, rest)

def escaped? : Char → Option Char
  | '"' => some '"'
  | '\\' => some '\\'
  | '/' => some '/'
  | 'b' => some '\x08'
  | 'f' => some '\x0c'
  | 'n' => some '\n'
  | 'r' => some '\r'
  | 't' => some '\t'
  | _ => none

/-- The content of a string after its opening quote; `fuel` bounds the number of characters. -/
def content : (fuel : Nat) → Text → Except JsonFault (Text × Text)
  | 0, _ => .error .incomplete
  | _, [] => .error .incomplete
  | fuel + 1, c :: source =>
    if c = '"' then .ok ([], source)
    else if c = '\\' then match source with
      | [] => .error .incomplete
      | 'u' :: source => do
        let (c, source) ← numbered source
        let (rest, source) ← content fuel source
        return (c :: rest, source)
      | e :: source => match escaped? e with
        | none => .error .malformed
        | some c => do
          let (rest, source) ← content fuel source
          return (c :: rest, source)
    else if c.toNat < 0x20 then .error .malformed
    else do
      let (rest, source) ← content fuel source
      return (c :: rest, source)

def string (source : Text) : Except JsonFault (Text × Text) := content (source.length + 1) source

/-- The text after a string whose content does not matter; units need not come in pairs. -/
def skipContent : (fuel : Nat) → Text → Except JsonFault Text
  | 0, _ => .error .incomplete
  | _, [] => .error .incomplete
  | fuel + 1, c :: source =>
    if c = '"' then .ok source
    else if c = '\\' then match source with
      | [] => .error .incomplete
      | 'u' :: source => do skipContent fuel (← hexUnit source).2
      | e :: source =>
        if (escaped? e).isSome then skipContent fuel source else .error .malformed
    else if c.toNat < 0x20 then .error .malformed
    else skipContent fuel source

def skipString (source : Text) : Except JsonFault Text := skipContent (source.length + 1) source

/-- A number: a natural number below 2^64, or any other. -/
inductive Number where
  | natural (value : Nat)
  | other
  deriving Repr, DecidableEq

def maxNatural : Nat := Nat.pow 2 64 - 1

/-- Digits read on after a number, as long as the result stays exact: the result, and how many
digits were read. -/
def absorb (value : Nat) : Text → Nat × Nat
  | [] => (value, 0)
  | d :: digits =>
    let next := value * 10 + (d.toNat - '0'.toNat)
    if maxNatural < next then (value, 0)
    else
      let (value, count) := absorb next digits
      (value, count + 1)

/-- A natural number rounded to 53 binary digits, a half to the even neighbour. -/
def round53 (n : Nat) : Nat :=
  let shift := n.log2 - 52
  let unit := Nat.pow 2 shift
  let rest := n % unit
  let down := n / unit
  if 2 * rest < unit ∨ (2 * rest = unit ∧ down % 2 = 0) then down * unit else (down + 1) * unit

/-- Whether `significand` times a power of ten is beyond the largest double, when the product is
taken of the nearest doubles. -/
def isOutOfRange (significand : Nat) (exponent : Int) : Bool :=
  if exponent < 0 ∨ significand = 0 then false
  else if 308 < exponent then true
  else Nat.pow 2 1024 - Nat.pow 2 970 ≤
    round53 significand * round53 (Nat.pow 10 exponent.toNat)

def exponent (source : Text) : Except JsonFault (Int × Text) := do
  let (negative, source) := match source with
    | '+' :: rest => (false, rest)
    | '-' :: rest => (true, rest)
    | source => (false, source)
  match source.takeWhile Char.isDigit, source with
  | [], [] => throw .incomplete
  | [], _ :: _ => throw .malformed
  | digits, _ =>
    let value : Int := (Nat.ofDigitChars 10 digits 0 : Nat)
    return (if negative then -value else value, source.dropWhile Char.isDigit)

def fraction (significand : Nat) (power : Int) (rest : Text) : Except JsonFault (Number × Text) :=
  if isOutOfRange significand power then .error .malformed else .ok (.other, rest)

def scaled (significand : Nat) (power : Int) : Text → Except JsonFault (Number × Text)
  | c :: source =>
    if c = 'e' ∨ c = 'E' then do
      let (more, rest) ← exponent source
      fraction significand (power + more) rest
    else fraction significand power (c :: source)
  | [] => fraction significand power []

def number (isPositive : Bool) (source : Text) : Except JsonFault (Number × Text) := do
  let digits := source.takeWhile Char.isDigit
  let rest := source.dropWhile Char.isDigit
  match digits, rest with
  | [], [] => throw .incomplete
  | [], _ :: _ => throw .malformed
  | '0' :: _ :: _, _ => throw .malformed
  | _, _ => pure ()
  let (value, count) := absorb 0 digits
  let power : Int := (digits.length - count : Nat)
  match rest with
  | '.' :: rest =>
    let decimals := rest.takeWhile Char.isDigit
    let after := rest.dropWhile Char.isDigit
    match decimals, after with
    | [], [] => throw .incomplete
    | [], _ :: _ => throw .malformed
    | _, _ => pure ()
    let (value, count) := absorb value decimals
    scaled value (power - count) after
  | c :: _ =>
    if c = 'e' ∨ c = 'E' then scaled value power rest
    else if power = 0 ∧ isPositive then return (.natural value, rest)
    else fraction value power rest
  | [] =>
    if power = 0 ∧ isPositive then return (.natural value, rest)
    else fraction value power rest

/-- The text after the digits at its front, of which there has to be one. -/
def skipDigits (source : Text) : Except JsonFault Text :=
  if source.takeWhile Char.isDigit = [] then .error .malformed
  else .ok (source.dropWhile Char.isDigit)

def skipExponent : Text → Except JsonFault Text
  | c :: source =>
    if c = 'e' ∨ c = 'E' then match source with
      | '+' :: source => skipDigits source
      | '-' :: source => skipDigits source
      | source => skipDigits source
    else .ok (c :: source)
  | [] => .ok []

/-- The text after a number whose value does not matter, from after its sign. -/
def skipNumber (source : Text) : Except JsonFault Text := do
  let rest ← match source with
    | '0' :: d :: rest => if d.isDigit then throw .malformed else pure (d :: rest)
    | source => skipDigits source
  match rest with
  | '.' :: rest => do skipExponent (← skipDigits rest)
  | rest => skipExponent rest

end Json
end MailTemplate
