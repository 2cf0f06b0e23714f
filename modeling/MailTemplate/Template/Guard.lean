import MailTemplate.Template.Span

/-! Guards hide template syntax while markup and styles are worked on. Every span is swapped for a
placeholder that names the guard and the span's place in the guard's table; revealing a text swaps
the placeholders of the same guard back. Tags of the layout are never hidden. -/

namespace MailTemplate

/-- A guard: what tells its placeholders from those of other guards, and the spans hidden so far.
The number of a span is its place in the table. -/
structure Guard where
  nonce : Text
  hidden : Array Span
  deriving Repr, DecidableEq

namespace Guard

/-- The private-use character that begins a placeholder. -/
def opener : Char := '\uE000'

def closer : Char := '\uE001'

def fresh (nonce : Text) : Guard := ⟨nonce, #[]⟩

def lead (guard : Guard) : Text := opener :: "mf:".toList ++ guard.nonce ++ [':']

def placeholder (guard : Guard) (id : Nat) : Text :=
  guard.lead ++ Text.ofNat id ++ [closer]

/-- One piece of a text hidden, if it is a span and does not belong to the layout. -/
def hidePiece (guard : Guard) : Piece Span → Guard × Text
  | .char c => (guard, [c])
  | .item span =>
    if span.isStructural then (guard, span.text)
    else ({ guard with hidden := guard.hidden.push span }, guard.placeholder guard.hidden.size)

def hidePieces (guard : Guard) : List (Piece Span) → Guard × Text
  | [] => (guard, [])
  | piece :: pieces =>
    let (guard, first) := guard.hidePiece piece
    let (guard, rest) := guard.hidePieces pieces
    (guard, first ++ rest)

def hide (guard : Guard) (source : Text) : Guard × Text :=
  guard.hidePieces (Span.pattern.pieces source)

structure Reference (guard : Guard) where
  digits : Text
  deriving Repr, DecidableEq

namespace Reference

variable {guard : Guard}

def text (reference : Reference guard) : Text := guard.lead ++ reference.digits ++ [closer]

def id (reference : Reference guard) : Nat := Nat.ofDigitChars 10 reference.digits 0

/-- The placeholder of this guard that begins a text; any decimal number will do. -/
def match? (guard : Guard) (source : Text) : Option (Reference guard × Text) := do
  let rest ← Text.after? guard.lead source
  match rest.takeWhile Char.isDigit, rest.dropWhile Char.isDigit with
  | d :: digits, c :: rest => if c = closer then some (⟨d :: digits⟩, rest) else none
  | _, _ => none

theorem exact {source rest : Text} {reference : Reference guard}
    (h : match? guard source = some (reference, rest)) : source = reference.text ++ rest := by
  simp only [match?, Option.bind_eq_bind, Option.bind_eq_some_iff] at h
  obtain ⟨r, hr, h⟩ := h
  rw [Text.after?_eq_some_iff.1 hr]
  have hs := List.takeWhile_append_dropWhile (p := Char.isDigit) (l := r)
  split at h
  · split at h
    · cases h
      simp_all [text]
    · simp at h
  · simp at h

theorem text_ne_nil (reference : Reference guard) : reference.text ≠ [] := by
  simp [text, lead]

def pattern (guard : Guard) : Pattern (Reference guard) :=
  ⟨text, match? guard, exact, fun _ => text_ne_nil _⟩

/-- What a placeholder stands for; itself, if the guard has no span of that number. -/
def meaning (reference : Reference guard) : Text :=
  match guard.hidden[reference.id]? with
  | some span => span.text
  | none => reference.text

end Reference

def reveal (guard : Guard) (source : Text) : Text :=
  (Reference.pattern guard).replace Reference.meaning source

def holdsPlaceholder (source : Text) : Bool := decide (opener ∈ source)

end Guard
end MailTemplate
