import MailTemplate.Template.Guard

/-! Placeholders in a text. A text with placeholders is laid out as its characters and the numbers of
its placeholders; revealing such a text expands the numbers, provided that no character of it begins
the lead of the guard. -/

namespace MailTemplate
namespace Guard

def isNonceChar (c : Char) : Bool := c.isAlphanum || c == '-' || c == '_'

/-- Whether the nonce is one that a guard can have. -/
def IsIssued (guard : Guard) : Prop := ∀ c ∈ guard.nonce, isNonceChar c = true

instance (guard : Guard) : Decidable guard.IsIssued :=
  List.decidableBAll (fun c => isNonceChar c = true) guard.nonce

/-- A text by its characters and the numbers of its placeholders. -/
abbrev Marked := List (Piece Nat)

/-- A marked text with its placeholders written out. -/
def write (guard : Guard) (marked : Marked) : Text :=
  marked.flatMap fun
    | .char c => [c]
    | .item id => guard.placeholder id

def spanText (guard : Guard) (id : Nat) : Text :=
  (guard.hidden[id]?).elim (guard.placeholder id) Span.text

def expand (guard : Guard) (marked : Marked) : Text :=
  marked.flatMap fun
    | .char c => [c]
    | .item id => guard.spanText id

/-- No character of a marked text begins the lead of the guard. -/
def IsClear (guard : Guard) : Marked → Prop
  | [] => True
  | .char c :: marked => ¬ guard.lead <+: c :: guard.write marked ∧ guard.IsClear marked
  | .item _ :: marked => guard.IsClear marked

section
variable (guard : Guard)

@[simp] theorem write_nil : guard.write [] = [] := rfl

@[simp] theorem write_char (c : Char) (marked : Marked) :
    guard.write (.char c :: marked) = c :: guard.write marked := rfl

@[simp] theorem write_item (id : Nat) (marked : Marked) :
    guard.write (.item id :: marked) = guard.placeholder id ++ guard.write marked := rfl

@[simp] theorem write_append (first second : Marked) :
    guard.write (first ++ second) = guard.write first ++ guard.write second :=
  List.flatMap_append

@[simp] theorem expand_nil : guard.expand [] = [] := rfl

@[simp] theorem expand_char (c : Char) (marked : Marked) :
    guard.expand (.char c :: marked) = c :: guard.expand marked := rfl

@[simp] theorem expand_item (id : Nat) (marked : Marked) :
    guard.expand (.item id :: marked) = guard.spanText id ++ guard.expand marked := rfl

@[simp] theorem expand_append (first second : Marked) :
    guard.expand (first ++ second) = guard.expand first ++ guard.expand second :=
  List.flatMap_append

@[simp] theorem write_map_char (text : Text) : guard.write (text.map .char) = text := by
  induction text with
  | nil => rfl
  | cons c text ih => simp [ih]

@[simp] theorem expand_map_char (text : Text) : guard.expand (text.map .char) = text := by
  induction text with
  | nil => rfl
  | cons c text ih => simp [ih]

def leadTail : Text := "mf:".toList ++ guard.nonce ++ [':']

theorem lead_eq : guard.lead = opener :: guard.leadTail := rfl

variable {guard}

theorem isNonceChar_opener : isNonceChar opener = false := by decide

theorem opener_notMem_leadTail (issued : guard.IsIssued) : opener ∉ guard.leadTail := by
  intro h
  simp only [leadTail, List.mem_append, List.mem_singleton] at h
  rcases h with (h | h) | h
  · revert h
    decide
  · have hc := issued _ h
    rw [isNonceChar_opener] at hc
    cases hc
  · revert h
    decide

theorem isDigit_of_mem_ofNat {c : Char} {n : Nat} (h : c ∈ Text.ofNat n) : c.isDigit = true :=
  Nat.isDigit_of_mem_toDigits (by decide) (by decide) h

theorem match?_reference (digits rest : Text) (hn : digits ≠ [])
    (hd : ∀ c ∈ digits, c.isDigit = true) :
    Reference.match? guard (guard.lead ++ digits ++ closer :: rest) =
      some (⟨digits⟩, rest) := by
  have ht : (digits ++ closer :: rest).takeWhile Char.isDigit = digits := by
    rw [List.takeWhile_append_of_pos hd, List.takeWhile_cons_of_neg (by decide), List.append_nil]
  have hr : (digits ++ closer :: rest).dropWhile Char.isDigit = closer :: rest := by
    rw [List.dropWhile_append_of_pos hd, List.dropWhile_cons_of_neg (by decide)]
  obtain ⟨d, ds, rfl⟩ := List.exists_cons_of_ne_nil hn
  simp only [Reference.match?, List.append_assoc, Text.after?_append, Option.bind_eq_bind,
    Option.bind_some, ht, hr, if_true]

theorem match?_placeholder (id : Nat) (rest : Text) :
    Reference.match? guard (guard.placeholder id ++ rest) = some (⟨Text.ofNat id⟩, rest) := by
  have h : Reference.match? guard (guard.lead ++ Text.ofNat id ++ closer :: rest) = _ :=
    match?_reference (Text.ofNat id) rest Nat.toDigits_ne_nil fun c hc => isDigit_of_mem_ofNat hc
  simpa [placeholder] using h

theorem id_ofNat (id : Nat) : (⟨Text.ofNat id⟩ : Reference guard).id = id :=
  Nat.ofDigitChars_ten_toDigits

theorem meaning_ofNat (id : Nat) :
    (⟨Text.ofNat id⟩ : Reference guard).meaning = guard.spanText id := by
  unfold Reference.meaning spanText
  rw [id_ofNat]
  cases guard.hidden[id]? <;> rfl

theorem lead_prefix_of_match? {source rest : Text} {reference : Reference guard}
    (h : Reference.match? guard source = some (reference, rest)) : guard.lead <+: source := by
  rw [Reference.exact h]
  exact ⟨reference.digits ++ closer :: rest, by simp [Reference.text]⟩

theorem match?_eq_none {source : Text} (h : ¬ guard.lead <+: source) :
    Reference.match? guard source = none := by
  cases hm : Reference.match? guard source with
  | none => rfl
  | some p => exact absurd (lead_prefix_of_match? hm) h

/-- Revealing a clear text expands its placeholders and nothing else; what they stand for is not
looked into. -/
theorem reveal_write {marked : Marked} (clear : guard.IsClear marked) :
    guard.reveal (guard.write marked) = guard.expand marked := by
  unfold reveal Pattern.replace
  induction marked with
  | nil => simp
  | cons piece marked ih =>
    cases piece with
    | char c =>
      have hm : (Reference.pattern guard).match? (c :: guard.write marked) = none :=
        match?_eq_none clear.1
      rw [write_char, (Reference.pattern guard).pieces_cons_of_match?_eq_none hm,
        List.flatMap_cons, ih clear.2]
      rfl
    | item id =>
      have hm : (Reference.pattern guard).match? (guard.placeholder id ++ guard.write marked) =
          some (⟨Text.ofNat id⟩, guard.write marked) := match?_placeholder id _
      rw [write_item, (Reference.pattern guard).pieces_of_match? hm, List.flatMap_cons,
        ih clear]
      simp only [meaning_ofNat, expand_item]

/-- A text without opening characters that stands before placeholders stands in what they stand for
as well. -/
theorem prefix_expand_of_prefix_write {text : Text} {marked : Marked} (hn : opener ∉ text)
    (h : text <+: guard.write marked) : text <+: guard.expand marked := by
  induction marked generalizing text with
  | nil => simpa using h
  | cons piece marked ih =>
    cases text with
    | nil => exact List.nil_prefix
    | cons c text =>
      cases piece with
      | char d =>
        obtain ⟨rfl, ht⟩ := List.cons_prefix_cons.1 h
        exact List.cons_prefix_cons.2 ⟨rfl, ih (fun hm => hn (List.mem_cons_of_mem _ hm)) ht⟩
      | item id =>
        have hc : c = opener := (List.cons_prefix_cons.1 h).1
        exact absurd hc.symm (fun he => hn (he ▸ List.mem_cons_self))

theorem isClear_of_not_infix_expand {marked : Marked} (issued : guard.IsIssued)
    (h : ¬ guard.lead <:+: guard.expand marked) : guard.IsClear marked := by
  induction marked with
  | nil => trivial
  | cons piece marked ih =>
    cases piece with
    | char c =>
      refine ⟨fun hl => h ?_, ih fun hi => h (hi.trans (List.suffix_cons _ _).isInfix)⟩
      rw [lead_eq] at hl ⊢
      obtain ⟨rfl, ht⟩ := List.cons_prefix_cons.1 hl
      have he := prefix_expand_of_prefix_write (opener_notMem_leadTail issued) ht
      exact (List.cons_prefix_cons.2 ⟨rfl, he⟩ : opener :: guard.leadTail <+:
        opener :: guard.expand marked).isInfix
    | item id => exact ih fun hi => h (hi.trans (List.suffix_append _ _).isInfix)

end
end Guard
end MailTemplate
