import MailTemplate.Proofs.Guard.Placeholder
import Mathlib.Data.List.TakeWhile

/-! Sessions of a guard. Texts that are hidden one after the other are all brought back by the guard
that has hidden the last of them: the spans take consecutive numbers, and a number once given keeps
its span. -/

namespace MailTemplate
namespace Guard

/-- The spans among the pieces of a text that are hidden: all but those of the layout. -/
def secrets (pieces : List (Piece Span)) : List Span :=
  (pieces.filterMap Piece.item?).filter (!·.isStructural)

def number (first : Nat) : List (Piece Span) → Marked
  | [] => []
  | .char c :: pieces => .char c :: number first pieces
  | .item span :: pieces =>
    if span.isStructural then span.text.map .char ++ number first pieces
    else .item first :: number (first + 1) pieces

/-- The spans of a text that are hidden, in order. -/
def secretsOf (source : Text) : List Span := secrets (Span.pattern.pieces source)

def numbered (guard : Guard) (first : Nat) (source : Text) : Text :=
  guard.write (number first (Span.pattern.pieces source))

def hideAll (guard : Guard) : List Text → Guard × List Text
  | [] => (guard, [])
  | source :: sources =>
    let (next, text) := guard.hide source
    let (last, texts) := next.hideAll sources
    (last, text :: texts)

def remember (guard : Guard) (spans : List Span) : Guard :=
  { guard with hidden := guard.hidden ++ spans.toArray }

/-- Texts as a guard hides them one after the other, the spans of each numbered after those of the
ones before it. -/
def numberedAll (guard : Guard) : (first : Nat) → List Text → List Text
  | _, [] => []
  | first, source :: sources =>
    guard.numbered first source ::
      guard.numberedAll (first + (secretsOf source).length) sources

/-- A text in which no placeholder of the guard has a number that the guard has given. -/
def Ignores (guard : Guard) (text : Text) : Prop :=
  ∀ digits : Text, digits ≠ [] → (∀ c ∈ digits, c.isDigit = true) →
    guard.lead ++ digits ++ [closer] <:+: text →
      guard.hidden.size ≤ Nat.ofDigitChars 10 digits 0

@[simp] theorem secrets_char (c : Char) (pieces : List (Piece Span)) :
    secrets (.char c :: pieces) = secrets pieces := rfl

theorem secrets_structural {span : Span} (h : span.isStructural = true)
    (pieces : List (Piece Span)) : secrets (.item span :: pieces) = secrets pieces := by
  simp [secrets, Piece.item?, h]

theorem secrets_item {span : Span} (h : ¬ span.isStructural = true)
    (pieces : List (Piece Span)) :
    secrets (.item span :: pieces) = span :: secrets pieces := by
  simp [secrets, Piece.item?, h]

section
variable {guard : Guard}

@[simp] theorem nonce_remember (spans : List Span) :
    (guard.remember spans).nonce = guard.nonce := rfl

@[simp] theorem lead_remember (spans : List Span) :
    (guard.remember spans).lead = guard.lead := rfl

@[simp] theorem write_remember (spans : List Span) (marked : Marked) :
    (guard.remember spans).write marked = guard.write marked := rfl

@[simp] theorem toList_remember (spans : List Span) :
    (guard.remember spans).hidden.toList = guard.hidden.toList ++ spans := by simp [remember]

@[simp] theorem size_remember (spans : List Span) :
    (guard.remember spans).hidden.size = guard.hidden.size + spans.length := by simp [remember]

@[simp] theorem remember_nil : guard.remember [] = guard := by simp [remember]

theorem remember_remember (first second : List Span) :
    (guard.remember first).remember second = guard.remember (first ++ second) := by
  simp [remember]

theorem hidePieces_eq (pieces : List (Piece Span)) :
    guard.hidePieces pieces =
      (guard.remember (secrets pieces), guard.write (number guard.hidden.size pieces)) := by
  induction pieces generalizing guard with
  | nil => simp [hidePieces, secrets, number]
  | cons piece pieces ih =>
    cases piece with
    | char c => simp [hidePieces, hidePiece, ih, number]
    | item span =>
      by_cases hs : span.isStructural
      · simp [hidePieces, hidePiece, hs, ih, secrets_structural hs, number]
      · have hp : { guard with hidden := guard.hidden.push span } = guard.remember [span] := by
          simp [remember]
        have hr : (guard.remember [span]).remember (secrets pieces) = _ := remember_remember _ _
        simp only [hidePieces, hidePiece, hs, Bool.false_eq_true, if_false, hp, ih, hr,
          secrets_item hs, number, write_item, write_remember, size_remember,
          List.length_singleton, List.singleton_append]

theorem hide_eq (source : Text) :
    guard.hide source =
      (guard.remember (secretsOf source), guard.numbered guard.hidden.size source) :=
  hidePieces_eq _

theorem numberedAll_remember (spans : List Span) (first : Nat) (sources : List Text) :
    (guard.remember spans).numberedAll first sources = guard.numberedAll first sources := by
  induction sources generalizing first with
  | nil => rfl
  | cons source sources ih =>
    simp only [numberedAll, ih]
    rfl

theorem hideAll_eq (sources : List Text) :
    guard.hideAll sources =
      (guard.remember (sources.flatMap secretsOf),
        guard.numberedAll guard.hidden.size sources) := by
  induction sources generalizing guard with
  | nil => simp [hideAll, numberedAll]
  | cons source sources ih =>
    simp only [hideAll, hide_eq, ih, remember_remember, size_remember, numberedAll_remember,
      List.flatMap_cons, numberedAll]

theorem expand_number {first : Nat} {pieces : List (Piece Span)} {later : List Span}
    (h : guard.hidden.toList.drop first = secrets pieces ++ later) :
    guard.expand (number first pieces) = pieces.flatMap Span.pattern.pieceText := by
  induction pieces generalizing first with
  | nil => rfl
  | cons piece pieces ih =>
    cases piece with
    | char c =>
      rw [number, expand_char, ih h]
      rfl
    | item span =>
      by_cases hs : span.isStructural
      · rw [secrets_structural hs] at h
        simp only [number, hs, if_true, expand_append, expand_map_char, ih h, List.flatMap_cons]
        rfl
      · rw [secrets_item hs, List.cons_append] at h
        have hlt : first < guard.hidden.toList.length := by
          have hl := congrArg List.length h
          simp only [List.length_drop, List.length_cons] at hl
          omega
        rw [List.drop_eq_getElem_cons hlt] at h
        obtain ⟨hspan, hrest⟩ := List.cons.inj h
        have hsome : guard.hidden[first]? = some span := by
          rw [← hspan, ← Array.getElem?_toList, List.getElem?_eq_getElem hlt]
        simp only [number, hs, Bool.false_eq_true, if_false, expand_item, ih hrest,
          List.flatMap_cons]
        simp only [spanText, hsome, Option.elim_some]
        rfl

/-- A text is brought back by every guard whose table has its secrets at their numbers, also if
the table has grown since. -/
theorem reveal_numbered {first : Nat} {source : Text} {later : List Span}
    (issued : guard.IsIssued) (foreign : ¬ guard.lead <:+: source)
    (h : guard.hidden.toList.drop first = secretsOf source ++ later) :
    guard.reveal (guard.numbered first source) = source := by
  have he : guard.expand (number first (Span.pattern.pieces source)) = source := by
    rw [expand_number h, Span.pattern.flatMap_pieceText_pieces]
  rw [numbered, reveal_write (isClear_of_not_infix_expand issued (by rwa [he])), he]

theorem map_reveal_numberedAll {first : Nat} {sources : List Text} {later : List Span}
    (issued : guard.IsIssued) (foreign : ∀ source ∈ sources, ¬ guard.lead <:+: source)
    (h : guard.hidden.toList.drop first = sources.flatMap secretsOf ++ later) :
    (guard.numberedAll first sources).map guard.reveal = sources := by
  induction sources generalizing first with
  | nil => rfl
  | cons source sources ih =>
    rw [List.flatMap_cons, List.append_assoc] at h
    have hd : guard.hidden.toList.drop (first + (secretsOf source).length) =
        sources.flatMap secretsOf ++ later := by
      rw [← List.drop_drop, h, List.drop_left]
    rw [numberedAll, List.map_cons, reveal_numbered issued (foreign _ List.mem_cons_self) h,
      ih (fun text ht => foreign text (List.mem_cons_of_mem _ ht)) hd]

theorem reveal_hide {nonce source : Text} (issued : (fresh nonce).IsIssued) (ho : opener ∉ source) :
    ((fresh nonce).hide source).1.reveal ((fresh nonce).hide source).2 = source := by
  have hforeign : ¬ (fresh nonce).lead <:+: source := fun h => ho (h.subset List.mem_cons_self)
  let guard := (fresh nonce).remember (secretsOf source)
  have htable : guard.hidden.toList.drop 0 = secretsOf source ++ [] := by
    rw [toList_remember, List.append_nil]
    rfl
  rw [hide_eq]
  change guard.reveal (guard.numbered 0 source) = source
  exact reveal_numbered issued hforeign htable

theorem digits_of_match? {source rest : Text} {reference : Reference guard}
    (h : Reference.match? guard source = some (reference, rest)) :
    reference.digits ≠ [] ∧ ∀ c ∈ reference.digits, c.isDigit = true := by
  simp only [Reference.match?, Option.bind_eq_bind, Option.bind_eq_some_iff] at h
  obtain ⟨r, -, h⟩ := h
  have hall : ∀ c ∈ r.takeWhile Char.isDigit, c.isDigit = true := fun c hc =>
    List.mem_takeWhile_imp hc
  split at h
  · next d digits c rest' ht hr =>
    split at h
    · cases h
      rw [ht] at hall
      exact ⟨List.cons_ne_nil _ _, hall⟩
    · cases h
  · cases h

/-- A text is left as it is when its placeholders have no number that the guard has given. -/
theorem reveal_eq_self {text : Text} (h : guard.Ignores text) : guard.reveal text = text := by
  refine (Reference.pattern guard).replace_eq_self fun reference hp => ?_
  obtain ⟨source, rest, hs, hm⟩ := (Reference.pattern guard).match?_of_mem_pieces hp
  obtain ⟨hn, hd⟩ := digits_of_match? hm
  have he : reference.text <:+: text := by
    refine List.IsInfix.trans ?_ hs.isInfix
    rw [Reference.exact hm]
    exact (List.prefix_append _ _).isInfix
  have hg : guard.hidden[reference.id]? = none := Array.getElem?_eq_none (h _ hn hd he)
  simp only [Reference.meaning, hg]
  rfl

/-- Whatever texts without its lead a guard hides one after the other, it brings all of them back at
the end. The spans are numbered in the order of hiding, after those that the guard knew before,
whose numbers stay; and a text without a number of the guard is not touched. -/
theorem reveal_hideAll (guard : Guard) (sources : List Text) (issued : guard.IsIssued)
    (foreign : ∀ source ∈ sources, ¬ guard.lead <:+: source) :
    (guard.hideAll sources).2.map (guard.hideAll sources).1.reveal = sources ∧
      (guard.hideAll sources).1.nonce = guard.nonce ∧
      (guard.hideAll sources).1.hidden.toList =
        guard.hidden.toList ++ sources.flatMap secretsOf ∧
      (guard.hideAll sources).2 = guard.numberedAll guard.hidden.size sources ∧
      ∀ text, (guard.hideAll sources).1.Ignores text →
        (guard.hideAll sources).1.reveal text = text := by
  rw [hideAll_eq]
  refine ⟨?_, nonce_remember _, toList_remember _, rfl, fun text => reveal_eq_self⟩
  have hd : (guard.remember (sources.flatMap secretsOf)).hidden.toList.drop guard.hidden.size =
      sources.flatMap secretsOf ++ [] := by
    rw [toList_remember, ← Array.length_toList, List.drop_left, List.append_nil]
  rw [← numberedAll_remember (sources.flatMap secretsOf)]
  exact map_reveal_numberedAll issued foreign hd

/-- A session with a nested brace, a span without an end, tags of the layout, and a placeholder of
another guard. -/
theorem reveal_hideAll_session :
    let guard : Guard := .fresh "Ab-9_z".toList
    let sources : List Text := [
      "a \x7b\x7b \x7b'k': 1\x7d \x7d\x7d b \x7b% block x %\x7d".toList,
      "\x7b% if y %\x7d\x7b\x7b open".toList,
      "\uE000mf:Other:0\uE001\x7b# note #\x7d".toList]
    (∀ source ∈ sources, ¬ guard.lead <:+: source) ∧
      (guard.hideAll sources).2.map (guard.hideAll sources).1.reveal = sources := by
  refine ⟨by decide +kernel, ?_⟩
  exact (reveal_hideAll (.fresh "Ab-9_z".toList) _ (by decide +kernel) (by decide +kernel)).1

end
end Guard
end MailTemplate
