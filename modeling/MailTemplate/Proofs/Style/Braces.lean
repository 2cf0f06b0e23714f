import MailTemplate.Proofs.Style.Statements
import MailTemplate.Proofs.Text.Positions

/-! Braces counted in bytes. The end of a block is looked for from its brace on: it is the first position
up to which as many blocks are closed as opened, and it is where the content of the block ends in the
text. The block is open all along, so counting never gets below zero. -/

namespace MailTemplate
namespace Sheet
open Text

/-- Why a reading by byte positions ends early: for a fault of the stylesheet, or because it would do
what no reading may do. -/
inductive Stop where
  | fault (error : StyleError)
  /-- one more block is closed than is open -/
  | belowZero (position : Nat)
  /-- the end of a block is looked for where none begins -/
  | noBlock (position : Nat)
  /-- the text is cut inside of a character, or behind its end -/
  | noBoundary (start stop : Nat)
  deriving Repr, DecidableEq

/-- Braces are counted in the bytes from a position on, up to the one that leaves no block open. -/
def countBraces (opening : Nat) : (depth position : Nat) → List UInt8 → Except Stop Nat
  | _, _, [] => .error (.fault (.unbalanced opening))
  | depth, position, byte :: rest =>
    if byte = '{'.toUInt8 then countBraces opening (depth + 1) (position + 1) rest
    else if byte = '}'.toUInt8 then match depth with
      | 0 => .error (.belowZero position)
      | depth + 1 =>
        if depth = 0 then .ok position else countBraces opening depth (position + 1) rest
    else countBraces opening depth (position + 1) rest

/-- The position of the brace that closes the block opened at a position. -/
def matchingBrace (css : Text) (opening : Nat) : Except Stop Nat :=
  countBraces opening 0 opening ((bytes css).drop opening)

/-- The position of the end of a block that is found in the text, where its content begins at a position. -/
def endAt (opening position : Nat) : Option (Text × Text) → Except Stop Nat
  | none => .error (.fault (.unbalanced opening))
  | some (body, _) => .ok (position + byteSize body)

/-- The bytes from one position to another, both included, close as many blocks as they open. -/
def IsBalanced (css : Text) (first last : Nat) : Prop :=
  ((bytes css).extract first (last + 1)).count '}'.toUInt8 =
    ((bytes css).extract first (last + 1)).count '{'.toUInt8

/-- The positions behind a brace up to which as many blocks are closed as opened. -/
def blockEnds (css : Text) (opening : Nat) : Set Nat :=
  {last | opening < last ∧ last < (bytes css).length ∧ IsBalanced css opening last}

/-- The places in the bytes at which `depth` more blocks have been closed than opened. -/
def closers (depth : Nat) (source : List UInt8) : Set Nat :=
  {k | k < source.length ∧ (source.take (k + 1)).count '}'.toUInt8 =
    (source.take (k + 1)).count '{'.toUInt8 + depth}

/-- The result is the first position at which `depth` more blocks have been closed than opened, or a
fault if there is none. -/
def FindsFirst (opening depth position : Nat) (source : List UInt8) (result : Except Stop Nat) : Prop :=
  (∃ k, result = .ok (position + k) ∧ IsLeast (closers depth source) k) ∨
    (result = .error (.fault (.unbalanced opening)) ∧ closers depth source = ∅)

section
variable {css front inner rest : Text} {opening depth later position : Nat} {byte : UInt8}
  {source : List UInt8} {result : Except Stop Nat}

theorem zero_mem_closers_iff : 0 ∈ closers depth (byte :: source) ↔
    [byte].count '}'.toUInt8 = [byte].count '{'.toUInt8 + depth := by
  simp [closers]

theorem succ_mem_closers_open {k : Nat} :
    k + 1 ∈ closers depth ('{'.toUInt8 :: source) ↔ k ∈ closers (depth + 1) source := by
  have hne : ('{'.toUInt8 == '}'.toUInt8) = false := by decide
  simp [closers, List.count_cons, hne]
  omega

theorem succ_mem_closers_close {k : Nat} :
    k + 1 ∈ closers (depth + 1) ('}'.toUInt8 :: source) ↔ k ∈ closers depth source := by
  have hne : ('}'.toUInt8 == '{'.toUInt8) = false := by decide
  simp [closers, List.count_cons, hne]
  omega

theorem succ_mem_closers_other {k : Nat} (ho : byte ≠ '{'.toUInt8) (hc : byte ≠ '}'.toUInt8) :
    k + 1 ∈ closers depth (byte :: source) ↔ k ∈ closers depth source := by
  simp [closers, ho, hc]

theorem FindsFirst.cons (hzero : 0 ∉ closers depth (byte :: source))
    (hsucc : ∀ k, k + 1 ∈ closers depth (byte :: source) ↔ k ∈ closers later source)
    (h : FindsFirst opening later (position + 1) source result) :
    FindsFirst opening depth position (byte :: source) result := by
  rcases h with ⟨k, rfl, hk, hleast⟩ | ⟨rfl, hnone⟩
  · refine .inl ⟨k + 1, by rw [Nat.add_right_comm, Nat.add_assoc], (hsucc k).2 hk, ?_⟩
    rintro (_ | other) hother
    · exact absurd hother hzero
    · exact Nat.succ_le_succ (hleast ((hsucc other).1 hother))
  · refine .inr ⟨rfl, Set.eq_empty_of_forall_notMem ?_⟩
    rintro (_ | other) hother
    · exact hzero hother
    · exact Set.notMem_empty other (hnone ▸ (hsucc other).1 hother)

theorem findsFirst_countBraces (opening depth position : Nat) (source : List UInt8) :
    FindsFirst opening (depth + 1) position source
      (countBraces opening (depth + 1) position source) := by
  induction source generalizing depth position with
  | nil => exact .inr ⟨rfl, by simp [closers]⟩
  | cons byte source ih =>
    rw [countBraces]
    -- the first byte is the place only if it is a brace that closes the last block
    by_cases ho : byte = '{'.toUInt8
    · subst ho
      rw [if_pos rfl]
      refine (ih (depth + 1) (position + 1)).cons ?_ fun k => succ_mem_closers_open
      rw [zero_mem_closers_iff, List.count_singleton_self, List.count_eq_zero_of_not_mem (by decide)]
      omega
    by_cases hc : byte = '}'.toUInt8
    · subst hc
      rw [if_neg ho, if_pos rfl]
      cases depth with
      | zero => exact .inl ⟨0, rfl, zero_mem_closers_iff.2 rfl, fun other _ => Nat.zero_le other⟩
      | succ depth =>
        refine (ih depth (position + 1)).cons ?_ fun k => succ_mem_closers_close
        rw [zero_mem_closers_iff, List.count_singleton_self]
        omega
    · rw [if_neg ho, if_neg hc]
      refine (ih depth (position + 1)).cons ?_ fun k => succ_mem_closers_other ho hc
      rw [zero_mem_closers_iff, List.count_eq_zero_of_not_mem (by simpa using Ne.symm hc)]
      omega

theorem mem_blockEnds_iff {tail : List UInt8} (h : (bytes css).drop opening = '{'.toUInt8 :: tail)
    (k : Nat) : opening + 1 + k ∈ blockEnds css opening ↔ k ∈ closers 1 tail := by
  have hlength := congrArg List.length h
  rw [List.length_drop, List.length_cons] at hlength
  have hcount : opening + 1 + k + 1 - opening = k + 1 + 1 := by omega
  have hplace : opening < opening + 1 + k ∧ opening + 1 + k < (bytes css).length ↔
      k + 1 < ('{'.toUInt8 :: tail).length := by
    rw [List.length_cons]
    omega
  rw [← succ_mem_closers_open, closers, Set.mem_ofPred_eq, ← hplace, and_assoc, blockEnds,
    Set.mem_ofPred_eq, IsBalanced, List.extract, h, hcount]
  exact Iff.rfl

/-- The end of a block is the first position behind its brace up to which as many blocks are closed as
opened, and a fault is told where there is none. -/
theorem findsFirst_matchingBrace (h : (bytes css)[opening]? = some '{'.toUInt8) :
    (∃ last, matchingBrace css opening = .ok last ∧ IsLeast (blockEnds css opening) last) ∨
      (matchingBrace css opening = .error (.fault (.unbalanced opening)) ∧ blockEnds css opening = ∅) := by
  obtain ⟨hlt, hbyte⟩ := List.getElem?_eq_some_iff.1 h
  have hdrop := List.drop_eq_getElem_cons hlt
  rw [hbyte] at hdrop
  have hmem := mem_blockEnds_iff hdrop
  have hbehind : ∀ last ∈ blockEnds css opening, ∃ k, last = opening + 1 + k := fun last hlast =>
    Nat.exists_eq_add_of_le hlast.1
  have hfinds := findsFirst_countBraces opening 0 (opening + 1) ((bytes css).drop (opening + 1))
  have heq : matchingBrace css opening =
      countBraces opening 1 (opening + 1) ((bytes css).drop (opening + 1)) := by
    rw [matchingBrace, hdrop, countBraces, if_pos rfl]
  rw [heq]
  rcases hfinds with ⟨k, hok, hk, hleast⟩ | ⟨herror, hnone⟩
  · refine .inl ⟨_, hok, (hmem k).2 hk, fun last hlast => ?_⟩
    obtain ⟨other, rfl⟩ := hbehind last hlast
    exact Nat.add_le_add_left (hleast ((hmem other).1 hlast)) _
  · refine .inr ⟨herror, Set.eq_empty_of_forall_notMem fun last hlast => ?_⟩
    obtain ⟨other, rfl⟩ := hbehind last hlast
    exact Set.notMem_empty other (hnone ▸ (hmem other).1 hlast)

theorem matchingBrace_eq_ok_iff {last : Nat} (h : (bytes css)[opening]? = some '{'.toUInt8) :
    matchingBrace css opening = .ok last ↔ IsLeast (blockEnds css opening) last := by
  rcases findsFirst_matchingBrace h with ⟨found, hok, hleast⟩ | ⟨herror, hnone⟩
  · rw [hok, Except.ok.injEq]
    exact ⟨fun he => he ▸ hleast, fun hl => hleast.unique hl⟩
  · rw [herror]
    exact iff_of_false (fun he => by cases he) fun hl => Set.notMem_empty last (hnone ▸ hl.1)

theorem matchingBrace_eq_error_iff {cause : Stop} (h : (bytes css)[opening]? = some '{'.toUInt8) :
    matchingBrace css opening = .error cause ↔
      cause = .fault (.unbalanced opening) ∧ blockEnds css opening = ∅ := by
  rcases findsFirst_matchingBrace h with ⟨found, hok, hleast⟩ | ⟨herror, hnone⟩
  · rw [hok]
    exact iff_of_false (fun he => by cases he) fun hn => Set.notMem_empty found (hn.2 ▸ hleast.1)
  · rw [herror, Except.error.injEq, eq_comm]
    exact ⟨fun he => ⟨he, hnone⟩, fun hn => hn.1⟩

theorem countBraces_append {front : List UInt8} (ho : '{'.toUInt8 ∉ front) (hc : '}'.toUInt8 ∉ front)
    (back : List UInt8) : countBraces opening (depth + 1) position (front ++ back) =
      countBraces opening (depth + 1) (position + front.length) back := by
  induction front generalizing position with
  | nil => rfl
  | cons byte front ih =>
    rw [List.mem_cons, not_or] at ho hc
    rw [List.cons_append, countBraces, if_neg (Ne.symm ho.1), if_neg (Ne.symm hc.1), ih ho.2 hc.2,
      List.length_cons, Nat.add_assoc, Nat.add_comm 1]

theorem endAt_map (opening position : Nat) (c : Char) (found : Option (Text × Text)) :
    endAt opening position (found.map fun (body, rest) => (c :: body, rest)) =
      endAt opening (position + c.utf8Size) found := by
  cases found with
  | none => rfl
  | some pair => exact congrArg Except.ok (Nat.add_assoc _ _ _).symm

theorem countBraces_bytes (opening depth position : Nat) (css : Text) :
    countBraces opening (depth + 1) position (bytes css) = endAt opening position (block? depth css) := by
  induction css generalizing depth position with
  | nil => rfl
  | cons c css ih =>
    by_cases ho : c = '{'
    · subst ho
      have hbytes : bytes ('{' :: css) = '{'.toUInt8 :: bytes css := rfl
      rw [hbytes, countBraces, if_pos rfl, ih, block?_open, endAt_map]
      rfl
    by_cases hc : c = '}'
    · subst hc
      have hbytes : bytes ('}' :: css) = '}'.toUInt8 :: bytes css := rfl
      rw [hbytes, countBraces, if_neg (by decide), if_pos rfl]
      cases depth with
      | zero => rfl
      | succ depth =>
        rw [if_neg (Nat.succ_ne_zero depth), ih, block?_close, endAt_map]
        rfl
    · -- no byte of another character is one of the two braces
      have hopen : '{'.toUInt8 ∉ String.utf8EncodeChar c :=
        (toUInt8_mem_utf8EncodeChar_iff (by decide)).not.2 ho
      have hclose : '}'.toUInt8 ∉ String.utf8EncodeChar c :=
        (toUInt8_mem_utf8EncodeChar_iff (by decide)).not.2 hc
      rw [bytes_cons, countBraces_append hopen hclose, String.length_utf8EncodeChar, ih,
        block?_other ho hc, endAt_map]

theorem matchingBrace_append (front inner : Text) :
    matchingBrace (front ++ '{' :: inner) (byteSize front) =
      endAt (byteSize front) (byteSize front + 1) (block? 0 inner) := by
  have hbytes : bytes ('{' :: inner) = '{'.toUInt8 :: bytes inner := rfl
  rw [matchingBrace, drop_bytes_append, hbytes, countBraces, if_pos rfl, countBraces_bytes]

end
end Sheet
end MailTemplate
