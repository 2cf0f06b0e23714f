import MailTemplate.Proofs.Style.Braces

/-! Stylesheets read turn by turn at byte positions. Whatever a turn does at a position is checked: a cut
inside of a character, or a search for the end of a block where none begins, would end the reading. That
never happens. The turns go forward from one statement to the next, and what they read are the rules of
the text. -/

namespace MailTemplate
namespace Sheet
open Text

def cut (css : Text) (start stop : Nat) : Except Stop Text :=
  match slice? css start stop with
  | some part => .ok part
  | none => .error (.noBoundary start stop)

/-- The end of the block that begins at a position. It must not be looked for where none begins. -/
def closeBlock (css : Text) (opening : Nat) : Except Stop Nat :=
  if (bytes css)[opening]? = some '{'.toUInt8 then matchingBrace css opening
  else .error (.noBlock opening)

def atRuleEnd (css : Text) (start : Nat) : Except Stop Nat := do
  let rest ← cut css start (byteSize css)
  match find? ';' rest, find? '{' rest with
  | some semicolon, some brace =>
    if semicolon < brace then .ok (start + semicolon + 1)
    else (closeBlock css (start + brace)).map (· + 1)
  | none, some brace => (closeBlock css (start + brace)).map (· + 1)
  | some semicolon, none => .ok (start + semicolon + 1)
  | none, none => .ok (byteSize css)

/-- The rule at a position, if a selector of it is understood, and the position behind it. -/
def ruleAt (css : Text) (start : Nat) : Except Stop (Option Rule × Nat) := do
  let rest ← cut css start (byteSize css)
  match find? '{' rest with
  | none => .error (.fault (.unbalanced start))
  | some brace =>
    let closing ← closeBlock css (start + brace)
    let selectors ← cut css start (start + brace)
    let body ← cut css (start + brace + 1) closing
    .ok (rule? selectors body, closing + 1)

def isFillerByte (byte : UInt8) : Bool := " \t\n\x0c\r;".toList.any fun c => byte == c.toUInt8

/-- What is read at a position, where a byte stands: a rule or none, and the position to go on at. -/
def statement (css : Text) (position : Nat) (byte : UInt8) : Except Stop (Option Rule × Nat) :=
  if isFillerByte byte then .ok (none, position + 1)
  else if byte = '}'.toUInt8 then .error (.fault (.unbalanced position))
  else if byte = '@'.toUInt8 then (atRuleEnd css position).map fun next => (none, next)
  else ruleAt css position

/-- One turn of reading, if the text does not end at the position. -/
def turn (css : Text) (position : Nat) : Option (Except Stop (Option Rule × Nat)) :=
  ((bytes css)[position]?).map (statement css position)

/-- A stylesheet is read turn by turn from a position on: the positions of the turns, and what comes of
them. -/
inductive Turns (css : Text) : Nat → List Nat → Except Stop (List Rule) → Prop
  | done {position} (ht : turn css position = none) : Turns css position [] (.ok [])
  | stop {position cause} (ht : turn css position = some (.error cause)) :
    Turns css position [position] (.error cause)
  | next {position rule next positions result} (ht : turn css position = some (.ok (rule, next)))
    (h : Turns css next positions result) :
    Turns css position (position :: positions) (result.map (rule.toList ++ ·))

def faultAt (css fault : Text) : Stop := .fault (.unbalanced (offset css fault))

section
variable {css front part back rest words inner selectors body : Text} {position start stop next : Nat}
  {c : Char} {byte : UInt8} {positions others : List Nat} {result found : Except Stop (List Rule)}

theorem cut_append (front part back : Text) :
    cut (front ++ (part ++ back)) (byteSize front) (byteSize (front ++ part)) = .ok part := by
  rw [cut, slice?_eq_some_iff.2 ⟨front, back, (List.append_assoc _ _ _).symm, rfl, rfl⟩]

theorem cut_rest (front rest : Text) :
    cut (front ++ rest) (byteSize front) (byteSize (front ++ rest)) = .ok rest := by
  have h := cut_append front rest []
  rwa [List.append_nil] at h

theorem closeBlock_append (front inner : Text) :
    closeBlock (front ++ '{' :: inner) (byteSize front) =
      endAt (byteSize front) (byteSize front + 1) (block? 0 inner) := by
  rw [closeBlock, if_pos (getElem?_bytes_append (by decide) front inner), matchingBrace_append]

theorem atRuleEnd_tail (hs : ';' ∉ words) (hb : '{' ∉ words) (front : Text) :
    atRuleEnd (front ++ words) (byteSize front) = .ok (byteSize (front ++ words)) := by
  simp only [atRuleEnd, cut_rest, bind, Except.bind, find?_eq_none_iff.2 hs, find?_eq_none_iff.2 hb]

theorem atRuleEnd_line (hs : ';' ∉ words) (hb : '{' ∉ words) (front after : Text) :
    atRuleEnd (front ++ (words ++ ';' :: after)) (byteSize front) =
      .ok (byteSize (front ++ (words ++ [';']))) := by
  have hsize : byteSize (front ++ (words ++ [';'])) = byteSize front + byteSize words + 1 := by
    rw [byteSize_append, byteSize_append, Nat.add_assoc]
    rfl
  simp only [atRuleEnd, cut_rest, bind, Except.bind, find?_append hs]
  rw [hsize]
  cases hbrace : find? '{' (words ++ ';' :: after) with
  | none => rfl
  | some brace =>
    have hle : byteSize (words ++ [';']) ≤ brace :=
      byteSize_le_of_find? (c := '{') (by simpa using hb) (by simpa using hbrace)
    rw [byteSize_append] at hle
    exact if_pos hle

theorem atRuleEnd_block (hs : ';' ∉ words) (hb : '{' ∉ words) (front inner : Text) :
    atRuleEnd (front ++ (words ++ '{' :: inner)) (byteSize front) =
      (closeBlock (front ++ words ++ '{' :: inner) (byteSize (front ++ words))).map (· + 1) := by
  have hplace : byteSize (front ++ words) = byteSize front + byteSize words := byteSize_append _ _
  simp only [atRuleEnd, cut_rest, bind, Except.bind, find?_append hb]
  rw [List.append_assoc, hplace]
  cases hsemi : find? ';' (words ++ '{' :: inner) with
  | none => rfl
  | some semicolon => exact if_neg (Nat.not_lt.2 (byteSize_le_of_find? hs hsemi))

theorem atRuleEnd_append (front css : Text) : atRuleEnd (front ++ '@' :: css) (byteSize front) =
    ((afterAtRule css).map (offset (front ++ '@' :: css))).mapError (faultAt (front ++ '@' :: css)) := by
  obtain ⟨words, rest, rfl, hw, hrest⟩ := exists_isAtPrelude css
  have hs : ';' ∉ '@' :: words := by simpa using hw.semicolon
  have hb : '{' ∉ '@' :: words := by simpa using hw.brace
  rw [← List.cons_append]
  rcases hrest with rfl | ⟨after, rfl⟩ | ⟨inner, rfl⟩
  · rw [List.append_nil, List.append_nil, afterAtRule_tail hw, atRuleEnd_tail hs hb]
    rfl
  · rw [atRuleEnd_line hs hb, afterAtRule_line hw]
    have hwhole : front ++ ('@' :: words ++ ';' :: after) = front ++ ('@' :: words ++ [';']) ++ after := by
      simp
    exact congrArg Except.ok (offset_eq hwhole).symm
  · rw [atRuleEnd_block hs hb, closeBlock_append]
    cases hblock : block? 0 inner with
    | none =>
      rw [afterAtRule_unclosed hw (block?_eq_none_iff.1 hblock)]
      have hwhole : front ++ ('@' :: words ++ '{' :: inner) = front ++ '@' :: words ++ '{' :: inner := by
        simp
      exact congrArg (fun position => Except.error (Stop.fault (.unbalanced position)))
        (offset_eq hwhole).symm
    | some pair =>
      obtain ⟨body, rest⟩ := pair
      obtain ⟨rfl, hbody⟩ := block?_eq_some_iff.1 hblock
      rw [afterAtRule_block hw hbody]
      have hwhole : front ++ ('@' :: words ++ '{' :: (body ++ '}' :: rest)) =
          front ++ '@' :: words ++ '{' :: body ++ ['}'] ++ rest := by simp
      have hopen : '{'.utf8Size = 1 := by decide
      have hclose : '}'.utf8Size = 1 := by decide
      refine congrArg Except.ok ?_
      rw [offset_eq hwhole]
      simp [hopen, hclose, Nat.add_assoc]

theorem ruleAt_noBlock (h : '{' ∉ rest) (front : Text) :
    ruleAt (front ++ rest) (byteSize front) = .error (.fault (.unbalanced (byteSize front))) := by
  simp only [ruleAt, cut_rest, bind, Except.bind, find?_eq_none_iff.2 h]

theorem ruleAt_unclosed (hs : '{' ∉ selectors) (h : StaysOpen 0 inner) (front : Text) :
    ruleAt (front ++ (selectors ++ '{' :: inner)) (byteSize front) =
      .error (.fault (.unbalanced (byteSize (front ++ selectors)))) := by
  have hblock := closeBlock_append (front ++ selectors) inner
  rw [block?_eq_none_iff.2 h, byteSize_append, List.append_assoc] at hblock
  rw [ruleAt, cut_rest]
  simp only [bind, Except.bind, find?_append hs, hblock, endAt, byteSize_append]

theorem ruleAt_closed (hs : '{' ∉ selectors) (hb : IsBody 0 body) (front rest : Text) :
    ruleAt (front ++ (selectors ++ '{' :: (body ++ '}' :: rest))) (byteSize front) =
      .ok (rule? selectors body, byteSize (front ++ (selectors ++ '{' :: (body ++ ['}'])))) := by
  have hblock := closeBlock_append (front ++ selectors) (body ++ '}' :: rest)
  have hselectors := cut_append front selectors ('{' :: (body ++ '}' :: rest))
  have hbody := cut_append (front ++ (selectors ++ ['{'])) body ('}' :: rest)
  have hopen : '{'.utf8Size = 1 := by decide
  have hclose : '}'.utf8Size = 1 := by decide
  -- the three places in the form in which the positions add up
  simp only [block?_append hb, byteSize_append, byteSize_cons, byteSize_nil, List.append_assoc,
    List.singleton_append, hopen, Nat.add_zero, ← Nat.add_assoc] at hblock hselectors hbody
  rw [ruleAt, cut_rest]
  simp only [bind, Except.bind, find?_append hs, hblock, endAt, hselectors, hbody, byteSize_append,
    byteSize_cons, byteSize_nil, hopen, hclose, Nat.add_zero, ← Nat.add_assoc]

theorem utf8Size_of_isFiller (h : isFiller c = true) : c.utf8Size = 1 := by
  simp only [isFiller, isAsciiSpace, Bool.or_eq_true, beq_iff_eq] at h
  rcases h with ((((rfl | rfl) | rfl) | rfl) | rfl) | rfl <;> decide

theorem isFillerByte_eq (h : ∀ d, d.utf8Size = 1 → (byte = d.toUInt8 ↔ c = d)) :
    isFillerByte byte = isFiller c := by
  have hsame : ∀ d, d.utf8Size = 1 → (byte == d.toUInt8) = (c == d) := fun d hd =>
    Bool.eq_iff_iff.2 (by simpa using h d hd)
  simp [isFillerByte, isFiller, isAsciiSpace, hsame ' ' rfl, hsame '\t' rfl, hsame '\n' rfl,
    hsame '\x0c' rfl, hsame '\r' rfl, hsame ';' rfl, Bool.or_assoc]

theorem turn_end (css : Text) : turn css (byteSize css) = none := by
  rw [turn, getElem?_bytes_eq_none_iff.2 (Nat.le_refl _), Option.map_none]

theorem turn_filler (hc : isFiller c = true) (front css : Text) :
    turn (front ++ c :: css) (byteSize front) = some (.ok (none, byteSize (front ++ [c]))) := by
  obtain ⟨byte, hbyte, htold⟩ := exists_getElem?_bytes front c css
  rw [turn, hbyte, Option.map_some, statement, if_pos ((isFillerByte_eq htold).trans hc), byteSize_append,
    byteSize_cons, utf8Size_of_isFiller hc]
  rfl

theorem turn_stray (front css : Text) : turn (front ++ '}' :: css) (byteSize front) =
    some (.error (.fault (.unbalanced (byteSize front)))) := by
  rw [turn, getElem?_bytes_append (by decide), Option.map_some, statement, if_neg (by decide), if_pos rfl]

theorem turn_at (front css : Text) : turn (front ++ '@' :: css) (byteSize front) =
    some ((atRuleEnd (front ++ '@' :: css) (byteSize front)).map fun next => (none, next)) := by
  rw [turn, getElem?_bytes_append (by decide), Option.map_some, statement, if_neg (by decide),
    if_neg (by decide), if_pos rfl]

theorem turn_rule (hc : BeginsRule c) (front css : Text) : turn (front ++ c :: css) (byteSize front) =
    some (ruleAt (front ++ c :: css) (byteSize front)) := by
  obtain ⟨byte, hbyte, htold⟩ := exists_getElem?_bytes front c css
  obtain ⟨hfill, hclose, hat⟩ := hc
  rw [turn, hbyte, Option.map_some, statement, (isFillerByte_eq htold).trans hfill,
    if_neg Bool.false_ne_true, if_neg ((htold '}' (by decide)).not.2 hclose),
    if_neg ((htold '@' (by decide)).not.2 hat)]

theorem faultAt_append (front fault : Text) :
    faultAt (front ++ fault) fault = .fault (.unbalanced (byteSize front)) := by
  rw [faultAt, offset_append]

theorem exists_turn_at (h : afterAtRule css = .ok rest) (front : Text) : ∃ words, css = words ++ rest ∧
    turn (front ++ '@' :: css) (byteSize front) = some (.ok (none, byteSize (front ++ '@' :: words))) := by
  obtain ⟨words, rfl⟩ := exists_append_of_afterAtRule h
  refine ⟨words, rfl, ?_⟩
  have hwhole : front ++ '@' :: (words ++ rest) = front ++ '@' :: words ++ rest := by simp
  rw [turn_at, atRuleEnd_append, h]
  exact congrArg (fun next => some (Except.ok (none, next))) (offset_eq hwhole)

theorem turn_at_fault {fault : Text} (h : afterAtRule css = .error fault) (front : Text) :
    turn (front ++ '@' :: css) (byteSize front) =
      some (.error (faultAt (front ++ '@' :: css) fault)) := by
  rw [turn_at, atRuleEnd_append, h]
  rfl

theorem turn_noBlock (hc : BeginsRule c) (h : '{' ∉ c :: css) (front : Text) :
    turn (front ++ c :: css) (byteSize front) =
      some (.error (.fault (.unbalanced (byteSize front)))) := by
  rw [turn_rule hc, ruleAt_noBlock h]

theorem turn_prelude (hs : IsPrelude selectors) (front inner : Text) :
    turn (front ++ (selectors ++ '{' :: inner)) (byteSize front) =
      some (ruleAt (front ++ (selectors ++ '{' :: inner)) (byteSize front)) := by
  obtain ⟨c, rest, hwhole, hc⟩ := hs.exists_cons inner
  rw [hwhole, turn_rule hc]

theorem turn_unclosed (hs : IsPrelude selectors) (h : StaysOpen 0 inner) (front : Text) :
    turn (front ++ (selectors ++ '{' :: inner)) (byteSize front) =
      some (.error (.fault (.unbalanced (byteSize (front ++ selectors))))) := by
  rw [turn_prelude hs, ruleAt_unclosed hs.brace h]

theorem turn_closed (hs : IsPrelude selectors) (hb : IsBody 0 body) (front rest : Text) :
    turn (front ++ (selectors ++ '{' :: (body ++ '}' :: rest))) (byteSize front) =
      some (.ok (rule? selectors body, byteSize (front ++ (selectors ++ '{' :: (body ++ ['}']))))) := by
  rw [turn_prelude hs, ruleAt_closed hs.brace hb]

theorem Turns.pass (ht : turn css position = some (.ok (none, next)))
    (h : Turns css next positions result) : Turns css position (position :: positions) result := by
  have hnext := Turns.next ht h
  have hsame : result.map ((none : Option Rule).toList ++ ·) = result := by cases result <;> rfl
  rwa [hsame] at hnext

/-- From the end of any text on, the turns read the rules of what comes behind it. -/
theorem exists_turns (front rest : Text) : ∃ positions, Turns (front ++ rest) (byteSize front) positions
    ((rules rest).mapError (faultAt (front ++ rest))) := by
  -- a turn takes off what one step of `rules` takes off, and what it takes off is added to the front
  fun_induction rules rest generalizing front with
  | case1 => exact ⟨[], .done (by rw [List.append_nil, turn_end])⟩
  | case2 c css hfill ih =>
    obtain ⟨positions, h⟩ := ih (front ++ [c])
    rw [← List.append_cons] at h
    exact ⟨_, .pass (turn_filler hfill front css) h⟩
  | case3 css =>
    rw [Except.mapError, faultAt_append]
    exact ⟨_, .stop (turn_stray front css)⟩
  | case4 css fault hend => exact ⟨_, .stop (turn_at_fault hend front)⟩
  | case5 css rest hend _ _ ih =>
    obtain ⟨words, rfl, hturn⟩ := exists_turn_at hend front
    obtain ⟨positions, h⟩ := ih (front ++ '@' :: words)
    rw [List.append_assoc, List.cons_append] at h
    exact ⟨_, .pass hturn h⟩
  | case6 c css hfill hclose hat hcut =>
    have hc : BeginsRule c := ⟨by simpa [isFiller] using hfill, hclose, hat⟩
    have hbrace : '{' ∉ c :: css := by
      rwa [cut?_eq_none_iff (List.cons_ne_nil _ _), List.singleton_infix_iff] at hcut
    rw [Except.mapError, faultAt_append]
    exact ⟨_, .stop (turn_noBlock hc hbrace front)⟩
  | case7 c css hfill hclose hat selectors inner hcut hblock =>
    have hc : BeginsRule c := ⟨by simpa [isFiller] using hfill, hclose, hat⟩
    obtain ⟨hwhole, hs⟩ := isPrelude_of_cut? hc hcut
    rw [hwhole, Except.mapError, ← List.append_assoc, faultAt_append, List.append_assoc]
    exact ⟨_, .stop (turn_unclosed hs (block?_eq_none_iff.1 hblock) front)⟩
  | case8 c css hfill hclose hat selectors inner hcut body rest hblock ih =>
    have hc : BeginsRule c := ⟨by simpa [isFiller] using hfill, hclose, hat⟩
    obtain ⟨hwhole, hs⟩ := isPrelude_of_cut? hc hcut
    obtain ⟨rfl, hbody⟩ := block?_eq_some_iff.1 hblock
    obtain ⟨positions, h⟩ := ih (front ++ (selectors ++ '{' :: (body ++ ['}'])))
    have hshape : front ++ (selectors ++ '{' :: (body ++ ['}'])) ++ rest =
        front ++ (selectors ++ '{' :: (body ++ '}' :: rest)) := by simp
    rw [hshape] at h
    rw [hwhole, mapError_map]
    exact ⟨_, .next (turn_closed hs hbody front rest) h⟩

theorem Turns.unique (h : Turns css position positions result) (ho : Turns css position others found) :
    positions = others ∧ result = found := by
  induction h generalizing others found with
  | done ht => cases ho with
    | done => exact ⟨rfl, rfl⟩
    | stop hother => cases ht.symm.trans hother
    | next hother _ => cases ht.symm.trans hother
  | stop ht => cases ho with
    | done hother => cases ht.symm.trans hother
    | stop hother =>
      cases ht.symm.trans hother
      exact ⟨rfl, rfl⟩
    | next hother _ => cases ht.symm.trans hother
  | next ht _ ih => cases ho with
    | done hother => cases ht.symm.trans hother
    | stop hother => cases ht.symm.trans hother
    | next hother ho =>
      cases ht.symm.trans hother
      obtain ⟨rfl, rfl⟩ := ih ho
      exact ⟨rfl, rfl⟩

theorem lt_of_closeBlock {closing opening : Nat} (h : closeBlock css opening = .ok closing) :
    opening < closing := by
  unfold closeBlock at h
  split at h
  · next hb => exact ((matchingBrace_eq_ok_iff hb).1 h).1.1
  · cases h

theorem lt_of_atRuleEnd (hstart : start < byteSize css) (h : atRuleEnd css start = .ok next) :
    start < next := by
  obtain ⟨rest, -, h⟩ := bind_eq_ok_iff.1 h
  have hblock : ∀ brace, (closeBlock css (start + brace)).map (· + 1) = .ok next → start < next := by
    intro brace h
    obtain ⟨closing, hclosing, rfl⟩ := map_eq_ok_iff.1 h
    have hlt := lt_of_closeBlock hclosing
    omega
  split at h
  · split at h
    · cases h
      omega
    · exact hblock _ h
  · exact hblock _ h
  · cases h
    omega
  · cases h
    exact hstart

theorem lt_of_ruleAt {rule : Option Rule} (h : ruleAt css start = .ok (rule, next)) : start < next := by
  obtain ⟨rest, -, h⟩ := bind_eq_ok_iff.1 h
  split at h
  · cases h
  · obtain ⟨closing, hclosing, h⟩ := bind_eq_ok_iff.1 h
    obtain ⟨selectors, -, h⟩ := bind_eq_ok_iff.1 h
    obtain ⟨body, -, h⟩ := bind_eq_ok_iff.1 h
    cases h
    have hlt := lt_of_closeBlock hclosing
    omega

theorem lt_of_turn {rule : Option Rule} (h : turn css position = some (.ok (rule, next))) :
    position < byteSize css ∧ position < next := by
  obtain ⟨byte, hbyte, h⟩ := Option.map_eq_some_iff.1 h
  have hposition : position < byteSize css := by
    rw [← length_bytes]
    exact (List.getElem?_eq_some_iff.1 hbyte).1
  refine ⟨hposition, ?_⟩
  unfold statement at h
  split at h
  · cases h
    exact Nat.lt_succ_self _
  split at h
  · cases h
  split at h
  · obtain ⟨found, hend, he⟩ := map_eq_ok_iff.1 h
    cases he
    exact lt_of_atRuleEnd hposition hend
  · exact lt_of_ruleAt h

theorem Turns.length_le (h : Turns css position positions result) :
    positions.length ≤ byteSize css - position := by
  induction h with
  | done => exact Nat.zero_le _
  | stop ht =>
    obtain ⟨byte, hbyte, -⟩ := Option.map_eq_some_iff.1 ht
    have hlt := (List.getElem?_eq_some_iff.1 hbyte).1
    rw [length_bytes] at hlt
    rw [List.length_singleton]
    omega
  | next ht _ ih =>
    have hlt := lt_of_turn ht
    rw [List.length_cons]
    omega

theorem Turns.eq_error {cause : Stop} (h : Turns css position positions result) {place : Nat}
    (hm : place ∈ positions) (ht : turn css place = some (.error cause)) : result = .error cause := by
  induction h with
  | done => cases hm
  | stop hstop =>
    rw [List.mem_singleton.1 hm, hstop] at ht
    cases ht
    rfl
  | next hnext _ ih =>
    rcases List.mem_cons.1 hm with rfl | hm
    · cases ht.symm.trans hnext
    · rw [ih hm]
      rfl

theorem mapError_fault_parse {sheet : Text} (h : dropComments sheet = .ok css) :
    (parse sheet).mapError Stop.fault = (rules css).mapError (faultAt css) := by
  rw [parse, h]
  cases hrules : rules css <;> simp [hrules, Except.mapError, faultAt]

/-- The end of a block is the first position behind its brace up to which as many blocks are closed as
opened; it is found without counting below zero, and where there is none, that is a fault. From every
position a turn goes forward. So a text is read in one way, in no more turns than it has bytes, and what
is read are its rules. No turn looks for the end of a block where none begins, or cuts the text inside of
a character: one that ends the reading does so for a fault of the text. -/
theorem turns_forward (css : Text) :
    (∀ opening, (bytes css)[opening]? = some '{'.toUInt8 →
      (∀ last, matchingBrace css opening = .ok last ↔ IsLeast (blockEnds css opening) last) ∧
        ∀ cause, matchingBrace css opening = .error cause ↔
          cause = .fault (.unbalanced opening) ∧ blockEnds css opening = ∅) ∧
    (∀ front inner, css = front ++ '{' :: inner → matchingBrace css (byteSize front) =
      endAt (byteSize front) (byteSize front + 1) (block? 0 inner)) ∧
    (∀ position rule next, turn css position = some (.ok (rule, next)) → position < next) ∧
    ∃ positions, positions.length ≤ byteSize css ∧
      (∀ others result, Turns css 0 others result ↔
        others = positions ∧ result = (rules css).mapError (faultAt css)) ∧
      (∀ position ∈ positions, ∀ cause, turn css position = some (.error cause) →
        ∃ n, cause = .fault (.unbalanced n)) ∧
      ∀ sheet, dropComments sheet = .ok css →
        (parse sheet).mapError .fault = (rules css).mapError (faultAt css) := by
  obtain ⟨positions, hturns⟩ := exists_turns [] css
  refine ⟨fun opening h => ⟨fun last => matchingBrace_eq_ok_iff h, fun cause =>
    matchingBrace_eq_error_iff h⟩, ?_, fun position rule next h => (lt_of_turn h).2, positions,
    hturns.length_le, fun others result => ⟨fun h => ?_, ?_⟩, fun position hm cause ht => ?_,
    fun sheet h => mapError_fault_parse h⟩
  · rintro front inner rfl
    exact matchingBrace_append front inner
  · exact h.unique hturns
  · rintro ⟨rfl, rfl⟩
    exact hturns
  · have hresult := hturns.eq_error hm ht
    cases hrules : rules css with
    | ok found =>
      rw [hrules] at hresult
      cases hresult
    | error fault =>
      rw [hrules] at hresult
      cases hresult
      exact ⟨_, rfl⟩

theorem turns_forward_nested :
    let css := "@é\x7bp\x7b\x7d\x7dq\x7ba:ü\x7d".toList
    let rule : Rule := ⟨[.compound ⟨some ['q'], none, [], []⟩], [⟨['a'], ['ü'], false⟩]⟩
    (bytes css)[3]? = some '{'.toUInt8 ∧ matchingBrace css 3 = .ok 7 ∧ IsLeast (blockEnds css 3) 7 ∧
      turn css 8 = some (.ok (some rule, 15)) ∧ 8 < 15 ∧ Turns css 0 [0, 8] (.ok [rule]) := by
  intro css rule
  have hbrace : (bytes css)[3]? = some '{'.toUInt8 := by decide +kernel
  have hend : matchingBrace css 3 = .ok 7 := by decide +kernel
  have hfirst : turn css 0 = some (.ok (none, 8)) := by decide +kernel
  have hturn : turn css 8 = some (.ok (some rule, 15)) := by decide +kernel
  have hlast : turn css 15 = none := by decide +kernel
  obtain ⟨hblocks, -, hforward, -⟩ := turns_forward css
  exact ⟨hbrace, hend, ((hblocks 3 hbrace).1 7).1 hend, hturn, hforward 8 _ _ hturn,
    .next hfirst (.next hturn (.done hlast))⟩

end
end Sheet
end MailTemplate
