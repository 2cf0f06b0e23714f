import MailTemplate.Proofs.Text.Bytes
import MailTemplate.Proofs.Text.Cut

/-! Byte positions of a text. Each character takes up as many bytes as its size; one of a single byte is
told by that byte wherever it stands, since no other character has it among its bytes. A text can be cut
between two characters, and not inside of one. -/

namespace MailTemplate
namespace Text

/-- The parts in front of a byte position and behind it, if it is not inside of a character and not
behind the end. -/
def cutAt? : Nat → Text → Option (Text × Text)
  | 0, text => some ([], text)
  | _ + 1, [] => none
  | position + 1, c :: text =>
    if position + 1 < c.utf8Size then none
    else (cutAt? (position + 1 - c.utf8Size) text).map fun (front, back) => (c :: front, back)

/-- The part between two byte positions, if they are in order and the text can be cut at both. -/
def slice? (text : Text) (start stop : Nat) : Option Text :=
  (cutAt? stop text).bind fun (front, _) => (cutAt? start front).map Prod.snd

def find? (c : Char) (text : Text) : Option Nat := (cut? [c] text).map fun (front, _) => byteSize front

section
variable {c d : Char} {text front part back : Text} {position start stop : Nat}

theorem cutAt?_append (front back : Text) :
    cutAt? (byteSize front) (front ++ back) = some (front, back) := by
  induction front with
  | nil => simp [cutAt?]
  | cons c front ih =>
    obtain ⟨size, hsize⟩ : ∃ size, byteSize (c :: front) = size + 1 :=
      Nat.exists_eq_add_one.2 (Nat.add_pos_left c.utf8Size_pos _)
    have hle : ¬ size + 1 < c.utf8Size := by
      rw [← hsize, byteSize_cons]
      omega
    have hrest : size + 1 - c.utf8Size = byteSize front := by
      rw [← hsize, byteSize_cons, Nat.add_sub_cancel_left]
    rw [hsize, List.cons_append, cutAt?, if_neg hle, hrest, ih]
    rfl

theorem eq_append_of_cutAt? (h : cutAt? position text = some (front, back)) :
    text = front ++ back ∧ byteSize front = position := by
  induction text generalizing position front with
  | nil =>
    cases position with
    | zero =>
      cases h
      exact ⟨rfl, rfl⟩
    | succ position => cases h
  | cons c text ih =>
    cases position with
    | zero =>
      cases h
      exact ⟨rfl, rfl⟩
    | succ position =>
      rw [cutAt?] at h
      split at h
      · cases h
      · obtain ⟨⟨rest, after⟩, hrest, he⟩ := Option.map_eq_some_iff.1 h
        cases he
        obtain ⟨rfl, hsize⟩ := ih hrest
        refine ⟨rfl, ?_⟩
        rw [byteSize_cons, hsize]
        omega

theorem slice?_eq_some_iff : slice? text start stop = some part ↔ ∃ front back,
    text = front ++ part ++ back ∧ byteSize front = start ∧ byteSize (front ++ part) = stop := by
  rw [slice?, Option.bind_eq_some_iff]
  constructor
  · rintro ⟨⟨whole, back⟩, hwhole, h⟩
    obtain ⟨⟨front, _⟩, hfront, rfl⟩ := Option.map_eq_some_iff.1 h
    obtain ⟨rfl, hstop⟩ := eq_append_of_cutAt? hwhole
    obtain ⟨rfl, hstart⟩ := eq_append_of_cutAt? hfront
    exact ⟨front, back, rfl, hstart, hstop⟩
  · rintro ⟨front, back, rfl, rfl, rfl⟩
    exact ⟨(front ++ part, back), cutAt?_append _ _,
      Option.map_eq_some_iff.2 ⟨(front, part), cutAt?_append _ _, rfl⟩⟩

theorem find?_eq_some_iff : find? c text = some position ↔ ∃ front back,
    text = front ++ c :: back ∧ c ∉ front ∧ byteSize front = position := by
  rw [find?, Option.map_eq_some_iff]
  constructor
  · rintro ⟨⟨front, back⟩, hcut, rfl⟩
    have hc := not_infix_of_cut? (List.cons_ne_nil c []) hcut
    rw [List.singleton_infix_iff] at hc
    exact ⟨front, back, by simpa using eq_append_of_cut? hcut, hc, rfl⟩
  · rintro ⟨front, back, rfl, hc, rfl⟩
    exact ⟨(front, back), cut?_singleton_append back hc, rfl⟩

theorem find?_eq_none_iff : find? c text = none ↔ c ∉ text := by
  rw [find?, Option.map_eq_none_iff, cut?_eq_none_iff (List.cons_ne_nil c []),
    List.singleton_infix_iff]

theorem find?_append (h : c ∉ front) (back : Text) :
    find? c (front ++ c :: back) = some (byteSize front) :=
  find?_eq_some_iff.2 ⟨front, back, rfl, h, rfl⟩

theorem byteSize_le_of_find? (h : c ∉ front) (hf : find? c (front ++ back) = some position) :
    byteSize front ≤ position := by
  obtain ⟨before, after, he, -, rfl⟩ := find?_eq_some_iff.1 hf
  obtain ⟨inner, rfl, -⟩ := exists_append_of_notMem h he
  rw [byteSize_append]
  exact Nat.le_add_right _ _

theorem bytes_append (front back : Text) : bytes (front ++ back) = bytes front ++ bytes back :=
  List.flatMap_append

theorem length_bytes (text : Text) : (bytes text).length = byteSize text := by
  induction text with
  | nil => rfl
  | cons c text ih => rw [bytes_cons, List.length_append, String.length_utf8EncodeChar, ih, byteSize_cons]

/-- The bytes of a character that takes up several are none of those that stand for a character. -/
theorem le_toNat_of_mem_utf8EncodeChar {byte : UInt8} (hc : c.utf8Size ≠ 1)
    (hb : byte ∈ String.utf8EncodeChar c) : 128 ≤ byte.toNat := by
  have hmore : ¬ c.val.toNat ≤ 127 := fun hle =>
    hc (Char.utf8Size_eq_one_iff.2 (UInt32.le_iff_toNat_le.2 hle))
  unfold String.utf8EncodeChar at hb
  generalize c.val.toNat = v at *
  dsimp only at hb
  rw [if_neg hmore] at hb
  split_ifs at hb <;> simp only [List.mem_cons, List.not_mem_nil, or_false] at hb
  · rcases hb with rfl | rfl <;> rw [UInt8.toNat_ofNat'] <;> omega
  · rcases hb with rfl | rfl | rfl <;> rw [UInt8.toNat_ofNat'] <;> omega
  · rcases hb with rfl | rfl | rfl | rfl <;> rw [UInt8.toNat_ofNat'] <;> omega

theorem toNat_toUInt8 (hd : d.utf8Size = 1) : d.toUInt8.toNat = d.toNat ∧ d.toNat < 128 := by
  have hle : d.toNat ≤ 127 := UInt32.le_iff_toNat_le.1 (Char.utf8Size_eq_one_iff.1 hd)
  have hbyte : d.toUInt8.toNat = d.toNat % 2 ^ 8 := UInt32.toNat_toUInt8 d.val
  omega

theorem utf8EncodeChar_of_utf8Size (hd : d.utf8Size = 1) : String.utf8EncodeChar d = [d.toUInt8] := by
  rw [String.utf8EncodeChar_eq_singleton hd, Char.toUInt8_val]

theorem toUInt8_mem_utf8EncodeChar_iff (hd : d.utf8Size = 1) :
    d.toUInt8 ∈ String.utf8EncodeChar c ↔ c = d := by
  obtain ⟨hbyte, hlt⟩ := toNat_toUInt8 hd
  constructor
  · intro h
    by_cases hc : c.utf8Size = 1
    · rw [utf8EncodeChar_of_utf8Size hc, List.mem_singleton] at h
      rw [h, (toNat_toUInt8 hc).1] at hbyte
      exact Char.toNat_inj.1 hbyte
    · have := le_toNat_of_mem_utf8EncodeChar hc h
      omega
  · rintro rfl
    rw [utf8EncodeChar_of_utf8Size hd]
    exact List.mem_singleton_self _

theorem drop_bytes_append (front back : Text) :
    (bytes (front ++ back)).drop (byteSize front) = bytes back := by
  rw [bytes_append, ← length_bytes, List.drop_left]

theorem getElem?_bytes_eq_none_iff : (bytes text)[position]? = none ↔ byteSize text ≤ position := by
  rw [List.getElem?_eq_none_iff, length_bytes]

theorem offset_eq (h : text = front ++ back) : offset text back = byteSize front :=
  h ▸ offset_append front back

/-- Where a character begins, its first byte tells whether it is one of a single byte. -/
theorem exists_getElem?_bytes (front : Text) (c : Char) (back : Text) :
    ∃ byte, (bytes (front ++ c :: back))[byteSize front]? = some byte ∧
      ∀ d, d.utf8Size = 1 → (byte = d.toUInt8 ↔ c = d) := by
  obtain ⟨byte, rest, hbytes⟩ := List.exists_cons_of_ne_nil (String.utf8EncodeChar_ne_nil (c := c))
  refine ⟨byte, ?_, fun d hd => ⟨?_, ?_⟩⟩
  · rw [← List.head?_drop, drop_bytes_append, bytes_cons, hbytes]
    rfl
  · rintro rfl
    exact (toUInt8_mem_utf8EncodeChar_iff hd).1 (hbytes ▸ List.mem_cons_self)
  · rintro rfl
    rw [utf8EncodeChar_of_utf8Size hd] at hbytes
    exact (List.cons.inj hbytes).1.symm

theorem getElem?_bytes_append (hc : c.utf8Size = 1) (front back : Text) :
    (bytes (front ++ c :: back))[byteSize front]? = some c.toUInt8 := by
  obtain ⟨byte, hbyte, htold⟩ := exists_getElem?_bytes front c back
  rw [hbyte, (htold c hc).2 rfl]

end
end Text
end MailTemplate
