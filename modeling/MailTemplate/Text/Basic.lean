/-! Text as the list of its characters, its size in UTF-8 bytes, and the search for a fixed mark.
Positions in messages count bytes; everything else works on characters. White space is what Unicode
lists as such, but letter case is an ASCII matter: names of elements and attributes, properties and
keywords are compared and folded in the letters `A` to `Z` alone. -/

namespace MailTemplate

/-- A text, as its characters in order. -/
abbrev Text := List Char

namespace Text

def byteSize : Text → Nat
  | [] => 0
  | c :: text => c.utf8Size + byteSize text

@[simp] theorem byteSize_nil : byteSize [] = 0 := rfl

@[simp] theorem byteSize_cons (c : Char) (text : Text) :
    byteSize (c :: text) = c.utf8Size + byteSize text := rfl

@[simp] theorem byteSize_append (first second : Text) :
    byteSize (first ++ second) = byteSize first + byteSize second := by
  induction first with
  | nil => simp
  | cons c first ih => simp [ih, Nat.add_assoc]

def offset (whole rest : Text) : Nat := byteSize whole - byteSize rest

theorem offset_append (first rest : Text) : offset (first ++ rest) rest = byteSize first := by
  simp [offset]

def after? : (mark text : Text) → Option Text
  | [], text => some text
  | _ :: _, [] => none
  | m :: mark, c :: text => if m = c then after? mark text else none

theorem after?_eq_some_iff {mark text rest : Text} :
    after? mark text = some rest ↔ text = mark ++ rest := by
  induction mark generalizing text with
  | nil => simp [after?, eq_comm]
  | cons m mark ih => cases text with
    | nil => simp [after?]
    | cons c text =>
      by_cases h : m = c
      · simp [after?, h, ih]
      · simpa [after?, h] using fun e => absurd e.symm h

@[simp] theorem after?_append (mark rest : Text) : after? mark (mark ++ rest) = some rest :=
  after?_eq_some_iff.2 rfl

def cut? (mark : Text) : Text → Option (Text × Text)
  | [] => if mark = [] then some ([], []) else none
  | c :: text => match after? mark (c :: text) with
    | some rest => some ([], rest)
    | none => (cut? mark text).map fun (before, rest) => (c :: before, rest)

theorem eq_append_of_cut? {mark text before rest : Text}
    (h : cut? mark text = some (before, rest)) : text = before ++ mark ++ rest := by
  induction text generalizing before rest with
  | nil =>
    by_cases hm : mark = []
    · simp_all [cut?]
    · simp [cut?, hm] at h
  | cons c text ih =>
    simp only [cut?] at h
    split at h
    · next r hr =>
      cases h
      simpa using after?_eq_some_iff.1 hr
    · obtain ⟨⟨b, r⟩, hb, hr⟩ := Option.map_eq_some_iff.1 h
      cases hr
      simp [ih hb]

def contains (mark text : Text) : Bool := (cut? mark text).isSome

theorem length_dropWhile_le (p : Char → Bool) (source : Text) :
    (source.dropWhile p).length ≤ source.length := by
  have h := congrArg List.length (List.takeWhile_append_dropWhile (p := p) (l := source))
  simp only [List.length_append] at h
  omega

def dropEndWhile (p : Char → Bool) (text : Text) : Text := (text.reverse.dropWhile p).reverse

def beforeEnd? (mark text : Text) : Option Text :=
  (after? mark.reverse text.reverse).map List.reverse

theorem beforeEnd?_eq_some_iff {mark text rest : Text} :
    beforeEnd? mark text = some rest ↔ text = rest ++ mark := by
  simp only [beforeEnd?, Option.map_eq_some_iff, after?_eq_some_iff]
  constructor
  · rintro ⟨r, h, rfl⟩
    simpa using congrArg List.reverse h
  · rintro rfl
    exact ⟨rest.reverse, by simp, by simp⟩

def joinWith (separator : Text) : List Text → Text
  | [] => []
  | [text] => text
  | text :: next :: rest => text ++ separator ++ joinWith separator (next :: rest)

def ofNat (n : Nat) : Text := Nat.toDigits 10 n

def lower (text : Text) : Text := text.map Char.toLower

@[simp] theorem lower_append (first second : Text) :
    lower (first ++ second) = lower first ++ lower second := by simp [lower]

@[simp] theorem length_lower (text : Text) : (lower text).length = text.length := by simp [lower]

def equalIgnoringCase (first second : Text) : Bool := lower first == lower second

/-- The white space characters of Unicode. -/
def isSpace (c : Char) : Bool :=
  let n := c.toNat
  (0x9 ≤ n && n ≤ 0xD) || n == 0x20 || n == 0x85 || n == 0xA0 || n == 0x1680 ||
    (0x2000 ≤ n && n ≤ 0x200A) || n == 0x2028 || n == 0x2029 || n == 0x202F || n == 0x205F ||
    n == 0x3000

def spaceOf (text : Text) : Text := text.takeWhile isSpace

def dropSpace (text : Text) : Text := text.dropWhile isSpace

@[simp] theorem spaceOf_append_dropSpace (text : Text) : spaceOf text ++ dropSpace text = text :=
  List.takeWhile_append_dropWhile

theorem length_dropSpace_le (text : Text) : (dropSpace text).length ≤ text.length :=
  length_dropWhile_le _ _

def trimEnd (text : Text) : Text := dropEndWhile isSpace text

def trim (text : Text) : Text := trimEnd (dropSpace text)

def words (text : Text) : List Text := (text.splitOnP isSpace).filter (!·.isEmpty)

/-- White space within ASCII: space, tab, line feed, form feed, carriage return. -/
def isAsciiSpace (c : Char) : Bool :=
  c == ' ' || c == '\t' || c == '\n' || c == '\x0c' || c == '\r'

end Text
end MailTemplate
