import MailTemplate.Text.Pattern
import MailTemplate.Text.Word

/-! Layout tags as they are written: references to other files, and the two tags around a block.
Either end of a tag may carry a dash inside the brace, and white space next to it. -/

namespace MailTemplate

/-- The beginning of a tag: the brace, maybe a dash, and white space. -/
structure TagStart where
  dash : Bool
  space : Text
  deriving Repr, DecidableEq

/-- The end of a tag: white space, maybe a dash, and the brace. -/
structure TagEnd where
  space : Text
  dash : Bool
  deriving Repr, DecidableEq

namespace TagStart

def text (start : TagStart) : Text :=
  ['{', '%'] ++ (if start.dash then ['-'] else []) ++ start.space

def match? : Text → Option (TagStart × Text)
  | '{' :: '%' :: '-' :: rest => some (⟨true, Text.spaceOf rest⟩, Text.dropSpace rest)
  | '{' :: '%' :: rest => some (⟨false, Text.spaceOf rest⟩, Text.dropSpace rest)
  | _ => none

theorem exact {source rest : Text} {start : TagStart} (h : match? source = some (start, rest)) :
    source = start.text ++ rest := by
  unfold match? at h
  split at h <;> cases h <;> simp [text]

theorem text_ne_nil (start : TagStart) : start.text ≠ [] := by simp [text]

end TagStart

namespace TagEnd

def text (close : TagEnd) : Text :=
  close.space ++ (if close.dash then ['-'] else []) ++ ['%', '}']

def match? (source : Text) : Option (TagEnd × Text) :=
  match Text.dropSpace source with
  | '-' :: '%' :: '}' :: rest => some (⟨Text.spaceOf source, true⟩, rest)
  | '%' :: '}' :: rest => some (⟨Text.spaceOf source, false⟩, rest)
  | _ => none

theorem exact {source rest : Text} {close : TagEnd} (h : match? source = some (close, rest)) :
    source = close.text ++ rest := by
  have hs := Text.spaceOf_append_dropSpace source
  unfold match? at h
  split at h <;> cases h <;> simp_all [text]

end TagEnd

def gap? (source : Text) : Option (Text × Text) :=
  if Text.spaceOf source = [] then none else some (Text.spaceOf source, Text.dropSpace source)

theorem eq_append_of_gap? {source gap rest : Text} (h : gap? source = some (gap, rest)) :
    source = gap ++ rest := by
  simp only [gap?] at h
  split at h
  · simp at h
  · cases h
    simp

def word? (source : Text) : Option (Text × Text) :=
  let word := source.takeWhile Text.isWord
  if word = [] then none else some (word, source.dropWhile Text.isWord)

theorem eq_append_of_word? {source word rest : Text} (h : word? source = some (word, rest)) :
    source = word ++ rest := by
  simp only [word?] at h
  split at h
  · simp at h
  · cases h
    simp [List.takeWhile_append_dropWhile]

/-- The two quotes that may stand around a reference; they need not agree. -/
def isQuote (c : Char) : Bool := c == '"' || c == '\''

/-- A quoted reference at the front of a text: the quotes, and what stands between them. -/
structure Quoted where
  opening : Char
  content : Text
  closing : Char
  deriving Repr, DecidableEq

namespace Quoted

def text (quoted : Quoted) : Text := quoted.opening :: quoted.content ++ [quoted.closing]

/-- The quoted reference that begins a text. It is not empty and holds no quote of either kind. -/
def match? : Text → Option (Quoted × Text)
  | [] => none
  | opening :: source =>
    if isQuote opening then
      match source.takeWhile (!isQuote ·), source.dropWhile (!isQuote ·) with
      | [], _ => none
      | _, [] => none
      | content, closing :: rest => some (⟨opening, content, closing⟩, rest)
    else none

theorem exact {source rest : Text} {quoted : Quoted} (h : match? source = some (quoted, rest)) :
    source = quoted.text ++ rest := by
  unfold match? at h
  split at h
  · simp at h
  · next opening source =>
    have hs := List.takeWhile_append_dropWhile (p := (!isQuote ·)) (l := source)
    split at h
    · split at h <;> cases h
      simp_all [text]
    · simp at h

end Quoted

/-- A tag that names another file: its keyword, then the quoted reference. -/
structure ReferenceTag (keyword : Text) where
  start : TagStart
  gap : Text
  quoted : Quoted
  close : TagEnd
  deriving Repr, DecidableEq

namespace ReferenceTag

variable {keyword : Text}

def reference (tag : ReferenceTag keyword) : Text := tag.quoted.content

def text (tag : ReferenceTag keyword) : Text :=
  tag.start.text ++ keyword ++ tag.gap ++ tag.quoted.text ++ tag.close.text

def match? (keyword source : Text) : Option (ReferenceTag keyword × Text) := do
  let (start, rest) ← TagStart.match? source
  let rest ← Text.after? keyword rest
  let (gap, rest) ← gap? rest
  let (quoted, rest) ← Quoted.match? rest
  let (close, rest) ← TagEnd.match? rest
  return (⟨start, gap, quoted, close⟩, rest)

theorem exact {source rest : Text} {tag : ReferenceTag keyword}
    (h : match? keyword source = some (tag, rest)) : source = tag.text ++ rest := by
  simp only [match?, Option.bind_eq_bind, Option.bind_eq_some_iff, Prod.exists] at h
  obtain ⟨start, r₁, h₁, r₂, h₂, gap, r₃, h₃, quoted, r₄, h₄, close, r₅, h₅, h⟩ := h
  cases h
  rw [TagStart.exact h₁, Text.after?_eq_some_iff.1 h₂, eq_append_of_gap? h₃, Quoted.exact h₄,
    TagEnd.exact h₅]
  simp [text]

theorem text_ne_nil (tag : ReferenceTag keyword) : tag.text ≠ [] := by
  simp [text, TagStart.text]

def pattern (keyword : Text) : Pattern (ReferenceTag keyword) :=
  ⟨text, match? keyword, exact, fun _ => text_ne_nil _⟩

end ReferenceTag

structure BlockTag where
  start : TagStart
  gap : Text
  name : Text
  close : TagEnd
  deriving Repr, DecidableEq

namespace BlockTag

def keyword : Text := "block".toList

def text (tag : BlockTag) : Text :=
  tag.start.text ++ keyword ++ tag.gap ++ tag.name ++ tag.close.text

/-- The tag that begins a text; its name is a word. -/
def match? (source : Text) : Option (BlockTag × Text) := do
  let (start, rest) ← TagStart.match? source
  let rest ← Text.after? keyword rest
  let (gap, rest) ← gap? rest
  let (name, rest) ← word? rest
  let (close, rest) ← TagEnd.match? rest
  return (⟨start, gap, name, close⟩, rest)

theorem exact {source rest : Text} {tag : BlockTag} (h : match? source = some (tag, rest)) :
    source = tag.text ++ rest := by
  simp only [match?, Option.bind_eq_bind, Option.bind_eq_some_iff, Prod.exists] at h
  obtain ⟨start, r₁, h₁, r₂, h₂, gap, r₃, h₃, name, r₄, h₄, close, r₅, h₅, h⟩ := h
  cases h
  rw [TagStart.exact h₁, Text.after?_eq_some_iff.1 h₂, eq_append_of_gap? h₃,
    eq_append_of_word? h₄, TagEnd.exact h₅]
  simp [text]

/-- A gap, a given name and the end of a tag. The name may be any text, also one that begins with
white space, so every way to end the gap is tried, the longest gap first. -/
def namedEnd? (name : Text) : Text → Option (Text × TagEnd × Text)
  | [] => none
  | c :: source =>
    if Text.isSpace c then
      match namedEnd? name source with
      | some (gap, close, rest) => some (c :: gap, close, rest)
      | none => do
        let rest ← Text.after? name source
        let (close, rest) ← TagEnd.match? rest
        return ([c], close, rest)
    else none

theorem eq_append_of_namedEnd? {name source gap rest : Text} {close : TagEnd}
    (h : namedEnd? name source = some (gap, close, rest)) :
    source = gap ++ name ++ close.text ++ rest := by
  induction source generalizing gap close rest with
  | nil => simp [namedEnd?] at h
  | cons c source ih =>
    simp only [namedEnd?] at h
    split at h
    · split at h
      · next hn =>
        cases h
        simp [ih hn]
      · simp only [Option.bind_eq_bind, Option.bind_eq_some_iff, Prod.exists] at h
        obtain ⟨r₁, h₁, close, r₂, h₂, h⟩ := h
        cases h
        rw [Text.after?_eq_some_iff.1 h₁, TagEnd.exact h₂]
        simp
    · simp at h

/-- The tag that begins a text and opens a block of the given name. -/
def matchNamed? (name source : Text) : Option (BlockTag × Text) := do
  let (start, rest) ← TagStart.match? source
  let rest ← Text.after? keyword rest
  let (gap, close, rest) ← namedEnd? name rest
  return (⟨start, gap, name, close⟩, rest)

theorem exact_named {name source rest : Text} {tag : BlockTag}
    (h : matchNamed? name source = some (tag, rest)) : source = tag.text ++ rest := by
  simp only [matchNamed?, Option.bind_eq_bind, Option.bind_eq_some_iff, Prod.exists] at h
  obtain ⟨start, r₁, h₁, r₂, h₂, gap, close, r₃, h₃, h⟩ := h
  cases h
  rw [TagStart.exact h₁, Text.after?_eq_some_iff.1 h₂, eq_append_of_namedEnd? h₃]
  simp [text]

end BlockTag

/-- The tag that ends a block; a name after the keyword is allowed and has no meaning. -/
structure EndTag where
  start : TagStart
  label : Option (Text × Text)
  close : TagEnd
  deriving Repr, DecidableEq

namespace EndTag

def keyword : Text := "endblock".toList

def label? (source : Text) : Option ((Text × Text) × Text) := do
  let (gap, rest) ← gap? source
  let (word, rest) ← word? rest
  return ((gap, word), rest)

def text (tag : EndTag) : Text :=
  tag.start.text ++ keyword ++ (tag.label.elim [] fun (gap, word) => gap ++ word) ++ tag.close.text

def match? (source : Text) : Option (EndTag × Text) := do
  let (start, rest) ← TagStart.match? source
  let rest ← Text.after? keyword rest
  match label? rest with
  | some (label, rest) =>
    let (close, rest) ← TagEnd.match? rest
    return (⟨start, some label, close⟩, rest)
  | none =>
    let (close, rest) ← TagEnd.match? rest
    return (⟨start, none, close⟩, rest)

theorem exact {source rest : Text} {tag : EndTag} (h : match? source = some (tag, rest)) :
    source = tag.text ++ rest := by
  simp only [match?, Option.bind_eq_bind, Option.bind_eq_some_iff, Prod.exists] at h
  obtain ⟨start, r₁, h₁, r₂, h₂, h⟩ := h
  rw [TagStart.exact h₁, Text.after?_eq_some_iff.1 h₂]
  split at h
  · next label r₃ hl =>
    simp only [Option.bind_eq_some_iff, Prod.exists] at h
    simp only [label?, Option.bind_eq_bind, Option.bind_eq_some_iff, Prod.exists] at hl
    obtain ⟨close, r₄, h₄, h⟩ := h
    obtain ⟨gap, r₅, h₅, word, r₆, h₆, hl⟩ := hl
    cases h
    cases hl
    rw [eq_append_of_gap? h₅, eq_append_of_word? h₆, TagEnd.exact h₄]
    simp [text]
  · simp only [Option.bind_eq_some_iff, Prod.exists] at h
    obtain ⟨close, r₄, h₄, h⟩ := h
    cases h
    rw [TagEnd.exact h₄]
    simp [text]

theorem text_ne_nil (tag : EndTag) : tag.text ≠ [] := by simp [text, TagStart.text]

def pattern : Pattern EndTag := ⟨text, match?, exact, fun _ => text_ne_nil _⟩

end EndTag
end MailTemplate
