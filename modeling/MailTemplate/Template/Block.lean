import MailTemplate.Template.Tag

/-! Blocks: named parts of a template between a block tag and the first end tag after it. Blocks
do not nest: whatever stands before that end tag is the body. -/

namespace MailTemplate

structure Block where
  tag : BlockTag
  body : Text
  close : EndTag
  deriving Repr, DecidableEq

namespace Block

def name (block : Block) : Text := block.tag.name

def text (block : Block) : Text := block.tag.text ++ block.body ++ block.close.text

theorem text_ne_nil (block : Block) : block.text ≠ [] := by
  simp [text, BlockTag.text, TagStart.text]

/-- The block of an opening tag: the body reaches to the first end tag in `source`. -/
def ofTag? (tag : BlockTag) (source : Text) : Option (Block × Text) :=
  (EndTag.pattern.first? source).map fun (body, close, rest) => (⟨tag, body, close⟩, rest)

theorem exact_ofTag {tag : BlockTag} {source rest : Text} {block : Block}
    (h : ofTag? tag source = some (block, rest)) : tag.text ++ source = block.text ++ rest := by
  obtain ⟨⟨body, close, r⟩, hf, hb⟩ := Option.map_eq_some_iff.1 h
  cases hb
  rw [EndTag.pattern.eq_append_of_first? hf]
  simp [text, EndTag.pattern]

def match? (source : Text) : Option (Block × Text) := do
  let (tag, rest) ← BlockTag.match? source
  ofTag? tag rest

def matchNamed? (name source : Text) : Option (Block × Text) := do
  let (tag, rest) ← BlockTag.matchNamed? name source
  ofTag? tag rest

theorem exact {source rest : Text} {block : Block} (h : match? source = some (block, rest)) :
    source = block.text ++ rest := by
  simp only [match?, Option.bind_eq_bind, Option.bind_eq_some_iff, Prod.exists] at h
  obtain ⟨tag, r, ht, hb⟩ := h
  rw [BlockTag.exact ht, exact_ofTag hb]

theorem exact_named {name source rest : Text} {block : Block}
    (h : matchNamed? name source = some (block, rest)) : source = block.text ++ rest := by
  simp only [matchNamed?, Option.bind_eq_bind, Option.bind_eq_some_iff, Prod.exists] at h
  obtain ⟨tag, r, ht, hb⟩ := h
  rw [BlockTag.exact_named ht, exact_ofTag hb]

def pattern : Pattern Block := ⟨text, match?, exact, fun _ => text_ne_nil _⟩

def named (name : Text) : Pattern Block :=
  ⟨text, matchNamed? name, exact_named, fun _ => text_ne_nil _⟩

def isBlank (block : Block) : Bool := block.body.all Text.isSpace

def blank : Pattern Block := pattern.filter isBlank

end Block
end MailTemplate
