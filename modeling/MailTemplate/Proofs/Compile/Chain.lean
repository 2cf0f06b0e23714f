import MailTemplate.Proofs.Compile.Loading
import MailTemplate.Proofs.Template.Supplies
import Mathlib

/-! Inheritance over a whole chain of templates. What the last layout of a chain becomes is told part
by part: the content of the template itself comes first, then the nearest layout that has the block,
then the layout itself. Names are compared on the way up, where a reference is read once and the name
that it is loaded under has been read twice, so a chain of distinct templates may be held for a circle. -/

namespace MailTemplate
open Text

namespace Text

theorem infix_of_holdsWord {word text : Text} (h : HoldsWord word text) : word <:+: text := by
  obtain ⟨before, after, rfl, -⟩ := h
  exact ⟨before, after, rfl⟩

end Text

namespace Part

section
variable {parts : List Part} {part : Part} {given : Text} {b : Block}

theorem mem_blocks : b ∈ blocks parts ↔ .block b ∈ parts := by
  rw [blocks, List.mem_filterMap]
  constructor
  · rintro ⟨part, hpart, hb⟩
    cases part with
    | outer text => cases hb
    | block c =>
      cases hb
      exact hpart
  · intro h
    exact ⟨_, h, rfl⟩

end
end Part

namespace Layout

/-- A template that is put together from well formed parts, with no mention of a layout in its
blocks. -/
structure Draft where
  template : Template
  parts : List Part
  text_eq : template.text = Part.textAll parts
  wellFormed : ∀ part ∈ parts, part.WellFormed
  silent : ∀ b ∈ Part.blocks parts, ¬ HoldsWord "extends".toList b.body

def Inherits (files : FileSystem) (config : Config) (draft layout : Draft) : Prop :=
  ∃ parent, parent? draft.template.text = some parent ∧
    Source.load files config parent = .ok layout.template

/-- A template and layouts on the way up from it, no two of which are the same template. -/
structure IsChain (files : FileSystem) (config : Config) (drafts : List Draft) : Prop where
  inherits : drafts.IsChain (Inherits files config)
  distinct : (drafts.map Draft.template).Nodup

section
variable {files : FileSystem} {config : Config} {leaf top draft layout : Draft}
  {middle drafts front back : List Draft} {reference parent next : Text} {overrides : List Override}

theorem Draft.misses_block (draft : Draft) {b : Block} (h : .block b ∈ draft.parts) :
    extendsTag.Misses b.text :=
  Block.misses_extends (draft.wellFormed _ h) (draft.silent b (Part.mem_blocks.2 h))

theorem exists_load (hleaf : Source.load files config reference = .ok leaf.template)
    (hchain : (leaf :: drafts).IsChain (Inherits files config)) :
    ∀ draft ∈ leaf :: drafts, ∃ named, Source.load files config named = .ok draft.template := by
  induction drafts generalizing leaf reference with
  | nil =>
    intro draft hm
    rw [List.mem_singleton.1 hm]
    exact ⟨reference, hleaf⟩
  | cons layout drafts ih =>
    obtain ⟨⟨parent, -, hload⟩, hrest⟩ := List.isChain_cons_cons.1 hchain
    intro draft hm
    rcases List.mem_cons.1 hm with rfl | hm
    · exact ⟨reference, hleaf⟩
    · exact ih hload hrest draft hm

theorem exists_parent (h : drafts.IsChain (Inherits files config)) (hd : drafts = front ++ draft :: back)
    (hne : back ≠ []) : ∃ parent, parent? draft.template.text = some parent := by
  obtain ⟨layout, above, rfl⟩ := List.exists_cons_of_ne_nil hne
  obtain ⟨parent, hparent, -⟩ := List.isChain_iff_forall_rel_of_append_cons_cons.1 h hd
  exact ⟨parent, hparent⟩

/-- A draft of the given parts, at the place of its name below the source root. -/
def Draft.ofParts (name : Text) (parts : List Part) (h : ∀ part ∈ parts, part.WellFormed)
    (hs : ∀ b ∈ Part.blocks parts, ¬ "extends".toList <:+: b.body) : Draft where
  template := ⟨name, [['s'], name ++ extension], Part.textAll parts⟩
  parts := parts
  text_eq := rfl
  wellFormed := h
  silent b hb hw := hs b hb (infix_of_holdsWord hw)

end
end Layout

/-- A block with its tags as they are usually written. -/
def Block.plain (name body : Text) : Block where
  tag := ⟨⟨false, [' ']⟩, [' '], name, ⟨[' '], false⟩⟩
  body := body
  close := ⟨⟨false, [' ']⟩, none, ⟨[' '], false⟩⟩

namespace Layout

def base : Draft :=
  .ofParts ['c'] [.outer ['<'], .block (.plain ['x'] []), .block (.plain ['y'] []),
    .block (.plain ['z'] [' ']), .block (.plain ['v'] ['3']), .block (.plain ['x'] ['4']),
    .outer ['>']] (by decide +kernel) (by decide +kernel)

end Layout
end MailTemplate
