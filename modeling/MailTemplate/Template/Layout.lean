import MailTemplate.Template.Block
import MailTemplate.Files.Path

/-! Layout inheritance on texts: the parent a template names, the blocks it supplies, and the
layout with the supplied blocks in it. -/

namespace MailTemplate

structure Override where
  name : Text
  content : Text
  deriving Repr, DecidableEq

namespace Override

/-- An override added to a list: the last content for a name wins and keeps the first place. -/
def put (new : Override) : List Override → List Override
  | [] => [new]
  | old :: rest => if old.name = new.name then new :: rest else old :: put new rest

def ofBlocks (content : Block → Text) (blocks : List Block) : List Override :=
  blocks.foldl (fun overrides block => put ⟨block.name, content block⟩ overrides) []

end Override

namespace Layout

/-- The tag that names a parent layout. -/
def extendsTag : Pattern (ReferenceTag "extends".toList) := ReferenceTag.pattern _

def includeTag : Pattern (ReferenceTag "include".toList) := ReferenceTag.pattern _

/-- The name of the layout that a template inherits from: the first one it names. -/
def parent? (source : Text) : Option Text :=
  (extendsTag.first? source).map fun (_, tag, _) => templateName tag.reference

def hasParent (source : Text) : Bool := (extendsTag.first? source).isSome

def hasIncludes (source : Text) : Bool := (includeTag.first? source).isSome

def bodies (source : Text) : List Override :=
  Override.ofBlocks (Text.trim ·.body) (Block.pattern.items source)

def spans (source : Text) : List Override :=
  Override.ofBlocks Block.text (Block.pattern.items source)

/-- A layout with every block of the given name replaced by the content, taken literally. -/
def fill (layout : Text) (block : Override) : Text :=
  (Block.named block.name).replace (fun _ => block.content) layout

/-- A layout with the overrides filled in one after the other; then the first parent directive and
all blocks without content go. Blocks that are not overridden keep their text and their tags. -/
def assemble (layout : Text) (overrides : List Override) : Text :=
  Block.blank.replace (fun _ => []) (extendsTag.removeFirst (overrides.foldl fill layout))

end Layout
end MailTemplate
