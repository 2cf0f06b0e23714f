import MailTemplate.Markup.Document

/-! Edits of a document. An edit gives a result or fails; what it has changed by then stays. -/

namespace MailTemplate

abbrev Edit (α : Type) := ExceptT MarkupError (StateM Document) α

namespace Document

def update (doc : Document) (node : NodeId) (f : Node → Node) : Document :=
  ⟨doc.nodes.modify node f⟩

def setElement (doc : Document) (node : NodeId) (element : Element) : Document :=
  doc.update node ({ · with data := .element element })

/-- The document with a node taken out of its parent, if it has one. -/
def detach (doc : Document) (node : NodeId) : Document :=
  match doc.parent? node with
  | none => doc
  | some parent =>
    (doc.update node ({ · with parent := none })).update parent fun n =>
      { n with children := n.children.filter (· != node) }

end Document

namespace Edit

def check (node : NodeId) : Edit Unit := do
  unless node < (← get).size do throw (.noSuchNode node)

def setAttr (node : NodeId) (name value : Text) : Edit Unit := do
  match (← get).element? node with
  | some element => modify (·.setElement node (element.setAttr name value))
  | none => throw (.notAnElement node)

def create (element : Element) : Edit NodeId := do
  let doc ← get
  set (⟨doc.nodes.push ⟨none, [], .element element⟩⟩ : Document)
  return doc.size

def append (parent child : NodeId) : Edit Unit := do
  check parent
  check child
  modify fun doc =>
    ((doc.detach child).update child ({ · with parent := some parent })).update parent
      fun n => { n with children := n.children ++ [child] }

def take (node : NodeId) : Edit (List NodeId) := do
  check node
  let children := (← get).children node
  modify fun doc => children.foldl (fun doc child => doc.update child ({ · with parent := none }))
    (doc.update node ({ · with children := [] }))
  return children

/-- Puts a node in the place of another, which becomes detached. The new node leaves its own place
before the place of the old one is looked up. -/
def replace (old new : NodeId) : Edit Unit := do
  check old
  check new
  let some parent := (← get).parent? old | throw (.detached old)
  modify (·.detach new)
  unless old ∈ (← get).children parent do throw (.detached old)
  modify fun doc =>
    ((doc.update parent fun n =>
        { n with children := n.children.replace old new }).update new
      ({ · with parent := some parent })).update old ({ · with parent := none })

end Edit
end MailTemplate
