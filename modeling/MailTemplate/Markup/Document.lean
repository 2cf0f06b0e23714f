import MailTemplate.Markup.Error
import MailTemplate.Markup.Forest

/-! Documents: nodes in the order of their creation, linked to their parents and children. Node 0
is the root. A text is read token by token: nodes are added to the innermost element that is open,
and an end tag closes the nearest open element of its name with all elements inside it. An end tag
that closes nothing is dropped, and the end of the text closes whatever is open. -/

namespace MailTemplate

inductive NodeData where
  | document
  | element (element : Element)
  | leaf (leaf : Leaf)
  deriving Repr, DecidableEq

structure Node where
  parent : Option NodeId
  children : List NodeId
  data : NodeData
  deriving Repr, DecidableEq

/-- A document: its nodes, by number. -/
structure Document where
  nodes : Array Node
  deriving Repr, DecidableEq

namespace Document

def root : NodeId := 0

def empty : Document := ⟨#[⟨none, [], .document⟩]⟩

variable (doc : Document)

def size : Nat := doc.nodes.size

def data? (node : NodeId) : Option NodeData := doc.nodes[node]?.map (·.data)

def element? (node : NodeId) : Option Element :=
  match doc.data? node with
  | some (.element e) => some e
  | _ => none

/-- The document with a new node at the end of the children of another. -/
def attach (parent : NodeId) (data : NodeData) : Document :=
  let child := doc.size
  ⟨(doc.nodes.push ⟨some parent, [], data⟩).modify parent fun node =>
    { node with children := node.children ++ [child] }⟩

def parent? (node : NodeId) : Option NodeId := doc.nodes[node]?.bind (·.parent)

/-- The children of a node in order; none, if there is no such node. -/
def children (node : NodeId) : List NodeId := (doc.nodes[node]?.map (·.children)).getD []

def below : Nat → NodeId → List NodeId
  | 0, _ => []
  | depth + 1, node => node :: (doc.children node).flatMap (below depth)

/-- The attached elements in document order. No path from the root is longer than the document has
nodes. -/
def elements : List NodeId :=
  (doc.below doc.size root).filter fun node => (doc.element? node).isSome

def elementsNamed (name : Text) : List NodeId :=
  doc.elements.filter fun node =>
    (doc.element? node).any fun e => Text.equalIgnoringCase e.name name

def text (node : NodeId) : Text :=
  (doc.children node).flatMap fun child =>
    match doc.data? child with
    | some (.leaf (.text content)) => content
    | _ => []

/-- The nodes around a node, from its parent outwards; a chain is cut at `bound` nodes. -/
def ancestors : Nat → NodeId → List NodeId
  | 0, _ => []
  | bound + 1, node => match doc.parent? node with
    | some parent => parent :: ancestors bound parent
    | none => []

/-- The trees of the given nodes to a depth. Leaves are written without what is below them. -/
def forest : Nat → List NodeId → Forest
  | 0, _ => .nil
  | depth + 1, nodes => nodes.foldr (fun node next => match doc.data? node with
    | some (.element e) => .element e (forest depth (doc.children node)) next
    | some (.leaf l) => .leaf l next
    | _ => next) .nil

def toForest : Forest := doc.forest doc.size (doc.children root)

def serialize : Text := doc.toForest.render

end Document

structure Reader where
  doc : Document
  opened : List NodeId

namespace Reader

def start : Reader := ⟨.empty, []⟩

def parent (reader : Reader) : NodeId := reader.opened.headD Document.root

def attach (reader : Reader) (data : NodeData) : Reader :=
  { reader with doc := reader.doc.attach reader.parent data }

/-- The reader behind one more token. The text of a complete element goes into that element, which
is never open. -/
def step (reader : Reader) : Token → Reader
  | .leaf l => reader.attach (.leaf l)
  | .complete e content =>
    let element := reader.doc.size
    let reader := reader.attach (.element e)
    if content = [] then reader
    else { reader with doc := reader.doc.attach element (.leaf (.text content)) }
  | .start e =>
    let element := reader.doc.size
    { reader.attach (.element e) with opened := element :: reader.opened }
  | .stop name =>
    match reader.opened.findIdx? fun node => (reader.doc.element? node).any (·.name == name) with
    | some i => { reader with opened := reader.opened.drop (i + 1) }
    | none => reader

end Reader

def Document.parse (source : Text) : Except MarkupError Document :=
  match Token.all source with
  | .ok tokens => .ok (tokens.foldl Reader.step .start).doc
  | .error (.tag, rest) => .error (.unterminatedTag (Text.offset source rest))
  | .error (.comment, rest) => .error (.unterminatedComment (Text.offset source rest))

end MailTemplate
