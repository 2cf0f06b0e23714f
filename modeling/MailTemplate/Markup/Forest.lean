import MailTemplate.Markup.Token

/-! Forests: the trees of a document or fragment in order, as first tree and following trees, and how
they are written. -/

namespace MailTemplate

/-- Trees in order: none, a leaf and what follows it, or an element, its content and what follows
it. -/
inductive Forest where
  | nil
  | leaf (leaf : Leaf) (next : Forest)
  | element (element : Element) (children next : Forest)
  deriving Repr, DecidableEq

namespace Forest

def isEmpty : Forest → Bool
  | nil => true
  | _ => false

def size : Forest → Nat
  | nil => 0
  | leaf _ next => 1 + next.size
  | element _ children next => 1 + children.size + next.size

/-- An element as it is written, around its written content. An element without content may close
itself or go without an end tag; an element with content never does. -/
def wrap (element : Element) (isEmpty : Bool) (content : Text) : Text :=
  if element.selfClosing && isEmpty then element.opening ++ " />".toList
  else if element.isVoid && isEmpty then element.opening ++ ['>']
  else element.opening ++ ['>'] ++ content ++ ['<', '/'] ++ element.name ++ ['>']

def render : Forest → Text
  | nil => []
  | leaf l next => l.source ++ next.render
  | element e children next => wrap e children.isEmpty children.render ++ next.render

end Forest
end MailTemplate
