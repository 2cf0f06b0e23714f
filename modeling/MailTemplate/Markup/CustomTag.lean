import MailTemplate.Markup.Edit

/-! The elements that authors lay a message out with, and the tables that mail clients render.
Each kind of element gives way in its own pass, in the order of the constructors; what an
element contains moves with it. -/

namespace MailTemplate

inductive CustomTag where
  | container
  | row
  | columns
  | button
  deriving Repr, DecidableEq

namespace CustomTag

def all : List CustomTag := [container, row, columns, button]

def name : CustomTag → Text
  | container => "container".toList
  | row => "row".toList
  | columns => "columns".toList
  | button => "button".toList

def target : CustomTag → Text
  | container => "table".toList
  | row => "tr".toList
  | columns => "td".toList
  | button => "a".toList

def buttonStyle : Text :=
  ("display: inline-block; padding: 12px 24px; background-color: #2563eb; color: #ffffff; " ++
    "text-decoration: none; border-radius: 4px; font-weight: bold;").toList

def carried (read : Text → Option Text) (name : Text) : List (Text × Text) :=
  (read name).elim [] fun value => [(name, value)]

def attributes (read : Text → Option Text) : CustomTag → List (Text × Text)
  | container =>
    [("align".toList, "center".toList), ("width".toList, "100%".toList),
      ("cellpadding".toList, ['0']), ("cellspacing".toList, ['0']), ("border".toList, ['0'])] ++
      carried read "class".toList
  | row =>
    carried read "class".toList ++
      (read "background".toList).elim [] fun background =>
        [("style".toList, "background:".toList ++ background)]
  | columns =>
    carried read "class".toList ++
      [("style".toList,
        "padding: ".toList ++ (read "padding".toList).getD ['0'] ++ [';'])]
  | button =>
    [("href".toList, (read "href".toList).getD ['#'])] ++ carried read "class".toList ++
      [("style".toList, (read "style".toList).getD buttonStyle)]

/-- The element that takes the place of one with the attributes that `read` gives. -/
def replacement (tag : CustomTag) (read : Text → Option Text) : Element :=
  (tag.attributes read).foldl (fun e (name, value) => e.setAttr name value) (.named tag.target)

/-- Puts the new element in the place of the old one. A container puts its content into a table
body. -/
def convertNode (tag : CustomTag) (node : NodeId) : Edit Unit := do
  let doc ← get
  let new ← Edit.create (tag.replacement fun name => (doc.element? node).bind (·.attr? name))
  let content ← match tag with
    | container => do
      let body ← Edit.create (.named "tbody".toList)
      Edit.append new body
      pure body
    | _ => pure new
  let children ← Edit.take node
  children.forM (Edit.append content)
  Edit.replace node new

/-- One pass: all attached elements of the kind, as they stand when the pass begins. -/
def pass (tag : CustomTag) : Edit Unit := do
  ((← get).elementsNamed tag.name).forM tag.convertNode

def convert : Edit Unit := all.forM pass

end CustomTag

namespace Document

/-- A text of markup with tables in place of its custom elements, or the first thing that went
wrong. -/
def withTables (source : Text) : Except MarkupError Text := do
  let (result, doc) := CustomTag.convert.run (← parse source)
  result
  return doc.serialize

end Document
end MailTemplate
