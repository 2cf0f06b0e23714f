import MailTemplate.Text.Basic

/-! Elements of markup: a name and attributes. Values are kept raw; they are written in double
quotes, with the double quotes inside as `&quot;`. -/

namespace MailTemplate

structure Attribute where
  name : Text
  value : Option Text
  deriving Repr, DecidableEq

/-- An element without its content. The name is in lower case, attributes are in source order. -/
structure Element where
  name : Text
  attributes : List Attribute
  selfClosing : Bool
  deriving Repr, DecidableEq

namespace Attribute

def isNamed (name : Text) (attr : Attribute) : Bool :=
  Text.equalIgnoringCase attr.name name

def escape (value : Text) : Text :=
  value.flatMap fun c => if c = '"' then "&quot;".toList else [c]

def text (attr : Attribute) : Text :=
  match attr.value with
  | none => attr.name
  | some value => attr.name ++ ['=', '"'] ++ escape value ++ ['"']

end Attribute

namespace Element

def named (name : Text) : Element := ⟨Text.lower name, [], false⟩

/-- The value of the first attribute of this name; one without a value counts as empty. -/
def attr? (element : Element) (name : Text) : Option Text :=
  (element.attributes.find? (Attribute.isNamed name)).map (·.value.getD [])

/-- The attributes with a new value for the first one of this name, or with one more at the end. -/
def putAttr (name value : Text) : List Attribute → List Attribute
  | [] => [⟨name, some value⟩]
  | attr :: rest =>
    if attr.isNamed name then { attr with value := some value } :: rest
    else attr :: putAttr name value rest

def setAttr (element : Element) (name value : Text) : Element :=
  { element with attributes := putAttr name value element.attributes }

def classes (element : Element) : List Text :=
  (element.attr? "class".toList).elim [] Text.words

def id? (element : Element) : Option Text := element.attr? "id".toList

def voidNames : List Text :=
  ["area", "base", "br", "col", "embed", "hr", "img", "input", "link", "meta", "param", "source",
    "track", "wbr"].map String.toList

/-- Names of the elements whose content is text up to the end tag, whatever it looks like. -/
def rawNames : List Text := ["style", "script"].map String.toList

def isVoid (element : Element) : Bool := voidNames.contains element.name

def isRaw (element : Element) : Bool := rawNames.contains element.name

def opening (element : Element) : Text :=
  '<' :: element.name ++ element.attributes.flatMap fun attr => ' ' :: attr.text

end Element
end MailTemplate
