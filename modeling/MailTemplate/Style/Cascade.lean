import MailTemplate.Markup.Edit
import MailTemplate.Style.Sheet
import MailTemplate.Template.Guard

/-! The cascade: which declarations apply to an element, which of them win, and the style attribute
that says so. -/

namespace MailTemplate
namespace Cascade

def metadataNames : List Text :=
  ["html", "head", "style", "script", "meta", "link", "title"].map String.toList

/-- How specifically a rule matches: as its most specific selector that matches; none, if no
selector matches. -/
def match? (doc : Document) (node : NodeId) (rule : Rule) : Option Specificity :=
  (rule.selectors.filter (doc.isMatch · node)).foldl
    (fun best s => some (best.elim s.specificity (·.max s.specificity))) none

/-- The declarations of the rules that match: the less specific rules first, and rules of the same
specificity in their order. -/
def matching (doc : Document) (node : NodeId) (rules : List Rule) : List Declaration :=
  let matched := rules.filterMap fun rule => (match? doc node rule).map (·, rule.declarations)
  (matched.mergeSort fun a b => a.1.le b.1).flatMap (·.2)

abbrev Merged := List (Text × Text)

/-- A declaration added: a later value takes the place of an earlier one. -/
def put (merged : Merged) (declaration : Declaration) : Merged :=
  match merged with
  | [] => [(declaration.property, declaration.value)]
  | (property, value) :: rest =>
    if property = declaration.property then (property, declaration.value) :: rest
    else (property, value) :: put rest declaration

/-- The order of the cascade: rules before the element's own declarations, and all important ones
after that, in the same order. -/
def order (fromRules own : List Declaration) : List Declaration :=
  fromRules.filter (!·.important) ++ own.filter (!·.important) ++
    fromRules.filter (·.important) ++ own.filter (·.important)

def write (merged : Merged) : Text :=
  Text.joinWith [' '] (merged.map fun (property, value) =>
    property ++ [':', ' '] ++ value ++ [';'])

def insideHead (doc : Document) (node : NodeId) : Bool :=
  (doc.ancestors doc.size node).any fun a =>
    (doc.element? a).any (·.name == "head".toList)

/-- The style of an element whose rules declare something. A style attribute with hidden template
syntax is not read; its text follows the declarations of the rules as it stands. -/
def style (fromRules : List Declaration) (attr : Option Text) : Text :=
  match attr with
  | none => write ((order fromRules []).foldl put [])
  | some text =>
    if Guard.holdsPlaceholder text then
      write ((order fromRules []).foldl put []) ++ [' '] ++ text
    else write ((order fromRules (Declaration.block text)).foldl put [])

/-- The style attribute that a node should have; none, if it should be left alone. -/
def computed (doc : Document) (rules : List Rule) (node : NodeId) : Option Text := do
  let element ← doc.element? node
  if metadataNames.contains element.name || insideHead doc node then none
  else match matching doc node rules with
    | [] => none
    | fromRules => some (style fromRules (element.attr? "style".toList))

def apply (rules : List Rule) (doc : Document) (node : NodeId) : Document :=
  match computed doc rules node, doc.element? node with
  | some value, some element => doc.setElement node (element.setAttr "style".toList value)
  | _, _ => doc

/-- The document with all styles written, one element after the other in document order. -/
def applyAll (rules : List Rule) (doc : Document) : Document :=
  doc.elements.foldl (apply rules) doc

/-- The rules of an extra stylesheet, then those of the style elements in document order. -/
def rulesOf (doc : Document) (extra : Option Text) : Except StyleError (List Rule) := do
  let first ← match extra with
    | some css => Sheet.parse css
    | none => pure []
  let own ← (doc.elementsNamed "style".toList).mapM fun node => Sheet.parse (doc.text node)
  return first ++ own.flatten

/-- A text of markup with all styles written into its elements. Without any rule the text is left
as it is. -/
def styled (source : Text) (extra : Option Text) : Except StyleError Text := do
  let doc ← (Document.parse source).mapError .markup
  match ← rulesOf doc extra with
  | [] => return source
  | rules => return (applyAll rules doc).serialize

end Cascade
end MailTemplate
