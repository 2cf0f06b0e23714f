import MailTemplate.Compile.Source
import MailTemplate.Template.Layout

/-! Inheritance over files: from a template along the layouts it inherits from, up to the first one
that inherits from none. The template's own blocks come first; each layout on the way adds the
blocks that are still missing, as they are written. -/

namespace MailTemplate
namespace Layout

def supplement (overrides more : List Override) : List Override :=
  more.foldl (fun overrides new =>
    if overrides.any (·.name == new.name) then overrides else overrides ++ [new]) overrides

/-- The text of a template whose parent is still to be loaded, with the overrides collected and the
names of the chain so far. Every step makes the chain longer, and it may not become longer than the
greatest depth. -/
def climb (files : FileSystem) (config : Config) (leaf : Text) (parent : Text)
    (overrides : List Override) (chain : List Text) : Except CompileError Text :=
  if parent ∈ chain then .error (.circular parent)
  else if _ : config.maxDepth < chain.length then .error (.depthExceeded leaf config.maxDepth)
  else match Source.load files config parent with
    | .error e => .error e
    | .ok layout => match parent? layout.text with
      | none => .ok (assemble layout.text overrides)
      | some next =>
        climb files config leaf next (supplement overrides (spans layout.text))
          (chain ++ [layout.name])
termination_by config.maxDepth + 1 - chain.length
decreasing_by
  simp only [List.length_append, List.length_cons, List.length_nil]
  omega

/-- The text of a loaded template, joined with the layouts it inherits from. A template that
inherits from none is left as it is. -/
def resolveTemplate (files : FileSystem) (config : Config) (template : Template) :
    Except CompileError Text :=
  match parent? template.text with
  | none => .ok template.text
  | some parent =>
    climb files config template.name parent (bodies template.text) [template.name]

def resolve (files : FileSystem) (config : Config) (reference : Text) :
    Except CompileError Text := do
  resolveTemplate files config (← Source.load files config reference)

end Layout
end MailTemplate
