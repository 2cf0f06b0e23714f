import MailTemplate.Compile.Source
import MailTemplate.Render
import MailTemplate.Template.Layout

/-! Discovery: the templates below the source root that are compiled on their own. Directories are
visited depth first, their entries in the order of their names, links included. -/

namespace MailTemplate
namespace Discover

variable (files : FileSystem)

/-- The regular files below a directory, by the names on the way from `root`. A link to a directory
that is being visited is passed over, and so is what its path does not lead to. `visiting` holds the
directories on the way, `here` is the last of them, and `names` are the names that led to it. -/
def filesBelow (root : Location) : (fuel : Nat) → (visiting : List Location) → (here : Location) →
    (names : List Text) → List (List FileName)
  | 0, _, _, _ => []
  | fuel + 1, visiting, here, names =>
    let unnamed := (files.unnamed.filter (·.1 = here)).map fun file =>
      names.map .text ++ .binary :: file.2
    unnamed ++ (files.list here).flatMap fun (name, entry) =>
      let path := names ++ [name]
      match entry with
      | .directory =>
        if files.isDirectory (Location.path (root ++ path)) then
          filesBelow root fuel ((here ++ [name]) :: visiting) (here ++ [name]) path
        else []
      | .file _ => [path.map .text]
      | .link _ => match files.locate (Location.path (root ++ path)) with
        | .error _ => []
        | .ok location =>
          if files.isDirectoryAt location then
            if location ∈ visiting then []
            else filesBelow root fuel (location :: visiting) location path
          else [path.map .text]

/-- The part of a file name from its last dot on; none, if only the first character is a dot. -/
def extension? (name : Text) : Option Text :=
  match name.reverse.takeWhile (· != '.'), name.reverse.dropWhile (· != '.') with
  | back, '.' :: _ :: _ => some ('.' :: back.reverse)
  | _, _ => none

/-- Whether a name marks a file or directory as a layout or a part of other templates. -/
def isShared (name : Text) : Bool :=
  Text.contains "layout".toList name || Text.contains "part".toList name

/-- The template name of a file, if its names make it a template to compile. -/
def candidate? (names : List Text) : Option Text := do
  let name ← names.getLast?
  if extension? name ≠ some extension then none
  else if name.head? = some '_' then none
  else if names.any isShared then none
  else Text.beforeEnd? extension (Text.joinWith ['/'] names)

/-- One file: the name of the template that it is, if it inherits from a layout, and a line in the
log if it cannot be read. -/
def examine (root : Location) (names : List Text) : List Text × List LogLine :=
  match candidate? names with
  | none => ([], [])
  | some name =>
    let path := Location.path (root ++ names)
    match files.read path with
    | .ok text => (if Layout.hasParent text then [name] else [], [])
    | .error e => ([], [⟨.warning, "skipping ".toList ++ path ++ ": ".toList ++ e.message⟩])

/-- The names of all templates to compile, in the order of the visit. A path with a name that is no text
names no template. -/
def all (config : Config) : Except CompileError (List Text × List LogLine) := do
  let root ← Source.place files config.sourceRoot
  let fuel := (files.entries.length + 1) * (files.entries.length + 1)
  let named := (filesBelow files root fuel [root] root []).filterMap FileName.texts?
  let examined := named.map (examine files root)
  return (examined.flatMap (·.1), examined.flatMap (·.2))

end Discover
end MailTemplate
