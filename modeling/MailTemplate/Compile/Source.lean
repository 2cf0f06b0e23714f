import MailTemplate.Compile.Config
import MailTemplate.Compile.Error

/-! Source files of templates. Whatever path leads to a file, it has to be a regular file at or
below the source root, once all links are followed. -/

namespace MailTemplate

/-- A template that has been loaded: its name, the place of its file, and its text. -/
structure Template where
  name : Text
  location : Location
  text : Text
  deriving Repr, DecidableEq

def Template.directory (template : Template) : Location := template.location.dropLast

namespace Source

variable (files : FileSystem)

/-- The place of a path; one that leads nowhere is reported by the path. -/
def place (path : Text) : Except CompileError Location :=
  match files.follow path with
  | .ok location => .ok location
  | .error .notFound => .error (.notFound path)
  | .error e => .error (.io e)

/-- The place of a path, if it is a regular file at or below `root`. -/
def within (root : Location) (path : Text) : Except CompileError Location := do
  let location ← place files path
  if !root.isPrefixOf location then throw (.pathEscape location root)
  if !files.isFileAt location then throw (.notAFile location)
  return location

def read (location : Location) : Except CompileError Text :=
  (files.readAt location).mapError .io

def load (config : Config) (reference : Text) : Except CompileError Template := do
  let name := templateName reference
  let root ← place files config.sourceRoot
  let path := Path.join root.path (name ++ extension)
  if !files.pathExists path then throw (.notFound name)
  let location ← within files root path
  return ⟨name, location, ← read files location⟩

end Source
end MailTemplate
