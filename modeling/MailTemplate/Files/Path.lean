import MailTemplate.Text.Basic

/-! Paths as texts: slash-separated names, from the root where they begin with a slash. The name of a
template is the path of its file below the source root, without the extension. These functions look at
the text alone and at no file. -/

namespace MailTemplate
namespace Path

def parts (path : Text) : List Text := path.splitOnP (· == '/')

def isAbsolute : Text → Bool
  | '/' :: _ => true
  | _ => false

/-- A path continued by another. One that begins at the root stands for itself. -/
def join (path next : Text) : Text :=
  if isAbsolute next then next
  else if path = [] ∨ path.getLast? = some '/' then path ++ next
  else path ++ ['/'] ++ next

/-- The names of a path: no empty part, and no part that stands for the same directory. -/
def names (path : Text) : List Text := (parts path).filter fun part => part != [] && part != ['.']

/-- A leading slash, or a leading part for the same directory, and the rest of the path. -/
def front : Text → Text × Text
  | '/' :: rest => (['/'], rest)
  | ['.'] => (['.'], [])
  | '.' :: '/' :: rest => (['.'], '/' :: rest)
  | path => ([], path)

/-- A path, last character first, without final slashes and parts for the same directory. -/
def trimBack : Text → Text
  | '/' :: path => trimBack path
  | '.' :: '/' :: path => trimBack path
  | ['.'] => []
  | path => path

/-- The path without its last part; none for the empty path and for the root. -/
def parent? (path : Text) : Option Text :=
  let (front, rest) := front path
  match trimBack rest.reverse with
  | [] => if front = ['.'] then some [] else none
  | back => some (front ++ (trimBack (back.dropWhile (· != '/'))).reverse)

end Path

def extension : Text := ".njk".toList

/-- A reference as the name of a template: no white space around it, slashes only, no leading
slash, and at most one extension less. -/
def templateName (reference : Text) : Text :=
  let slashed := (Text.trim reference).map fun c => if c = '\\' then '/' else c
  let name := slashed.dropWhile (· = '/')
  (Text.beforeEnd? extension name).getD name

end MailTemplate
