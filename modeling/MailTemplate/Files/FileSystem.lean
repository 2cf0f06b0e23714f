import MailTemplate.Files.Path

/-! File systems: directories, regular files and symbolic links, each at one place. A path is
followed part by part; links are followed where they stand, and the part `..` leads to the directory
above the place reached, not to the part before it. -/

namespace MailTemplate

/-- A place: the names on the way from the root, none of them a link. -/
abbrev Location := List Text

/-- What a regular file holds: text, or bytes that are no text. -/
inductive Contents where
  | text (text : Text)
  | binary
  deriving Repr, DecidableEq

inductive Entry where
  | directory
  | file (contents : Contents)
  | link (target : Text)
  deriving Repr, DecidableEq

/-- A name in a directory: text, or bytes that are no text. -/
inductive FileName where
  | text (text : Text)
  | binary
  deriving Repr, DecidableEq

def FileName.texts? : List FileName → Option (List Text)
  | [] => some []
  | .text name :: path => (texts? path).map (name :: ·)
  | .binary :: _ => none

/-- A file system: what there is at which place, and where relative paths begin. The root is always
there, and every other place has an entry of its own. Paths are texts, so no path leads through a name
that is no text; regular files behind such names are `unnamed`, each with the directory that the name is
in and the names behind it. -/
structure FileSystem where
  entries : List (Location × Entry)
  current : Location
  unnamed : List (Location × List FileName) := []
  deriving Repr, DecidableEq

inductive FileError where
  | notFound
  | exists
  | notDirectory
  | isDirectory
  | nameTooLong
  | tooManyLinks
  | nulInPath
  | notText
  | noParent
  deriving Repr, DecidableEq

def FileError.message : FileError → Text
  | notFound => "No such file or directory (os error 2)".toList
  | .exists => "File exists (os error 17)".toList
  | notDirectory => "Not a directory (os error 20)".toList
  | isDirectory => "Is a directory (os error 21)".toList
  | nameTooLong => "File name too long (os error 36)".toList
  | tooManyLinks => "Too many levels of symbolic links (os error 40)".toList
  | nulInPath => "file name contained an unexpected NUL byte".toList
  | notText => "stream did not contain valid UTF-8".toList
  | noParent => "failed to create whole tree".toList

def Location.path (location : Location) : Text := '/' :: Text.joinWith ['/'] location

namespace FileSystem

variable (files : FileSystem)

def entry? (location : Location) : Option Entry :=
  if location = [] then some .directory
  else (files.entries.find? (·.1 == location)).map (·.2)

def isDirectoryAt (location : Location) : Bool := files.entry? location == some .directory

def regularFiles : List Location :=
  files.entries.filterMap fun (location, entry) => match entry with
    | .file _ => some location
    | _ => none

def maxName : Nat := 255

def maxPath : Nat := 4096

def maxLinks : Nat := 40

/-- What a path is followed for: to use what is there, to write a file that may be missing, or to
tell the place by its own path. -/
inductive Purpose where
  | find
  | create
  | name
  deriving Repr, DecidableEq

/-- Whether a name is too long for an entry of the directory at a place. A place that is to be told
has to have a path that is short enough as well. -/
def isTooLong (purpose : Purpose) (place : Location) (name : Text) : Bool :=
  maxName < Text.byteSize name ||
    purpose = .name && maxPath ≤ Text.byteSize (Location.path (place ++ [name]))

/-- The place that is reached from a place by the remaining parts of a path, through at most `links`
links. Only for writing a file may the last name be missing, and then no slash may follow it. -/
def walk (purpose : Purpose) : (links : Nat) → Location → List Text → Except FileError Location
  | _, place, [] => .ok place
  | links, place, part :: rest =>
    if !files.isDirectoryAt place then .error .notDirectory
    else if part = [] ∨ part = ['.'] then walk purpose links place rest
    else if part = ['.', '.'] then walk purpose links place.dropLast rest
    else if purpose = .create ∧ rest ≠ [] ∧ rest.all (· = []) then .error .isDirectory
    else if isTooLong purpose place part then .error .nameTooLong
    else match files.entry? (place ++ [part]) with
      | none =>
        if purpose = .create ∧ rest = [] then .ok (place ++ [part]) else .error .notFound
      | some (.link target) => match links with
        | 0 => .error .tooManyLinks
        | links + 1 =>
          walk purpose links (if Path.isAbsolute target then [] else place)
            (Path.parts target ++ rest)
      | some _ => walk purpose links (place ++ [part]) rest
termination_by links _ parts => (links, parts.length)

def checkText (path : Text) : Except FileError Unit :=
  if '\x00' ∈ path then .error .nulInPath
  else if path = [] then .error .notFound
  else .ok ()

def checkPath (path : Text) : Except FileError Unit := do
  checkText path
  if maxPath ≤ Text.byteSize path then throw .nameTooLong

def start (path : Text) : Location := if Path.isAbsolute path then [] else files.current

def locate (path : Text) : Except FileError Location := do
  checkPath path
  files.walk .find maxLinks (files.start path) (Path.parts path)

/-- The place that a path of any length leads to. No place on the way may have a path that is too
long, for each of them is looked at by its own path. -/
def follow (path : Text) : Except FileError Location := do
  checkText path
  files.walk .name maxLinks (files.start path) (Path.parts path)

def stat? (path : Text) : Option Entry :=
  match files.locate path with
  | .ok location => files.entry? location
  | .error _ => none

def pathExists (path : Text) : Bool := (files.stat? path).isSome

def isDirectory (path : Text) : Bool := files.stat? path == some .directory

def isFileAt (location : Location) : Bool :=
  match files.entry? location with
  | some (.file _) => true
  | _ => false

def readAt (location : Location) : Except FileError Text :=
  match files.entry? location with
  | some (.file (.text text)) => .ok text
  | some (.file .binary) => .error .notText
  | some .directory => .error .isDirectory
  | _ => .error .notFound

def read (path : Text) : Except FileError Text := do files.readAt (← files.locate path)

/-- The file system with an entry at a place, instead of the one that may be there. -/
def put (location : Location) (entry : Entry) : FileSystem :=
  if files.entries.any (·.1 == location) then
    { files with entries := files.entries.map fun old =>
        if old.1 = location then (location, entry) else old }
  else { files with entries := files.entries ++ [(location, entry)] }

/-- Contents written to a file. It is created if it is not there, also where a link leads to it. -/
def write (path : Text) (contents : Contents) : Except FileError FileSystem := do
  checkPath path
  let location ← files.walk .create maxLinks (files.start path) (Path.parts path)
  if files.isDirectoryAt location then throw .isDirectory
  return files.put location (.file contents)

def lastSplit (path : Text) : List Text × Text :=
  let parts := (Path.parts path).reverse.dropWhile (· = [])
  (parts.tail.reverse, parts.headD [])

/-- The place that the last name of a path stands for; a link there is not followed. None, if the
path does not end in a name of its own. -/
def lastPlace (path : Text) : Except FileError (Option Location) := do
  checkPath path
  let (parts, name) := lastSplit path
  let place ← files.walk .find maxLinks (files.start path) parts
  if !files.isDirectoryAt place then throw .notDirectory
  if name = [] ∨ name = ['.'] ∨ name = ['.', '.'] then return none
  if maxName < Text.byteSize name then throw .nameTooLong
  return some (place ++ [name])

def makeDirectory (path : Text) : Except FileError FileSystem := do
  let some place ← files.lastPlace path | throw .exists
  if (files.entry? place).isSome then throw .exists
  return files.put place .directory

/-- A new link. What it leads to need not be there. Its name may have no slash behind it. -/
def makeLink (path target : Text) : Except FileError FileSystem := do
  if '\x00' ∈ path then throw .nulInPath
  checkPath target
  let some place ← files.lastPlace path | throw .exists
  if (files.entry? place).isSome then throw .exists
  if path.getLast? = some '/' then throw .notFound
  return files.put place (.link target)

/-- The file system without a file, or without a link. A name with a slash behind it is neither. -/
def remove (path : Text) : Except FileError FileSystem := do
  let some place ← files.lastPlace path | throw .isDirectory
  match files.entry? place with
  | none => throw .notFound
  | some .directory => throw .isDirectory
  | some _ =>
    if path.getLast? = some '/' then throw .notDirectory
    return { files with entries := files.entries.filter (·.1 != place) }

/-- A directory with all directories that are missing on the way to it; nothing, if it is there.
What has been made when a step fails stays; `fuel` bounds the number of parts. -/
def makeDirectories : (fuel : Nat) → FileSystem → Text → FileSystem × Except FileError Unit
  | 0, files, _ => (files, .error .noParent)
  | fuel + 1, files, path =>
    if path = [] then (files, .ok ())
    else match files.makeDirectory path with
      | .ok files => (files, .ok ())
      | .error .notFound => match Path.parent? path with
        | none => (files, .error .noParent)
        | some parent => match makeDirectories fuel files parent with
          | (files, .error e) => (files, .error e)
          | (files, .ok ()) => match files.makeDirectory path with
            | .ok files => (files, .ok ())
            | .error e => (files, if files.isDirectory path then .ok () else .error e)
      | .error e => (files, if files.isDirectory path then .ok () else .error e)

/-- The directories on the way to the last part of a path, made where they are missing. -/
def makeParents (path : Text) : FileSystem × Except FileError Unit :=
  match Path.parent? path with
  | some parent => makeDirectories (parent.length + 1) files parent
  | none => (files, .ok ())

/-- Contents written to a file, after the directories on the way to it have been made. -/
def writeDeep (path : Text) (contents : Contents) : FileSystem × Except FileError Unit :=
  match files.makeParents path with
  | (files, .error e) => (files, .error e)
  | (files, .ok ()) => match files.write path contents with
    | .ok files => (files, .ok ())
    | .error e => (files, .error e)

/-- The order of names by their characters. -/
def nameLe (first second : Text) : Bool := !decide (second < first)

/-- The names in a directory with what they are, in the order of the names. -/
def list (location : Location) : List (Text × Entry) :=
  let inside := files.entries.filterMap fun (place, entry) =>
    match place.getLast? with
    | some name => if place.dropLast = location then some (name, entry) else none
    | none => none
  inside.mergeSort fun a b => nameLe a.1 b.1

end FileSystem
end MailTemplate
