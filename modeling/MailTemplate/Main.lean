import MailTemplate.CommandLine
import Std.Data.HashMap

/-! The program. It takes in the files that a run can come upon, lets the command line work on them,
then stores what has changed and prints what there is to say. -/

namespace MailTemplate
namespace Main

abbrev Snapshot := Std.HashMap String Entry

def place (path : String) : Location := Path.names path.toList

def realPath? (path : String) : IO (Option String) := do
  try return some (← IO.FS.realPath path).toString
  catch _ => return none

def contents (bytes : ByteArray) : Contents :=
  match String.fromUTF8? bytes with
  | some text => .text text.toList
  | none => .binary

/-- A target that no link can have: it leads nowhere. -/
def nowhere : Text := ['/', '\x00']

/-- Takes in what is at a path without links, all that is below it, and all that links below it lead
to. -/
partial def takeIn (snapshot : Snapshot) (path : String) : IO Snapshot := do
  if snapshot.contains path then return snapshot
  let real ← IO.FS.realPath path
  match (← real.metadata).type with
  | .dir =>
    let mut snapshot := snapshot.insert path .directory
    for child in ← real.readDir do
      let childPath := child.path.toString
      if (← child.path.symlinkMetadata).type == .symlink then
        match ← realPath? childPath with
        | some target =>
          snapshot := snapshot.insert childPath (.link target.toList)
          snapshot ← takeIn snapshot target
        | none => snapshot := snapshot.insert childPath (.link nowhere)
      else snapshot ← takeIn snapshot childPath
    return snapshot
  | .file => return snapshot.insert path (.file (contents (← IO.FS.readBinFile path)))
  | _ => return snapshot

/-- Takes in what a path leads to. Where it leads nowhere, the closest directory on the way is taken
in, without what is below it. -/
partial def takeInPath (snapshot : Snapshot) (path : Text) : IO Snapshot := do
  match ← realPath? (String.ofList path) with
  | some real => takeIn snapshot real
  | none => match Path.parent? path with
    | none => return snapshot
    | some parent => match ← realPath? (String.ofList parent) with
      | some real => return snapshot.insertIfNew real .directory
      | none => takeInPath snapshot parent

def pathOf (location : Location) : String := String.ofList location.path

/-- A snapshot as a file system, in which the directories on the way to every place are there. -/
def fileSystem (snapshot : Snapshot) (current : Location) : FileSystem :=
  let above (location : Location) : List Location :=
    (List.range location.length).map (location.take ·)
  let places := current :: snapshot.keys.flatMap fun path => above (place path)
  let whole : Snapshot := places.foldl (fun s l => s.insertIfNew (pathOf l) .directory) snapshot
  { entries := (whole.toList.map fun (path, entry) => (place path, entry)).filter (·.1 != [])
    current }

/-- The paths that arguments name for a run, as far as they can be told from the files. -/
def namedPaths (arguments : List Text) (files : FileSystem) : List Text :=
  match CommandLine.Request.empty.read arguments with
  | .error _ => []
  | .ok request => match request.baseConfig files with
    | .error _ => []
    | .ok config =>
      let config := request.override config
      config.sourceRoot :: config.distRoot :: config.stylesheetPath.toList

def configPaths (arguments : List Text) : List Text :=
  match CommandLine.Request.empty.read arguments with
  | .error _ => []
  | .ok request => request.config.toList

def store (before after : FileSystem) : IO Unit := do
  let known : Snapshot :=
    Std.HashMap.ofList (before.entries.map fun (location, entry) => (pathOf location, entry))
  for (location, entry) in after.entries do
    let path := pathOf location
    if known.get? path != some entry then
      match entry with
      | .directory => IO.FS.createDirAll path
      | .file (.text text) => IO.FS.writeFile path (String.ofList text)
      | _ => pure ()

def alphabet : Text :=
  "ABCDEFGHIJKLMNOPQRSTUVWXYZabcdefghijklmnopqrstuvwxyz0123456789-_".toList

/-- The nonce of a number: fifteen characters drawn at random, a capital letter, and six that
count. -/
def nonce (drawn : ByteArray) (n : Nat) : Text :=
  let letter (k : Nat) : Char := alphabet.getD (k % 64) 'A'
  drawn.toList.map (fun byte => letter byte.toNat) ++
    'N' :: (List.range 6).map fun i => letter (n / Nat.pow 64 i)

def run (arguments : List Text) : IO UInt32 := do
  let here := (← IO.FS.realPath ".").toString
  let first ← (configPaths arguments).foldlM takeInPath (← takeIn {} here)
  let paths := namedPaths arguments (fileSystem first (place here))
  let files := fileSystem (← paths.foldlM takeInPath first) (place here)
  let drawn ← IO.getRandomBytes 15
  let finish := CommandLine.run "forge".toList arguments files (nonce drawn)
  store files finish.files
  IO.print (String.ofList finish.out)
  IO.eprint (String.ofList finish.err)
  return finish.exit.toUInt32

end Main
end MailTemplate

def main (arguments : List String) : IO UInt32 :=
  MailTemplate.Main.run (arguments.map String.toList)
