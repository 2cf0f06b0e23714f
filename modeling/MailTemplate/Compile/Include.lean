import MailTemplate.Compile.Source
import MailTemplate.Template.Layout

/-! Splicing: every include tag gives way to the file it names, in which include tags are replaced
in turn. A file is looked for in the directory of the file that names it, then in the source root.
-/

namespace MailTemplate
namespace Include

variable (files : FileSystem) (root : Location) (maxDepth : Nat)

def locate (directory reference : Text) : Except CompileError Location :=
  let relative := reference.dropWhile (· == '/')
  let candidates := [Path.join directory relative, Path.join root.path relative]
  match candidates.find? files.pathExists with
  | none => .error (.notFound reference)
  | some path => Source.within files root path

/-- The pieces of a text joined, each tag replaced by what `expand` gives. The state is passed from
one tag to the next; the first failure ends the work. -/
def joinPieces {State : Type}
    (expand : ReferenceTag "include".toList → State → Except CompileError Text × State) :
    List (Piece (ReferenceTag "include".toList)) → State → Except CompileError Text × State
  | [], state => (.ok [], state)
  | .char c :: pieces, state =>
    let (rest, state) := joinPieces expand pieces state
    (rest.map (c :: ·), state)
  | .item tag :: pieces, state =>
    match expand tag state with
    | (.error e, state) => (.error e, state)
    | (.ok text, state) =>
      let (rest, state) := joinPieces expand pieces state
      (rest.map (text ++ ·), state)

/-- A text with its include tags replaced, and the files that are then being spliced in. `visiting`
holds those files on the way from the first text to this one; a file is added while its own text is
worked on. `fuel` bounds the nesting. -/
def spliceAll : (fuel : Nat) → (content directory : Text) → (visiting : List Location) →
    Except CompileError Text × List Location
  | 0, _, directory, visiting => (.error (.circular directory), visiting)
  | fuel + 1, content, directory, visiting =>
    joinPieces (fun tag visiting =>
      match locate files root directory tag.reference with
      | .error e => (.error e, visiting)
      | .ok location =>
        if location ∈ visiting then (.error (.circular location.path), visiting)
        else if maxDepth ≤ visiting.length then
          (.error (.depthExceeded tag.reference maxDepth), visiting)
        else match Source.read files location with
          | .error e => (.error e, visiting)
          | .ok body =>
            let (result, visiting) :=
              spliceAll fuel body (Location.path location.dropLast) (location :: visiting)
            (result, visiting.erase location))
      (Layout.includeTag.pieces content) visiting

/-- A text with its include tags replaced. No nesting of different files is deeper than there are
files. -/
def splice (content directory : Text) (visiting : List Location) :
    Except CompileError Text × List Location :=
  spliceAll files root maxDepth (files.regularFiles.length + 1) content directory visiting

end Include
end MailTemplate
