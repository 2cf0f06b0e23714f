import MailTemplate.Proofs.Compile.Splicing

/-! How deep files are nested. A run of splicing is told here without a bound on it: a file is entered,
its text is worked on, and the file is left again. Every run ends, since a file that is entered is one
fewer that may be entered inside it, and the files being spliced are in the end what they were at the
beginning, whatever comes of the run. -/

namespace MailTemplate
namespace Include
open Layout (includeTag)

variable (files : FileSystem) (root : Location) (maxDepth : Nat)

/-- The file that a tag names, and its text, if the file may be entered now. -/
def enter (directory : Text) (tag : ReferenceTag "include".toList) (visiting : List Location) :
    Except CompileError (Location × Text) :=
  match locate files root directory tag.reference with
  | .error e => .error e
  | .ok location =>
    if visiting.contains location then .error (.circular location.path)
    else if maxDepth ≤ visiting.length then .error (.depthExceeded tag.reference maxDepth)
    else (Source.read files location).map fun body => (location, body)

/-- Pieces are worked on in a directory while `visiting` are the files being spliced. The run says how
many files were nested at most, what came of the pieces, and the files being spliced after them. A tag
that is refused ends the run, and so does one with a failure inside its file, which is left first. -/
inductive Run : (directory : Text) → List (Piece (ReferenceTag "include".toList)) →
    (visiting : List Location) → (nesting : Nat) → Except CompileError Text →
      (after : List Location) → Prop
  | done {directory : Text} {visiting : List Location} : Run directory [] visiting 0 (.ok []) visiting
  | char {directory : Text} {c : Char} {pieces : List (Piece (ReferenceTag "include".toList))}
      {visiting after : List Location} {nesting : Nat} {result : Except CompileError Text} :
      Run directory pieces visiting nesting result after →
        Run directory (.char c :: pieces) visiting nesting (result.map (c :: ·)) after
  | refused {directory : Text} {tag : ReferenceTag "include".toList}
      {pieces : List (Piece (ReferenceTag "include".toList))} {visiting : List Location}
      {e : CompileError} : enter files root maxDepth directory tag visiting = .error e →
        Run directory (.item tag :: pieces) visiting 0 (.error e) visiting
  | failed {directory body : Text} {tag : ReferenceTag "include".toList}
      {pieces : List (Piece (ReferenceTag "include".toList))} {visiting within : List Location}
      {location : Location} {inner : Nat} {e : CompileError} :
      enter files root maxDepth directory tag visiting = .ok (location, body) →
        Run (Location.path location.dropLast) (includeTag.pieces body) (location :: visiting) inner
          (.error e) within →
          Run directory (.item tag :: pieces) visiting (inner + 1) (.error e) (within.erase location)
  | spliced {directory body text : Text} {tag : ReferenceTag "include".toList}
      {pieces : List (Piece (ReferenceTag "include".toList))}
      {visiting within after : List Location} {location : Location} {inner later : Nat}
      {result : Except CompileError Text} :
      enter files root maxDepth directory tag visiting = .ok (location, body) →
        Run (Location.path location.dropLast) (includeTag.pieces body) (location :: visiting) inner
          (.ok text) within →
          Run directory pieces (within.erase location) later result after →
            Run directory (.item tag :: pieces) visiting (max (inner + 1) later)
              (result.map (text ++ ·)) after

section
variable {files : FileSystem} {root location : Location} {maxDepth fuel nesting other : Nat}
  {directory body : Text} {tag : ReferenceTag "include".toList}
  {pieces : List (Piece (ReferenceTag "include".toList))} {visiting after later : List Location}
  {result found : Except CompileError Text} {e : CompileError}

theorem enter_eq_ok (h : enter files root maxDepth directory tag visiting = .ok (location, body)) :
    root <+: location ∧ files.isFileAt location = true ∧ location ∉ visiting := by
  unfold enter at h
  split at h
  · cases h
  · next found hlocate =>
    split at h
    · cases h
    · next hv =>
      split at h
      · cases h
      · obtain ⟨text, -, he⟩ := map_eq_ok_iff.1 h
        cases he
        obtain ⟨hr, hf⟩ := isFileAt_of_locate hlocate
        exact ⟨hr, hf, mt List.contains_iff_mem.2 hv⟩

/-- What stands for a tag is the failure to enter its file, or what comes of the text of the file. -/
theorem expand_eq_enter (fuel : Nat) (directory : Text) (tag : ReferenceTag "include".toList)
    (visiting : List Location) :
    expand files root maxDepth fuel directory tag visiting =
      match enter files root maxDepth directory tag visiting with
      | .error e => (.error e, visiting)
      | .ok (location, body) =>
        let (result, after) := spliceAll files root maxDepth fuel body
          (Location.path location.dropLast) (location :: visiting)
        (result, after.erase location) := by
  unfold expand enter
  cases locate files root directory tag.reference with
  | error cause => rfl
  | ok location =>
    dsimp only
    by_cases hv : visiting.contains location = true
    · rw [if_pos hv, if_pos hv]
    · rw [if_neg hv, if_neg hv]
      by_cases hd : maxDepth ≤ visiting.length
      · rw [if_pos hd, if_pos hd]
      · rw [if_neg hd, if_neg hd]
        cases Source.read files location <;> rfl

theorem expand_succ (henter : enter files root maxDepth directory tag visiting = .ok (location, body))
    (h : joinPieces (expand files root maxDepth fuel (Location.path location.dropLast))
      (includeTag.pieces body) (location :: visiting) = (result, after)) :
    expand files root maxDepth (fuel + 1) directory tag visiting =
      (result, after.erase location) := by
  simp only [expand_eq_enter, henter, spliceAll_succ, h]

theorem Run.unique (h : Run files root maxDepth directory pieces visiting nesting result after)
    (ho : Run files root maxDepth directory pieces visiting other found later) :
    nesting = other ∧ result = found ∧ after = later := by
  induction h generalizing other found later with
  | done =>
    cases ho
    exact ⟨rfl, rfl, rfl⟩
  | char _ ih =>
    cases ho with
    | char ho =>
      obtain ⟨rfl, rfl, rfl⟩ := ih ho
      exact ⟨rfl, rfl, rfl⟩
  | refused henter =>
    cases ho with
    | refused henter' =>
      cases henter.symm.trans henter'
      exact ⟨rfl, rfl, rfl⟩
    | failed henter' _ => cases henter.symm.trans henter'
    | spliced henter' _ _ => cases henter.symm.trans henter'
  | failed henter _ ih =>
    cases ho with
    | refused henter' => cases henter.symm.trans henter'
    | failed henter' ho =>
      cases henter.symm.trans henter'
      obtain ⟨rfl, he, rfl⟩ := ih ho
      exact ⟨rfl, he, rfl⟩
    | spliced henter' ho _ =>
      cases henter.symm.trans henter'
      obtain ⟨-, he, -⟩ := ih ho
      cases he
  | spliced henter _ _ ih iht =>
    cases ho with
    | refused henter' => cases henter.symm.trans henter'
    | failed henter' ho =>
      cases henter.symm.trans henter'
      obtain ⟨-, he, -⟩ := ih ho
      cases he
    | spliced henter' ho hot =>
      cases henter.symm.trans henter'
      obtain ⟨rfl, he, rfl⟩ := ih ho
      cases he
      obtain ⟨rfl, rfl, rfl⟩ := iht hot
      exact ⟨rfl, rfl, rfl⟩

/-- A run is what splicing does, once the bound on splicing reaches as deep as the run. -/
theorem Run.joinPieces_eq (h : Run files root maxDepth directory pieces visiting nesting result after)
    (hf : nesting ≤ fuel) :
    joinPieces (expand files root maxDepth fuel directory) pieces visiting = (result, after) := by
  induction h generalizing fuel with
  | done => rfl
  | char _ ih =>
    rw [joinPieces, ih hf]
  | refused henter => rw [joinPieces, expand_eq_enter, henter]
  | @failed directory body tag pieces visiting within location inner e henter _ ih =>
    obtain ⟨bound, rfl⟩ := Nat.exists_eq_add_of_lt hf
    have hexpand := expand_succ henter (ih (Nat.le_add_right inner bound))
    rw [joinPieces, hexpand]
  | @spliced directory body text tag pieces visiting within after location inner later result henter
      _ _ ih iht =>
    obtain ⟨hinner, hlater⟩ := Nat.max_le.1 hf
    obtain ⟨bound, rfl⟩ := Nat.exists_eq_add_of_lt hinner
    have hexpand := expand_succ henter (ih (Nat.le_add_right inner bound))
    rw [joinPieces, hexpand]
    simp only [iht hlater]

variable (files root maxDepth) in
theorem exists_run (directory : Text) (pieces : List (Piece (ReferenceTag "include".toList)))
    (visiting : List Location) :
    ∃ nesting ≤ (unvisited files root visiting).ncard, ∃ result,
      Run files root maxDepth directory pieces visiting nesting result visiting := by
  induction hn : (unvisited files root visiting).ncard using Nat.strongRecOn
    generalizing directory pieces visiting with
  | ind n ihn =>
    subst hn
    induction pieces with
    | nil => exact ⟨0, Nat.zero_le _, _, .done⟩
    | cons piece pieces ih =>
      obtain ⟨later, hlater, rest, hrest⟩ := ih
      cases piece with
      | char c => exact ⟨later, hlater, _, .char hrest⟩
      | item tag =>
        cases henter : enter files root maxDepth directory tag visiting with
        | error e => exact ⟨0, Nat.zero_le _, _, .refused henter⟩
        | ok found =>
          obtain ⟨location, body⟩ := found
          have hlt := ncard_unvisited_lt (enter_eq_ok henter)
          obtain ⟨inner, hinner, result, hrun⟩ := ihn _ hlt (Location.path location.dropLast)
            (includeTag.pieces body) (location :: visiting) rfl
          have hback : (location :: visiting).erase location = visiting := List.erase_cons_head _ _
          cases result with
          | error e =>
            refine ⟨inner + 1, by omega, .error e, ?_⟩
            have hfailed : Run files root maxDepth directory (.item tag :: pieces) visiting
                (inner + 1) (.error e) ((location :: visiting).erase location) :=
              .failed henter hrun
            rwa [hback] at hfailed
          | ok text =>
            refine ⟨max (inner + 1) later, by omega, rest.map (text ++ ·), .spliced henter hrun ?_⟩
            rwa [hback]

/-- Splicing ends, whatever files there are: it has one run, which nests no more files than there are
regular files at or below the root that are not being spliced before. What it gives is what splicing
gives, and in the end the files being spliced are those of the beginning, after a text as after any
failure. -/
theorem run_splice (files : FileSystem) (root : Location) (maxDepth : Nat) (content directory : Text)
    (visiting : List Location) :
    (splice files root maxDepth content directory visiting).2 = visiting ∧
      ∃ nesting ≤ (unvisited files root visiting).ncard, ∀ n result after,
        Run files root maxDepth directory (includeTag.pieces content) visiting n result after ↔
          n = nesting ∧ (result, after) = splice files root maxDepth content directory visiting := by
  refine ⟨snd_spliceAll _ content directory visiting, ?_⟩
  obtain ⟨nesting, hbound, result, hrun⟩ :=
    exists_run files root maxDepth directory (includeTag.pieces content) visiting
  have hsplice : splice files root maxDepth content directory visiting = (result, visiting) := by
    rw [splice, spliceAll_succ]
    exact hrun.joinPieces_eq (hbound.trans (ncard_unvisited_le files root visiting))
  refine ⟨nesting, hbound, fun n found after => ⟨fun h => ?_, ?_⟩⟩
  · obtain ⟨rfl, rfl, rfl⟩ := hrun.unique h
    exact ⟨rfl, hsplice.symm⟩
  · rintro ⟨rfl, h⟩
    cases h.trans hsplice
    exact hrun

end
end Include
end MailTemplate
