import MailTemplate.Proofs.Compile.Loading
import Mathlib.Data.List.Basic
import Mathlib.Data.Set.Card

/-! Splicing tag by tag. The files that are being spliced are the same after a tag as before it, also
where it fails, so every tag of a text is replaced on its own. Files nest no deeper than there are
regular files below the source root. -/

namespace MailTemplate

namespace Include

section
variable {State : Type}
  {step other : ReferenceTag "include".toList → State → Except CompileError Text × State}
  {pieces : List (Piece (ReferenceTag "include".toList))} {state : State}

theorem snd_joinPieces (hs : ∀ tag, (step tag state).2 = state) :
    (joinPieces step pieces state).2 = state := by
  induction pieces with
  | nil => rfl
  | cons piece pieces ih =>
    cases piece with
    | char c => exact ih
    | item tag =>
      have hkept := hs tag
      rw [joinPieces]
      split
      · next he => rwa [he] at hkept
      · next text after he =>
        rw [he] at hkept
        obtain rfl : after = state := hkept
        exact ih

theorem joinPieces_congr (hs : ∀ tag, (step tag state).2 = state)
    (h : ∀ tag, .item tag ∈ pieces → other tag state = step tag state) :
    joinPieces other pieces state = joinPieces step pieces state := by
  induction pieces with
  | nil => rfl
  | cons piece pieces ih =>
    have hrest := ih fun tag hm => h tag (List.mem_cons_of_mem _ hm)
    cases piece with
    | char c => rw [joinPieces, joinPieces, hrest]
    | item tag =>
      have hkept := hs tag
      rw [joinPieces, joinPieces, h tag List.mem_cons_self]
      split
      · rfl
      · next text after he =>
        rw [he] at hkept
        obtain rfl : after = state := hkept
        rw [hrest]

theorem joinPieces_eq_ok_iff (hs : ∀ tag, (step tag state).2 = state) {result : Text} :
    (joinPieces step pieces state).1 = .ok result ↔
      (∀ tag, .item tag ∈ pieces → ∃ text, (step tag state).1 = .ok text) ∧
        result = pieces.flatMap (Pattern.fill fun tag => (step tag state).1.toOption.getD []) := by
  induction pieces generalizing result with
  | nil =>
    constructor
    · intro h
      cases h
      exact ⟨fun _ hm => absurd hm List.not_mem_nil, rfl⟩
    · rintro ⟨-, rfl⟩
      rfl
  | cons piece pieces ih =>
    cases piece with
    | char c =>
      have hrest : (joinPieces step (.char c :: pieces) state).1 =
          (joinPieces step pieces state).1.map (c :: ·) := rfl
      rw [hrest, map_eq_ok_iff]
      simp only [ih, List.mem_cons, reduceCtorEq, false_or, List.flatMap_cons]
      constructor
      · rintro ⟨rest, ⟨hok, rfl⟩, rfl⟩
        exact ⟨hok, rfl⟩
      · rintro ⟨hok, rfl⟩
        exact ⟨_, ⟨hok, rfl⟩, rfl⟩
    | item tag =>
      have hkept := hs tag
      cases hstep : step tag state with
      | mk first after =>
        rw [hstep] at hkept
        obtain rfl : after = state := hkept
        cases first with
        | error e =>
          rw [joinPieces, hstep]
          constructor
          · intro h
            cases h
          · rintro ⟨hok, -⟩
            obtain ⟨text, ht⟩ := hok tag List.mem_cons_self
            rw [hstep] at ht
            cases ht
        | ok first =>
          have hrest : (joinPieces step (.item tag :: pieces) after).1 =
              (joinPieces step pieces after).1.map (first ++ ·) := by rw [joinPieces, hstep]
          have hfirst : (step tag after).1 = .ok first := by rw [hstep]
          rw [hrest, map_eq_ok_iff]
          simp only [ih, List.mem_cons, List.flatMap_cons, Pattern.fill, hfirst]
          constructor
          · rintro ⟨rest, ⟨hok, rfl⟩, rfl⟩
            refine ⟨fun other hm => ?_, rfl⟩
            rcases hm with hm | hm
            · cases hm
              exact ⟨first, hfirst⟩
            · exact hok other hm
          · rintro ⟨hok, rfl⟩
            exact ⟨_, ⟨fun other hm => hok other (.inr hm), rfl⟩, rfl⟩

theorem exists_of_joinPieces_eq_error (hs : ∀ tag, (step tag state).2 = state) {e : CompileError}
    (h : (joinPieces step pieces state).1 = .error e) :
    ∃ tag, .item tag ∈ pieces ∧ (step tag state).1 = .error e := by
  induction pieces with
  | nil => cases h
  | cons piece pieces ih =>
    have hlater : (joinPieces step pieces state).1 = .error e →
        ∃ tag, .item tag ∈ piece :: pieces ∧ (step tag state).1 = .error e := by
      intro h
      obtain ⟨tag, hm, he⟩ := ih h
      exact ⟨tag, List.mem_cons_of_mem _ hm, he⟩
    cases piece with
    | char c => exact hlater (map_eq_error_iff.1 h)
    | item tag =>
      have hkept := hs tag
      rw [joinPieces] at h
      split at h
      · next cause after hstep =>
        refine ⟨tag, List.mem_cons_self, ?_⟩
        rw [hstep]
        exact h
      · next text after hstep =>
        rw [hstep] at hkept
        obtain rfl : after = state := hkept
        exact hlater (map_eq_error_iff.1 h)

end

section
variable {files : FileSystem} {root location : Location} {maxDepth fuel : Nat}
  {content directory result text last body reference : Text} {visiting way : List Location}
  {tag : ReferenceTag "include".toList}

variable (files root maxDepth) in
/-- What stands for a tag: the spliced text of its file. The files being spliced are those of the
text and the file itself. -/
def expand (fuel : Nat) (directory : Text) (tag : ReferenceTag "include".toList)
    (visiting : List Location) : Except CompileError Text × List Location :=
  match locate files root directory tag.reference with
  | .error e => (.error e, visiting)
  | .ok location =>
    if visiting.contains location then (.error (.circular location.path), visiting)
    else if maxDepth ≤ visiting.length then
      (.error (.depthExceeded tag.reference maxDepth), visiting)
    else match Source.read files location with
      | .error e => (.error e, visiting)
      | .ok body =>
        let (result, visiting) := spliceAll files root maxDepth fuel body
          (Location.path location.dropLast) (location :: visiting)
        (result, visiting.erase location)

theorem spliceAll_succ (fuel : Nat) (content directory : Text) (visiting : List Location) :
    spliceAll files root maxDepth (fuel + 1) content directory visiting =
      joinPieces (expand files root maxDepth fuel directory) (Layout.includeTag.pieces content)
        visiting := by
  refine congrArg (joinPieces · _ _) (funext fun tag => funext fun visiting => ?_)
  unfold expand
  cases locate files root directory tag.reference with
  | error cause => rfl
  | ok location => exact if_congr List.contains_iff_mem.symm rfl rfl

theorem snd_expand (h : ∀ content directory visiting,
      (spliceAll files root maxDepth fuel content directory visiting).2 = visiting) :
    (expand files root maxDepth fuel directory tag visiting).2 = visiting := by
  unfold expand
  split
  · rfl
  · split
    · rfl
    · split
      · rfl
      · split
        · rfl
        · simp only [h, List.erase_cons_head]

theorem snd_spliceAll (fuel : Nat) (content directory : Text) (visiting : List Location) :
    (spliceAll files root maxDepth fuel content directory visiting).2 = visiting := by
  induction fuel generalizing content directory visiting with
  | zero => rfl
  | succ fuel ih =>
    rw [spliceAll_succ]
    exact snd_joinPieces fun tag => snd_expand ih

variable (files root) in
/-- The regular files at or below the root that are not being spliced. -/
def unvisited (visiting : List Location) : Set Location :=
  {location | root <+: location ∧ files.isFileAt location = true ∧ location ∉ visiting}

variable (files root) in
theorem finite_unvisited (visiting : List Location) : (unvisited files root visiting).Finite :=
  files.regularFiles.finite_toSet.subset fun _ h => FileSystem.mem_regularFiles h.2.1

theorem ncard_unvisited_lt (h : location ∈ unvisited files root visiting) :
    (unvisited files root (location :: visiting)).ncard < (unvisited files root visiting).ncard := by
  refine Set.ncard_lt_ncard ((Set.ssubset_iff_of_subset ?_).2 ?_) (finite_unvisited files root visiting)
  · rintro other ⟨hr, hf, hv⟩
    exact ⟨hr, hf, fun hm => hv (List.mem_cons_of_mem _ hm)⟩
  · exact ⟨location, h, fun hm => hm.2.2 List.mem_cons_self⟩

variable (files root) in
theorem ncard_unvisited_le (visiting : List Location) :
    (unvisited files root visiting).ncard ≤ files.regularFiles.length := by
  have hsub : unvisited files root visiting ⊆ (files.regularFiles.toFinset : Set Location) :=
    fun _ h => List.mem_toFinset.2 (FileSystem.mem_regularFiles h.2.1)
  calc (unvisited files root visiting).ncard
      ≤ (files.regularFiles.toFinset : Set Location).ncard :=
        Set.ncard_le_ncard hsub (Finset.finite_toSet _)
    _ = files.regularFiles.toFinset.card := Set.ncard_coe_finset _
    _ ≤ files.regularFiles.length := List.toFinset_card_le _

theorem isFileAt_of_locate (h : locate files root directory reference = .ok location) :
    root <+: location ∧ files.isFileAt location = true := by
  obtain ⟨path, -, hwithin⟩ := locate_eq_ok h
  exact (Source.within_eq_ok hwithin).2

theorem spliceAll_congr_fuel {more : Nat} (hf : (unvisited files root visiting).ncard < fuel)
    (hm : (unvisited files root visiting).ncard < more) :
    spliceAll files root maxDepth fuel content directory visiting =
      spliceAll files root maxDepth more content directory visiting := by
  induction fuel generalizing more content directory visiting with
  | zero => omega
  | succ fuel ih =>
    obtain ⟨more, rfl⟩ : ∃ n, more = n + 1 := ⟨more - 1, by omega⟩
    rw [spliceAll_succ, spliceAll_succ]
    refine joinPieces_congr (fun tag => snd_expand (snd_spliceAll more)) fun tag _ => ?_
    unfold expand
    split
    · rfl
    · next location hlocate =>
      split
      · rfl
      · next hv =>
        split
        · rfl
        · split
          · rfl
          · next body _ =>
            obtain ⟨hr, hfile⟩ := isFileAt_of_locate hlocate
            have hlt := ncard_unvisited_lt ⟨hr, hfile, mt List.contains_iff_mem.2 hv⟩
            have hinner : ∀ directory,
                spliceAll files root maxDepth fuel body directory (location :: visiting) =
                  spliceAll files root maxDepth more body directory (location :: visiting) :=
              fun _ => ih (by omega) (by omega)
            rw [hinner]

end
end Include
end MailTemplate
