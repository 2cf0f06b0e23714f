import MailTemplate.Compile.Compiler
import MailTemplate.Proofs.Files.Entries
import MailTemplate.Proofs.Text.Pieces
import MailTemplate.Proofs.Text.Success

/-! Where texts come from. A template, a layout or a spliced file is read at a place at or below the
source root; a template that is compiled has been read, joined, spliced and rendered. -/

namespace MailTemplate

section
variable {files : FileSystem} {config : Config}

theorem Source.place_eq_ok_iff {path : Text} {location : Location} :
    place files path = .ok location ↔ files.follow path = .ok location := by
  unfold place
  split
  all_goals
    next he =>
      rw [he]
      simp

theorem Source.within_eq_ok {root location : Location} {path : Text}
    (h : within files root path = .ok location) :
    place files path = .ok location ∧ root <+: location ∧ files.isFileAt location = true := by
  obtain ⟨found, hplace, h⟩ := bind_eq_ok_iff.1 h
  by_cases hroot : root.isPrefixOf found
  · by_cases hfile : files.isFileAt found
    · simp only [hroot, hfile, Bool.not_true, Bool.false_eq_true, if_false] at h
      cases h
      exact ⟨hplace, List.isPrefixOf_iff_prefix.1 hroot, hfile⟩
    · simp only [hroot, hfile, Bool.not_true, Bool.not_false, Bool.false_eq_true, if_false,
        if_true] at h
      cases h
  · simp only [hroot, Bool.not_false, if_true] at h
    cases h

def CompileError.IsOfFile : CompileError → Prop
  | .notFound _ | .pathEscape _ _ | .notAFile _ | .io _ => True
  | .circular _ | .depthExceeded _ _ | .config _ => False

theorem Source.isOfFile_place {path : Text} {cause : CompileError}
    (h : place files path = .error cause) : cause.IsOfFile := by
  unfold place at h
  split at h
  all_goals cases h
  all_goals trivial

theorem Source.isOfFile_within {root : Location} {path : Text} {cause : CompileError}
    (h : within files root path = .error cause) : cause.IsOfFile := by
  rcases bind_eq_error_iff.1 h with hplace | ⟨found, -, h⟩
  · exact isOfFile_place hplace
  · by_cases hroot : root.isPrefixOf found
    · by_cases hfile : files.isFileAt found
      · simp only [hroot, hfile, Bool.not_true, Bool.false_eq_true, if_false] at h
        cases h
      · simp only [hroot, hfile, Bool.not_true, Bool.not_false, Bool.false_eq_true, if_false,
          if_true] at h
        cases h
        trivial
    · simp only [hroot, Bool.not_false, if_true] at h
      cases h
      trivial

theorem Source.isOfFile_read {location : Location} {cause : CompileError}
    (h : read files location = .error cause) : cause.IsOfFile := by
  unfold read at h
  cases hr : files.readAt location with
  | ok text =>
    rw [hr] at h
    cases h
  | error e =>
    rw [hr] at h
    cases h
    trivial

theorem Source.load_eq_ok {reference : Text} {template : Template}
    (h : load files config reference = .ok template) :
    template.name = templateName reference ∧ ∃ root, place files config.sourceRoot = .ok root ∧
      within files root (Path.join root.path (template.name ++ extension)) = .ok template.location ∧
        files.readAt template.location = .ok template.text := by
  obtain ⟨root, hroot, h⟩ := bind_eq_ok_iff.1 h
  by_cases hp : files.pathExists (Path.join root.path (templateName reference ++ extension))
  · simp only [hp, Bool.not_true, Bool.false_eq_true, if_false] at h
    obtain ⟨location, hwithin, h⟩ := bind_eq_ok_iff.1 h
    obtain ⟨text, hread, h⟩ := bind_eq_ok_iff.1 h
    cases h
    exact ⟨rfl, root, hroot, hwithin, mapError_eq_ok_iff.1 hread⟩
  · simp only [hp, Bool.not_false, if_true] at h
    cases h

theorem Source.isOfFile_load {reference : Text} {cause : CompileError}
    (h : load files config reference = .error cause) : cause.IsOfFile := by
  rcases bind_eq_error_iff.1 h with hroot | ⟨root, -, h⟩
  · exact isOfFile_place hroot
  · by_cases hp : files.pathExists (Path.join root.path (templateName reference ++ extension))
    · simp only [hp, Bool.not_true, Bool.false_eq_true, if_false] at h
      rcases bind_eq_error_iff.1 h with hwithin | ⟨location, -, h⟩
      · exact isOfFile_within hwithin
      · rcases bind_eq_error_iff.1 h with hread | ⟨text, -, h⟩
        · exact isOfFile_read hread
        · cases h
    · simp only [hp, Bool.not_false, if_true] at h
      cases h
      trivial

/-- The file that a reference names is looked for in the directory of the file that has the reference,
then in the source root. -/
theorem Include.locate_eq_ok {root location : Location} {directory reference : Text}
    (h : locate files root directory reference = .ok location) :
    ∃ path, [Path.join directory (reference.dropWhile (· == '/')),
        Path.join root.path (reference.dropWhile (· == '/'))].find? files.pathExists = some path ∧
      Source.within files root path = .ok location := by
  simp only [locate] at h
  split at h
  · cases h
  · next path hfound => exact ⟨path, hfound, h⟩

theorem Include.isOfFile_locate {root : Location} {directory reference : Text} {cause : CompileError}
    (h : locate files root directory reference = .error cause) : cause.IsOfFile := by
  simp only [locate] at h
  split at h
  · cases h
    trivial
  · exact Source.isOfFile_within h

theorem Include.joinPieces_map_char {State : Type}
    (expand : ReferenceTag "include".toList → State → Except CompileError Text × State) (text : Text)
    (state : State) : joinPieces expand (text.map .char) state = (.ok text, state) := by
  induction text with
  | nil => rfl
  | cons c text ih =>
    rw [List.map_cons, joinPieces, ih]
    rfl

theorem Include.splice_of_not_hasIncludes {content : Text} (h : Layout.hasIncludes content = false)
    (root : Location) (maxDepth : Nat) (directory : Text) (visiting : List Location) :
    splice files root maxDepth content directory visiting = (.ok content, visiting) := by
  have hnone : Layout.includeTag.first? content = none := by
    rwa [Layout.hasIncludes, Option.isSome_eq_false_iff, Option.isNone_iff_eq_none] at h
  change joinPieces _ (Layout.includeTag.pieces content) visiting = _
  rw [Pattern.pieces_of_first?_eq_none hnone]
  exact joinPieces_map_char _ content visiting

namespace Compiler

theorem source_eq_ok {reference text : Text} {template : Template}
    (h : source config files reference = .ok (template, text)) :
    ∃ joined, Source.load files config reference = .ok template ∧
      Layout.resolveTemplate files config template = .ok joined ∧
        (config.inlineIncludes = false ∧ text = joined ∨
          config.inlineIncludes = true ∧ ∃ root, Source.place files config.sourceRoot = .ok root ∧
            (Include.splice files root config.maxDepth joined (Location.path template.directory)
              []).1 = .ok text) := by
  obtain ⟨loaded, hload, h⟩ := bind_eq_ok_iff.1 h
  obtain ⟨joined, hjoined, h⟩ := bind_eq_ok_iff.1 h
  by_cases hi : config.inlineIncludes = true
  · rw [if_pos hi] at h
    obtain ⟨root, hroot, h⟩ := bind_eq_ok_iff.1 h
    obtain ⟨result, hresult, h⟩ := bind_eq_ok_iff.1 h
    cases h
    exact ⟨joined, hload, hjoined, .inr ⟨hi, root, hroot, hresult⟩⟩
  · rw [if_neg hi] at h
    cases h
    exact ⟨text, hload, hjoined, .inl ⟨Bool.eq_false_iff.2 hi, rfl⟩⟩

theorem source_of_error {reference : Text} {template : Template} {cause : CompileError}
    (h : Source.load files config reference = .ok template)
    (hj : Layout.resolveTemplate files config template = .error cause) :
    source config files reference = .error cause :=
  bind_eq_error_iff.2 (.inr ⟨template, h, bind_eq_error_iff.2 (.inl hj)⟩)

theorem source_of_resolveTemplate {reference joined : Text} {template : Template}
    (h : Source.load files config reference = .ok template)
    (hj : Layout.resolveTemplate files config template = .ok joined)
    (hi : Layout.hasIncludes joined = false) :
    source config files reference = .ok (template, joined) := by
  obtain ⟨-, root, hroot, -⟩ := Source.load_eq_ok h
  refine bind_eq_ok_iff.2 ⟨template, h, bind_eq_ok_iff.2 ⟨joined, hj, ?_⟩⟩
  by_cases hinline : config.inlineIncludes = true
  · rw [if_pos hinline]
    refine bind_eq_ok_iff.2 ⟨root, hroot, ?_⟩
    rw [Include.splice_of_not_hasIncludes hi]
    rfl
  · rw [if_neg hinline]
    rfl

/-- A template that inherits from none and has no file to splice in is its own source. -/
theorem source_of_load {reference : Text} {template : Template}
    (h : Source.load files config reference = .ok template)
    (hp : Layout.hasParent template.text = false) (hi : Layout.hasIncludes template.text = false) :
    source config files reference = .ok (template, template.text) := by
  have hparent : Layout.parent? template.text = none := by
    rw [Layout.hasParent, Option.isSome_eq_false_iff, Option.isNone_iff_eq_none] at hp
    rw [Layout.parent?, hp, Option.map_none]
  have hjoined : Layout.resolveTemplate files config template = .ok template.text := by
    rw [Layout.resolveTemplate, hparent]
  exact source_of_resolveTemplate h hjoined hi

/-- A compiled template is what its source is rendered as, written to a file or not. -/
theorem compile_eq_ok {compiler : Compiler} {nonce reference : Text} {write : Bool}
    {compiled : Compiled} (h : (compiler.compile files nonce reference write).result = .ok compiled) :
    ∃ template text, source compiler.config files reference = .ok (template, text) ∧
      compiled = ⟨template.name,
        (Render.template nonce template.name (compiler.loadStylesheet files).1 text).1⟩ := by
  unfold compile at h
  split at h
  · cases h
  · next template text hsource =>
    refine ⟨template, text, hsource, ?_⟩
    cases write with
    | false =>
      cases h
      rfl
    | true =>
      obtain ⟨written, -, hc⟩ := map_eq_ok_iff.1 h
      exact hc.symm

end Compiler
end
end MailTemplate
