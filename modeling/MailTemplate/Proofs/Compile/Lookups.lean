import MailTemplate.Proofs.Compile.Expansion
import MailTemplate.Proofs.Compile.Lineage
import MailTemplate.Proofs.Files.Changed

/-! What is looked for in the files while the source of a template is put together: the templates that
its references name, and the files that its include tags name. Where two file systems answer alike for
all of that, they give the same source. -/

namespace MailTemplate

/-- Two file systems answer alike for a path: whether it leads anywhere, to which file at or below the
root, and what that file holds. -/
structure Source.SameAnswer (root : Location) (files other : FileSystem) (path : Text) : Prop where
  pathExists : other.pathExists path = files.pathExists path
  within : Source.within other root path = Source.within files root path
  read : ∀ location, Source.within files root path = .ok location →
    Source.read other location = Source.read files location

section
variable {files other : FileSystem} {config : Config} {root : Location} {reference : Text}

theorem Source.load_congr
    (hroot : place other config.sourceRoot = place files config.sourceRoot)
    (h : ∀ root, place files config.sourceRoot = .ok root → SameAnswer root files other
      (Path.join root.path (templateName reference ++ extension))) :
    load other config reference = load files config reference := by
  unfold load
  rw [hroot]
  refine bind_congr_of_ok fun root hplace => ?_
  obtain ⟨hexists, hwithin, hread⟩ := h root hplace
  dsimp only
  rw [hexists]
  split
  · rfl
  · rw [hwithin]
    refine bind_congr_of_ok fun location hlocation => ?_
    rw [hread location hlocation]

namespace Layout

variable {leaf parent : Text} {overrides : List Override} {chain : List Text} {template : Template}

theorem climb_congr
    (h : ∀ named ∈ (climbLoading files config leaf parent overrides chain).2,
      Source.load other config named = Source.load files config named) :
    climb other config leaf parent overrides chain =
      climb files config leaf parent overrides chain := by
  fun_induction Layout.climb files config leaf parent overrides chain with
  | case1 parent overrides chain hc => rw [climb, if_pos hc]
  | case2 parent overrides chain hc hd => rw [climb, if_neg hc, dif_pos hd]
  | case3 parent overrides chain hc hd cause hload =>
    rw [climbLoading, if_neg hc, dif_neg hd, hload] at h
    rw [climb, if_neg hc, dif_neg hd, h parent (by simp), hload]
  | case4 parent overrides chain hc hd layout hload hparent =>
    rw [climbLoading, if_neg hc, dif_neg hd, hload] at h
    simp only [hparent] at h
    rw [climb, if_neg hc, dif_neg hd, h parent (by simp), hload]
    simp only [hparent]
  | case5 parent overrides chain hc hd layout hload next hparent ih =>
    rw [climbLoading, if_neg hc, dif_neg hd, hload] at h
    simp only [hparent] at h
    rw [climb, if_neg hc, dif_neg hd, h parent (by simp), hload]
    simp only [hparent]
    exact ih fun named hm => h named (List.mem_cons_of_mem _ hm)

theorem resolveTemplate_congr (hload : Source.load files config reference = .ok template)
    (h : ∀ named ∈ (resolveLoading files config reference).2,
      Source.load other config named = Source.load files config named) :
    resolveTemplate other config template = resolveTemplate files config template := by
  unfold resolveTemplate
  rw [resolveLoading, hload] at h
  cases hparent : parent? template.text with
  | none => rfl
  | some parent =>
    simp only [hparent] at h
    exact climb_congr fun named hm => h named (List.mem_cons_of_mem _ hm)

end Layout

namespace Include

variable {directory path content text last : Text} {visiting way : List Location}
  {maxDepth fuel : Nat}

variable (files root) in
/-- The paths that a reference is looked for at: in the directory of the file that has it, and if there
is nothing, in the source root. -/
def Tries (directory reference path : Text) : Prop :=
  let relative := reference.dropWhile (· == '/')
  path = Path.join directory relative ∨
    files.pathExists (Path.join directory relative) = false ∧ path = Path.join root.path relative

theorem tries_of_find? {relative : Text} (hr : relative = reference.dropWhile (· == '/'))
    (h : [Path.join directory relative, Path.join root.path relative].find? files.pathExists =
      some path) : Tries files root directory reference path := by
  subst hr
  by_cases hfirst : files.pathExists (Path.join directory (reference.dropWhile (· == '/')))
  · rw [List.find?_cons_of_pos hfirst] at h
    exact .inl (Option.some.inj h).symm
  · rw [List.find?_cons_of_neg hfirst] at h
    rw [List.mem_singleton.1 (List.mem_of_find?_eq_some h)]
    exact .inr ⟨Bool.eq_false_iff.2 hfirst, rfl⟩

theorem locate_congr
    (h : ∀ path, Tries files root directory reference path → Source.SameAnswer root files other path) :
    locate other root directory reference = locate files root directory reference := by
  have hfind : [Path.join directory (reference.dropWhile (· == '/')),
      Path.join root.path (reference.dropWhile (· == '/'))].find? other.pathExists =
      [Path.join directory (reference.dropWhile (· == '/')),
        Path.join root.path (reference.dropWhile (· == '/'))].find? files.pathExists := by
    have hfirst := (h _ (.inl rfl)).pathExists
    cases hexists : files.pathExists (Path.join directory (reference.dropWhile (· == '/'))) with
    | true =>
      rw [List.find?_cons_of_pos (hfirst.trans hexists), List.find?_cons_of_pos hexists]
    | false =>
      have hsecond := (h _ (.inr ⟨hexists, rfl⟩)).pathExists
      simp only [List.find?_cons, List.find?_nil, hfirst, hexists, hsecond]
  simp only [locate, hfind]
  split
  · rfl
  · next path hpath => exact (h path (tries_of_find? rfl hpath)).within

/-- A text is spliced by what its include tags, and those of the spliced files, are looked for at. -/
theorem spliceAll_congr
    (h : ∀ way text last, Way files root content directory way text last →
      ∀ tag ∈ Layout.includeTag.items text, ∀ path, Tries files root last tag.reference path →
        Source.SameAnswer root files other path) :
    spliceAll other root maxDepth fuel content directory visiting =
      spliceAll files root maxDepth fuel content directory visiting := by
  induction fuel generalizing content directory visiting with
  | zero => rfl
  | succ fuel ih =>
    rw [spliceAll_succ, spliceAll_succ]
    refine joinPieces_congr (fun tag => snd_expand (snd_spliceAll fuel)) fun tag hm => ?_
    have htag := Pattern.mem_items.2 hm
    unfold expand
    rw [locate_congr (h [] content directory .here tag htag)]
    split
    · rfl
    · next location hlocate =>
      obtain ⟨path, hpath, hwithin⟩ := locate_eq_ok hlocate
      rw [(h [] content directory .here tag htag path (tries_of_find? rfl hpath)).read location hwithin]
      split
      · rfl
      · split
        · rfl
        · split
          · rfl
          · next body hread =>
            have hnames := names_iff.2 ⟨hlocate, hread⟩
            rw [ih fun way text last hway => h _ text last (.on htag hnames hway)]

theorem splice_congr
    (h : ∀ way text last, Way files root content directory way text last →
      ∀ tag ∈ Layout.includeTag.items text, ∀ path, Tries files root last tag.reference path →
        Source.SameAnswer root files other path) :
    splice other root maxDepth content directory visiting =
      splice files root maxDepth content directory visiting := by
  have hfiles := ncard_unvisited_le files root visiting
  have hother := ncard_unvisited_le other root visiting
  let fuel := files.regularFiles.length + other.regularFiles.length + 1
  calc splice other root maxDepth content directory visiting
      = spliceAll other root maxDepth fuel content directory visiting :=
        spliceAll_congr_fuel (by omega) (by omega)
    _ = spliceAll files root maxDepth fuel content directory visiting := spliceAll_congr h
    _ = splice files root maxDepth content directory visiting :=
        spliceAll_congr_fuel (by omega) (by omega)

end Include

namespace Compiler

inductive LooksFor (config : Config) (files : FileSystem) (root : Location) (reference : Text) :
    Text → Prop
  | template {named : Text} : named ∈ (Layout.resolveLoading files config reference).2 →
      LooksFor config files root reference (Path.join root.path (templateName named ++ extension))
  | included {template : Template} {joined text last path : Text} {way : List Location}
      {tag : ReferenceTag "include".toList} : config.inlineIncludes = true →
        Source.load files config reference = .ok template →
          Layout.resolveTemplate files config template = .ok joined →
            Include.Way files root joined (Location.path template.directory) way text last →
              tag ∈ Layout.includeTag.items text →
                Include.Tries files root last tag.reference path →
                  LooksFor config files root reference path

theorem mem_resolveLoading (files : FileSystem) (config : Config) (reference : Text) :
    reference ∈ (Layout.resolveLoading files config reference).2 := by
  unfold Layout.resolveLoading
  split
  · exact List.mem_singleton_self _
  · split
    · exact List.mem_singleton_self _
    · exact List.mem_cons_self

theorem source_congr (hroot : Source.place other config.sourceRoot = Source.place files config.sourceRoot)
    (h : ∀ root, Source.place files config.sourceRoot = .ok root → ∀ path,
      LooksFor config files root reference path → Source.SameAnswer root files other path) :
    source config other reference = source config files reference := by
  have hload : ∀ named ∈ (Layout.resolveLoading files config reference).2,
      Source.load other config named = Source.load files config named := fun named hm =>
    Source.load_congr hroot fun root hplace => h root hplace _ (.template hm)
  unfold source
  rw [hload reference (mem_resolveLoading files config reference)]
  refine bind_congr_of_ok fun template htemplate => ?_
  rw [Layout.resolveTemplate_congr htemplate hload]
  refine bind_congr_of_ok fun joined hjoined => ?_
  rw [hroot]
  split
  · next hinline =>
    refine bind_congr_of_ok fun root hplace => ?_
    rw [Include.splice_congr fun way text last hway tag htag path htries =>
      h root hplace path (.included hinline htemplate hjoined hway htag htries)]
  · rfl

end Compiler
end
end MailTemplate
