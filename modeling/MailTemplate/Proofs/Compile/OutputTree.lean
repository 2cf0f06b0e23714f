import MailTemplate.Proofs.Compile.CleanOutput
import MailTemplate.Proofs.Files.Upkeep
import MailTemplate.Proofs.Files.Writing

/-! What a compilation changes. The output of a template is written to the path that joins the output
root and the name of the template. As long as that name does not lead above its beginning and passes no
link in the output tree, nothing that is there changes outside of that tree. -/

namespace MailTemplate
namespace Compiler
open MailTemplate.Path FileSystem

section
variable {compiler : Compiler} {files : FileSystem} {config : Config} {base place : Location}
  {missing ns : List Text} {reference text name : Text} {template : Template}

theorem config_loadStylesheet : (compiler.loadStylesheet files).2.config = compiler.config := by
  unfold loadStylesheet
  split <;> rfl

theorem compile_of_source (nonce : Text)
    (h : source compiler.config files reference = .ok (template, text)) :
    let html := (Render.template nonce template.name (compiler.loadStylesheet files).1 text).1
    let written := files.writeDeep (outputPath compiler.config template.name) (.text html)
    (compiler.compile files nonce reference true).files = written.1 ∧
      (compiler.compile files nonce reference true).result =
        (written.2.mapError .io).map fun _ => ⟨template.name, html⟩ := by
  rw [compile, h]
  dsimp only
  rw [if_pos rfl, config_loadStylesheet]
  exact ⟨rfl, rfl⟩

theorem compiler_compile {write : Bool} (nonce : Text)
    (h : source compiler.config files reference = .ok (template, text)) :
    (compiler.compile files nonce reference write).compiler = (compiler.loadStylesheet files).2 := by
  rw [compile, h]
  cases write <;> rfl

/-- The output path begins where the output root begins, and its names are those of the output root
and those of the template. -/
theorem start_outputPath (h : isAbsolute (name ++ extension) = false) :
    files.start (outputPath config name) = files.start config.distRoot := by
  have habsolute : isAbsolute (outputPath config name) = isAbsolute config.distRoot := by
    rw [outputPath, join, h, if_neg Bool.false_ne_true]
    cases config.distRoot with
    | nil => exact h
    | cons c path => split <;> simp [isAbsolute_cons]
  rw [FileSystem.start, FileSystem.start, habsolute]

theorem parts_outputPath (config : Config) (h : isAbsolute (name ++ extension) = false) :
    ∃ before last, Path.parts (outputPath config name) = before ++ [last] ∧ IsName last := by
  have hend : ∃ front, outputPath config name = front ++ extension := by
    rw [outputPath, join, h, if_neg Bool.false_ne_true]
    split
    · exact ⟨config.distRoot ++ name, (List.append_assoc _ _ _).symm⟩
    · exact ⟨config.distRoot ++ ['/'] ++ name, (List.append_assoc _ _ _).symm⟩
  obtain ⟨front, hfront⟩ := hend
  rw [hfront]
  exact exists_parts_extension front

theorem names_extension_ne_nil (name : Text) : names (name ++ extension) ≠ [] := by
  obtain ⟨before, last, hparts, hlast⟩ := exists_parts_extension name
  intro hnil
  have hm : last ∈ names (name ++ extension) :=
    List.mem_filter.2 ⟨by simp [hparts], by simp [hlast.1, hlast.2.1]⟩
  rw [hnil] at hm
  cases hm

theorem prefix_lexical (hs : staysBelow 0 ns = true) (hn : ∀ part ∈ ns, part ≠ [] ∧ part ≠ ['.']) :
    base <+: lexical base ns := by
  have hl : base <+: lexical (base ++ []) ns := lexical_of_staysBelow hs hn
  rwa [List.append_nil] at hl

/-- On a way that goes on below a place, every place is below it or on the way to it. -/
theorem prefix_or_onWay (hs : staysBelow 0 ns = true) (hn : ∀ part ∈ ns, part ≠ [] ∧ part ≠ ['.'])
    (h : OnWay base (missing ++ ns) place) :
    lexical base missing <+: place ∨ OnWay base missing place := by
  obtain ⟨front, hfront, rfl⟩ := h
  rcases List.prefix_or_prefix_of_prefix hfront (List.prefix_append missing ns) with hm | ⟨inside, rfl⟩
  · exact .inr ⟨front, hm, rfl⟩
  · rw [List.prefix_append_right_inj] at hfront
    rw [lexical_append]
    exact .inl (prefix_lexical (staysBelow_of_isPrefix hs hfront)
      fun part hm => hn part (hfront.subset hm))

theorem steps_compile (compiler : Compiler) (files : FileSystem) (nonce reference : Text) (write : Bool) :
    Relation.ReflTransGen Step files (compiler.compile files nonce reference write).files := by
  rw [compile]
  split
  · exact .refl
  · dsimp only
    split
    · exact steps_writeDeep files _ _
    · exact .refl

theorem steps_compileEach (nonces : Nat → Text) (first : Nat) (compiler : Compiler) (files : FileSystem)
    (names : List Text) :
    Relation.ReflTransGen Step files (compileEach nonces first compiler files names).files := by
  induction names generalizing first compiler files with
  | nil => exact .refl
  | cons name names ih =>
    have hone := steps_compile compiler files (nonces first) name true
    rw [compileEach]
    dsimp only
    split
    · exact hone.trans (ih _ _ _)
    · exact hone.trans (ih _ _ _)

theorem isTree_compileAll (tree : files.IsTree) (compiler : Compiler) (nonces : Nat → Text) :
    (compiler.compileAll files nonces).files.IsTree := by
  refine tree.of_steps ?_
  rw [compileAll]
  split
  · exact .refl
  · exact steps_compileEach nonces 0 compiler files _

/-- The output root: a place that its path leads to, and the names behind that place, of directories
that may have to be made. -/
def HasOutputRoot (config : Config) (files : FileSystem) (base : Location) (missing : List Text) :
    Prop :=
  ∃ front, names config.distRoot = front ++ missing ∧
    files.walk .find maxLinks (files.start config.distRoot) front = .ok base

/-- A compilation whose way to the output has no links adds directories on that way, beyond what is
there already, and changes the place that the way leads to, where it writes the output. -/
theorem entry_compile (nonce : Text)
    (hroot : HasOutputRoot compiler.config files base missing)
    (hclear : files.IsClear base (missing ++ names (templateName reference ++ extension))) :
    let outcome := compiler.compile files nonce reference true
    let rest := missing ++ names (templateName reference ++ extension)
    (∀ place, outcome.files.entry? place = files.entry? place ∨ place = lexical base rest ∨
      OnWay base rest place ∧ files.entry? place = none ∧
        outcome.files.entry? place = some .directory) ∧
    ∀ compiled, outcome.result = .ok compiled →
      outcome.files.entry? (lexical base rest) = some (.file (.text compiled.html)) := by
  intro outcome rest
  cases hsource : source compiler.config files reference with
  | error cause =>
    have hfailed : outcome = ⟨.error cause, compiler, files, []⟩ := by
      change compiler.compile files nonce reference true = _
      rw [compile, hsource]
    rw [hfailed]
    refine ⟨fun _ => .inl rfl, fun compiled h => ?_⟩
    cases h
  | ok found =>
    -- the template is known by its normalized reference, whatever file it was read from
    obtain ⟨template, text⟩ := found
    obtain ⟨_, hload, -⟩ := source_eq_ok hsource
    obtain ⟨hname, -⟩ := Source.load_eq_ok hload
    have hrelative : isAbsolute (template.name ++ extension) = false :=
      hname ▸ isAbsolute_templateName reference
    obtain ⟨front, hfront, hwalk⟩ := hroot
    have hleads := leads_of_walk (by decide) hwalk
    rw [← start_outputPath hrelative] at hleads
    have hnames : names (outputPath compiler.config template.name) = front ++ rest := by
      rw [outputPath, names_join hrelative, hfront, hname, List.append_assoc]
    have hrest : rest ≠ [] := fun he => names_extension_ne_nil _ (List.append_eq_nil_iff.1 he).2
    obtain ⟨before, last, hparts, hlast⟩ := parts_outputPath compiler.config hrelative
    obtain ⟨hentries, hwritten⟩ := entry_writeDeep hleads hclear hrest hnames hparts hlast
      (.text (Render.template nonce template.name (compiler.loadStylesheet files).1 text).1)
    obtain ⟨hfiles, hresult⟩ := compile_of_source nonce hsource
    refine ⟨fun place => hfiles ▸ (hentries place).imp_right (.imp And.left fun hmade => ?_),
      fun compiled h => ?_⟩
    · obtain ⟨⟨way, hway, hplace⟩, hmade⟩ := hmade
      exact ⟨⟨way, hway.trans (List.dropLast_prefix _), hplace⟩, hmade⟩
    obtain ⟨_, hok, rfl⟩ := map_eq_ok_iff.1 (hresult.symm.trans h)
    exact hfiles ▸ hwritten (mapError_eq_ok_iff.1 hok)

/-- A compilation whose template name stays below the output root, on a way without links, changes
nothing outside of it, but for directories that it makes on the way to the output root. So it keeps
what there is in any directory apart from the output root. The output stands below the output root. -/
theorem compile_changes_below (nonce : Text)
    (hroot : HasOutputRoot compiler.config files base missing)
    (hclear : files.IsClear base (missing ++ names (templateName reference ++ extension)))
    (hbelow : staysBelow 0 (names (templateName reference ++ extension)) = true) :
    let outcome := compiler.compile files nonce reference true
    let root := lexical base missing
    let output := lexical root (names (templateName reference ++ extension))
    (∀ place, outcome.files.entry? place = files.entry? place ∨ root <+: place ∨
      OnWay base missing place ∧ files.entry? place = none ∧
        outcome.files.entry? place = some .directory) ∧
    (∀ apart place entry, ¬ apart <+: root → ¬ root <+: apart → apart <+: place →
      files.entry? place = some entry → outcome.files.entry? place = some entry) ∧
    ∀ compiled, outcome.result = .ok compiled →
      root <+: output ∧ outcome.files.entry? output = some (.file (.text compiled.html)) := by
  intro outcome root output
  have hnames : ∀ part ∈ names (templateName reference ++ extension), part ≠ [] ∧ part ≠ ['.'] :=
    fun part hm => mem_names hm
  have houtput : root <+: output := prefix_lexical hbelow hnames
  obtain ⟨hentries, hwritten⟩ := entry_compile nonce hroot hclear
  rw [lexical_append] at hentries hwritten
  have hplaces : ∀ place, outcome.files.entry? place = files.entry? place ∨ root <+: place ∨
      OnWay base missing place ∧ files.entry? place = none ∧
        outcome.files.entry? place = some .directory := by
    intro place
    rcases hentries place with hkept | rfl | ⟨hway, hmade⟩
    · exact .inl hkept
    · exact .inr (.inl houtput)
    · exact .inr ((prefix_or_onWay hbelow hnames hway).imp_right (⟨·, hmade⟩))
  refine ⟨hplaces, fun apart place entry habove hbelow hplace hentry => ?_,
    fun compiled h => ⟨houtput, hwritten compiled h⟩⟩
  rcases hplaces place with hkept | hin | ⟨-, hnone, -⟩
  · rw [hkept, hentry]
  · -- of two directories above one place, one is above the other
    exact ((List.prefix_or_prefix_of_prefix hplace hin).elim habove hbelow).elim
  · rw [hnone] at hentry
    cases hentry

end

/-- The configuration of a project with the source root `s` and the output root `d`. -/
def mirrored : Config := .ofRoots ['s'] ['d']

def mirroredFiles (inside : List (Location × Entry)) : FileSystem where
  entries := ([['s']], .directory) :: ([['d']], .directory) :: inside
  current := []

theorem hasOutputRoot_mirrored (inside : List (Location × Entry)) :
    HasOutputRoot (ofConfig mirrored).config (mirroredFiles inside) [['d']] [] :=
  ⟨[['d']], by cbv, by cbv⟩

theorem hasParent_break : Layout.hasParent "<br/>".toList = false := by decide +kernel

theorem hasIncludes_break : Layout.hasIncludes "<br/>".toList = false := by decide +kernel

theorem fst_template_break (name : Text) :
    (Render.template "n".toList name none "<br/>".toList).1 = "<br />".toList := by
  have hname : (Render.template "n".toList name none "<br/>".toList).1 =
      (Render.template "n".toList [] none "<br/>".toList).1 := by
    unfold Render.template Render.styles
    dsimp only
    split <;> rfl
  rw [hname]
  decide +kernel

theorem compile_source_break {files : FileSystem} {reference name text : Text} {location : Location}
    (h : source mirrored files reference = .ok (⟨name, location, text⟩, "<br/>".toList)) :
    let written := files.writeDeep (outputPath mirrored name) (.text "<br />".toList)
    let outcome := (ofConfig mirrored).compile files "n".toList reference true
    outcome.files = written.1 ∧
      outcome.result = (written.2.mapError .io).map fun _ => ⟨name, "<br />".toList⟩ := by
  have hsource : source (ofConfig mirrored).config files reference =
      .ok (⟨name, location, text⟩, "<br/>".toList) := h
  have hcompiled := compile_of_source "n".toList hsource
  have hnone : ((ofConfig mirrored).loadStylesheet files).1 = none := rfl
  rwa [hnone, fst_template_break] at hcompiled

theorem compile_break {inside : List (Location × Entry)} {reference name : Text} {location : Location}
    (h : Source.load (mirroredFiles inside) mirrored reference = .ok ⟨name, location, "<br/>".toList⟩) :
    let written :=
      (mirroredFiles inside).writeDeep (outputPath mirrored name) (.text "<br />".toList)
    let outcome := (ofConfig mirrored).compile (mirroredFiles inside) "n".toList reference true
    outcome.files = written.1 ∧
      outcome.result = (written.2.mapError .io).map fun _ => ⟨name, "<br />".toList⟩ :=
  compile_source_break (source_of_load h hasParent_break hasIncludes_break)

/-- A name that leads through a directory, which is made in the output root, and out of it again. -/
theorem compile_changes_below_mirrored :
    let files := mirroredFiles
      [([['s'], ['x']], .directory), ([['s'], "a.njk".toList], .file (.text "<br/>".toList))]
    let outcome := (ofConfig mirrored).compile files "n".toList "x/../a".toList true
    outcome.result = .ok ⟨"x/../a".toList, "<br />".toList⟩ ∧
      outcome.files.entry? [['d'], "a.njk".toList] = some (.file (.text "<br />".toList)) ∧
      outcome.files.entry? [['s'], "a.njk".toList] = some (.file (.text "<br/>".toList)) := by
  intro files outcome
  have hnames : names (templateName "x/../a".toList ++ extension) =
      [['x'], ['.', '.'], "a.njk".toList] := by cbv
  have hclear : files.IsClear [['d']] ([] ++ names (templateName "x/../a".toList ++ extension)) :=
    isClear_of_forall (by simp [files, mirroredFiles]) _ _
  obtain ⟨-, hkept, hwritten⟩ := compile_changes_below "n".toList (hasOutputRoot_mirrored _) hclear
    (by rw [hnames]; decide)
  have hload : Source.load files mirrored "x/../a".toList =
      .ok ⟨"x/../a".toList, [['s'], "a.njk".toList], "<br/>".toList⟩ := by cbv
  have hdone : (files.writeDeep (outputPath mirrored "x/../a".toList) (.text "<br />".toList)).2 =
      .ok () := by cbv
  obtain ⟨-, hresult⟩ := compile_break hload
  rw [hdone] at hresult
  have hplace : lexical (lexical [['d']] []) (names (templateName "x/../a".toList ++ extension)) =
      [['d'], "a.njk".toList] := by
    rw [hnames]
    decide
  refine ⟨hresult, hplace ▸ (hwritten _ hresult).2, ?_⟩
  exact hkept [['s']] _ _ (by decide) (by decide) (by decide) (by cbv)

/-- A name that leads above its beginning and into the source root, and one that passes a link in the
output root to a directory of the source root: the output is written over the template. -/
theorem compile_changes_source :
    let template : Entry := .file (.text "<br/>".toList)
    ∀ project ∈ [([([['s'], "a.njk".toList], template)], "../s/a".toList, [['s'], "a.njk".toList]),
        ([([['s'], ['x']], .directory), ([['s'], ['x'], "a.njk".toList], template),
          ([['d'], ['x']], .link "../s/x".toList)], "x/a".toList, [['s'], ['x'], "a.njk".toList])],
      let files := mirroredFiles project.1
      let outcome := (ofConfig mirrored).compile files "n".toList project.2.1 true
      HasOutputRoot mirrored files [['d']] [] ∧ Source.place files mirrored.sourceRoot = .ok [['s']] ∧
        [['s']] <+: project.2.2 ∧ files.entry? project.2.2 = some template ∧
        outcome.files.entry? project.2.2 = some (.file (.text "<br />".toList)) := by
  intro template project hm
  rcases List.mem_pair.1 hm with rfl | rfl
  · refine ⟨hasOutputRoot_mirrored _, by cbv, by decide, by cbv, ?_⟩
    have hload : Source.load (mirroredFiles [([['s'], "a.njk".toList], template)]) mirrored
        "../s/a".toList = .ok ⟨"../s/a".toList, [['s'], "a.njk".toList], "<br/>".toList⟩ := by cbv
    rw [(compile_break hload).1]
    cbv
  · refine ⟨hasOutputRoot_mirrored _, by cbv, by decide, by cbv, ?_⟩
    have hload : Source.load (mirroredFiles [([['s'], ['x']], .directory),
        ([['s'], ['x'], "a.njk".toList], template), ([['d'], ['x']], .link "../s/x".toList)]) mirrored
        "x/a".toList = .ok ⟨"x/a".toList, [['s'], ['x'], "a.njk".toList], "<br/>".toList⟩ := by cbv
    rw [(compile_break hload).1]
    cbv

end Compiler
end MailTemplate
