import MailTemplate.Proofs.Compile.Loading
import Mathlib

/-! Inheritance ends. Every reference on the way up from a template stands in a file, so while none of
them comes again there are at most as many as there are files. A circle is found when a reference comes
again, provided that it is recorded as the name that it is. -/

namespace MailTemplate
namespace Layout

section
variable (files : FileSystem) (config : Config)

/-- The regular files at or below the source root. -/
def sourceFiles : List Location :=
  match Source.place files config.sourceRoot with
  | .ok root => (files.regularFiles.filter fun location =>
      root.isPrefixOf location && files.isFileAt location).dedup
  | .error _ => []

def parents : List Text :=
  (sourceFiles files config).filterMap fun location =>
    (files.readAt location).toOption.bind parent?

/-- The way up from the template that a reference names: the references that are followed, each of them
in the template reached before, and the template that is reached. -/
inductive Climbs (reference : Text) : List Text → Template → Prop
  | here {template : Template} : Source.load files config reference = .ok template →
      Climbs reference [] template
  | up {way : List Text} {template layout : Template} {parent : Text} :
      Climbs reference way template → parent? template.text = some parent →
        Source.load files config parent = .ok layout → Climbs reference (way ++ [parent]) layout

/-- The way up never ends, neither at a template that inherits from none nor at one that cannot be
loaded. -/
def Endless (reference : Text) : Prop :=
  (∃ template, Source.load files config reference = .ok template) ∧
    ∀ way template, Climbs files config reference way template →
      ∃ parent layout, parent? template.text = some parent ∧
        Source.load files config parent = .ok layout

/-- A reference that comes again on the way up is the name of a template as it stands, like the names that
it is compared with. -/
def RepeatsNames (reference : Text) : Prop :=
  ∀ way template parent, Climbs files config reference way template →
    parent? template.text = some parent → parent ∈ way → templateName parent = parent

/-- Why a resolution ends: a template that inherits from none is reached, a template cannot be loaded, or
a reference names a template on the way again. -/
inductive Ends (reference : Text) : Except CompileError Text → Prop
  | joined {way : List Text} {template : Template} {text : Text} :
      Climbs files config reference way template → parent? template.text = none →
        Ends reference (.ok text)
  | unloaded {cause : CompileError} : Source.load files config reference = .error cause →
      Ends reference (.error cause)
  | missing {way : List Text} {template : Template} {parent : Text} {cause : CompileError} :
      Climbs files config reference way template → parent? template.text = some parent →
        Source.load files config parent = .error cause → Ends reference (.error cause)
  | circle {way : List Text} {template : Template} {parent : Text} :
      Climbs files config reference way template → parent? template.text = some parent →
        parent ∈ (reference :: way).map templateName → Ends reference (.error (.circular parent))

def climbLoading (leaf : Text) (parent : Text) (overrides : List Override) (chain : List Text) :
    Except CompileError Text × List Text :=
  if parent ∈ chain then (.error (.circular parent), [])
  else if _ : config.maxDepth < chain.length then
    (.error (.depthExceeded leaf config.maxDepth), [])
  else match Source.load files config parent with
    | .error e => (.error e, [parent])
    | .ok layout => match parent? layout.text with
      | none => (.ok (assemble layout.text overrides), [parent])
      | some next =>
        let (result, loaded) := climbLoading leaf next (supplement overrides (spans layout.text))
          (chain ++ [layout.name])
        (result, parent :: loaded)
termination_by config.maxDepth + 1 - chain.length
decreasing_by
  simp only [List.length_append, List.length_cons, List.length_nil]
  omega

/-- What `resolve` gives, and the references that it loads. -/
def resolveLoading (reference : Text) : Except CompileError Text × List Text :=
  match Source.load files config reference with
  | .error e => (.error e, [reference])
  | .ok template => match parent? template.text with
    | none => (.ok template.text, [reference])
    | some parent =>
      let (result, loaded) :=
        climbLoading files config template.name parent (bodies template.text) [template.name]
      (result, reference :: loaded)

end

section
variable {files : FileSystem} {config : Config} {reference leaf parent : Text}
  {overrides : List Override} {chain way : List Text} {template layout : Template}

theorem fst_climbLoading : (climbLoading files config leaf parent overrides chain).1 =
    climb files config leaf parent overrides chain := by
  fun_induction climb files config leaf parent overrides chain with
  | case1 parent overrides chain hc => rw [climbLoading, if_pos hc]
  | case2 parent overrides chain hc hd => rw [climbLoading, if_neg hc, dif_pos hd]
  | case3 parent overrides chain hc hd cause hload =>
    rw [climbLoading, if_neg hc, dif_neg hd, hload]
  | case4 parent overrides chain hc hd layout hload hparent =>
    rw [climbLoading, if_neg hc, dif_neg hd, hload]
    simp only [hparent]
  | case5 parent overrides chain hc hd layout hload next hparent ih =>
    rw [climbLoading, if_neg hc, dif_neg hd, hload]
    simp only [hparent]
    exact ih

theorem fst_resolveLoading :
    (resolveLoading files config reference).1 = resolve files config reference := by
  cases hload : Source.load files config reference with
  | error cause =>
    rw [resolveLoading, resolve, hload]
    rfl
  | ok template =>
    rw [resolveLoading, resolve, hload]
    change _ = resolveTemplate files config template
    rw [resolveTemplate]
    dsimp only
    cases hparent : parent? template.text with
    | none => rfl
    | some parent => exact fst_climbLoading

theorem resolveTemplate_eq_fst (hload : Source.load files config reference = .ok template) :
    resolveTemplate files config template = (resolveLoading files config reference).1 := by
  rw [fst_resolveLoading, resolve, hload]
  rfl

section
variable (hload : Source.load files config reference = .ok template)
  (hparent : parent? template.text = some parent) (hne : parent ≠ template.name)
  (hd : 0 < config.maxDepth)
include hload hparent hne hd

/-- A template that inherits from a layout is joined with it, if that inherits from none. -/
theorem resolveLoading_of_parent (hlayout : Source.load files config parent = .ok layout)
    (hend : parent? layout.text = none) : resolveLoading files config reference =
      (.ok (assemble layout.text (bodies template.text)), [reference, parent]) := by
  have hdepth : ¬ config.maxDepth < [template.name].length := Nat.not_lt.2 hd
  rw [resolveLoading, hload]
  simp only [hparent]
  rw [climbLoading, if_neg (by simpa using hne), dif_neg hdepth, hlayout]
  simp only [hend]

theorem resolveLoading_of_missing {cause : CompileError}
    (hlayout : Source.load files config parent = .error cause) :
    resolveLoading files config reference = (.error cause, [reference, parent]) := by
  have hdepth : ¬ config.maxDepth < [template.name].length := Nat.not_lt.2 hd
  rw [resolveLoading, hload]
  simp only [hparent]
  rw [climbLoading, if_neg (by simpa using hne), dif_neg hdepth, hlayout]

end

theorem mem_sourceFiles (h : Source.load files config reference = .ok template) :
    template.location ∈ sourceFiles files config := by
  obtain ⟨-, root, hroot, hwithin, -⟩ := Source.load_eq_ok h
  obtain ⟨-, hbelow, hfile⟩ := Source.within_eq_ok hwithin
  rw [sourceFiles, hroot]
  refine List.mem_dedup.2 (List.mem_filter.2 ⟨FileSystem.mem_regularFiles hfile, ?_⟩)
  rw [hfile, List.isPrefixOf_iff_prefix.2 hbelow]
  rfl

theorem mem_parents (h : Source.load files config reference = .ok template)
    (hp : parent? template.text = some parent) : parent ∈ parents files config := by
  obtain ⟨-, root, -, -, hread⟩ := Source.load_eq_ok h
  refine List.mem_filterMap.2 ⟨template.location, mem_sourceFiles h, ?_⟩
  rw [hread]
  exact hp

theorem Climbs.exists_load (h : Climbs files config reference way template) :
    ∃ last, Source.load files config last = .ok template := by
  cases h with
  | here hload => exact ⟨_, hload⟩
  | up _ _ hload => exact ⟨_, hload⟩

theorem Climbs.mem_parents (h : Climbs files config reference way template)
    (hp : parent? template.text = some parent) : parent ∈ parents files config := by
  obtain ⟨last, hload⟩ := h.exists_load
  exact Layout.mem_parents hload hp

theorem Climbs.subset_parents (h : Climbs files config reference way template) :
    way ⊆ parents files config := by
  induction h with
  | here => exact List.nil_subset _
  | up hbefore hparent _ ih => exact List.append_subset.2 ⟨ih, by simpa using hbefore.mem_parents hparent⟩

theorem length_le_of_subset_parents (hn : way.Nodup) (hw : way ⊆ parents files config) :
    way.length ≤ (sourceFiles files config).length :=
  (hn.subperm hw).length_le.trans (List.length_filterMap_le _ _)

theorem Climbs.nodup_concat (hk : RepeatsNames files config reference)
    (hway : Climbs files config reference way template) (hp : parent? template.text = some parent)
    (hn : way.Nodup) (hc : parent ∉ (reference :: way).map templateName) :
    (way ++ [parent]).Nodup ∧ way.length + 1 ≤ (sourceFiles files config).length := by
  have hfresh : parent ∉ way := by
    intro hm
    refine hc (List.mem_map.2 ⟨parent, List.mem_cons_of_mem _ hm, ?_⟩)
    exact hk way template parent hway hp hm
  have hnodup : (way ++ [parent]).Nodup := List.nodup_append_comm.1 (List.nodup_cons.2 ⟨hfresh, hn⟩)
  have hsubset : way ++ [parent] ⊆ parents files config :=
    List.append_subset.2 ⟨hway.subset_parents, by simpa using hway.mem_parents hp⟩
  have hfew := length_le_of_subset_parents hnodup hsubset
  rw [List.length_append, List.length_singleton] at hfew
  exact ⟨hnodup, hfew⟩

/-- From a template on the way, with no reference twice so far, no more references are loaded than there
are files left to hold them, and the greatest depth is not reached. -/
theorem climbLoading_ends (hd : (sourceFiles files config).length < config.maxDepth)
    (hk : RepeatsNames files config reference)
    (hway : Climbs files config reference way template) (hp : parent? template.text = some parent)
    (hn : way.Nodup) (hc : chain = (reference :: way).map templateName) :
    let run := climbLoading files config leaf parent overrides chain
    way.length + run.2.length ≤ (sourceFiles files config).length ∧
      Ends files config reference run.1 := by
  fun_induction climbLoading files config leaf parent overrides chain generalizing way template with
  | case1 parent overrides chain hcircle =>
    exact ⟨length_le_of_subset_parents hn hway.subset_parents, .circle hway hp (hc ▸ hcircle)⟩
  | case2 parent overrides chain hcircle hdepth =>
    have hfew := length_le_of_subset_parents hn hway.subset_parents
    rw [hc, List.length_map, List.length_cons] at hdepth
    omega
  | case3 parent overrides chain hcircle hdepth cause hload =>
    obtain ⟨-, hfew⟩ := hway.nodup_concat hk hp hn (hc ▸ hcircle)
    exact ⟨hfew, .missing hway hp hload⟩
  | case4 parent overrides chain hcircle hdepth layout hload hnone =>
    obtain ⟨-, hfew⟩ := hway.nodup_concat hk hp hn (hc ▸ hcircle)
    exact ⟨hfew, .joined (.up hway hp hload) hnone⟩
  | case5 parent overrides chain hcircle hdepth layout hload next hnext result loaded hrun ih =>
    obtain ⟨hnodup, -⟩ := hway.nodup_concat hk hp hn (hc ▸ hcircle)
    have hchain : chain ++ [layout.name] = (reference :: (way ++ [parent])).map templateName := by
      rw [hc, (Source.load_eq_ok hload).1]
      simp
    have hrest := ih (.up hway hp hload) hnext hnodup hchain
    rw [hrun, List.length_append, List.length_singleton] at hrest
    obtain ⟨hfew, hends⟩ := hrest
    refine ⟨?_, hends⟩
    rwa [Nat.add_right_comm] at hfew

theorem Ends.ne_depthExceeded {result : Except CompileError Text}
    (h : Ends files config reference result) (name : Text) (max : Nat) :
    result ≠ .error (.depthExceeded name max) := by
  rintro rfl
  cases h with
  | unloaded hload => exact Source.isOfFile_load hload
  | missing _ _ hload => exact Source.isOfFile_load hload

theorem Ends.circular_of_endless {result : Except CompileError Text}
    (h : Ends files config reference result) (he : Endless files config reference) :
    ∃ name, result = .error (.circular name) := by
  obtain ⟨⟨first, hfirst⟩, hnext⟩ := he
  cases h with
  | joined hway hnone =>
    obtain ⟨parent, layout, hparent, -⟩ := hnext _ _ hway
    rw [hnone] at hparent
    cases hparent
  | unloaded hload =>
    rw [hfirst] at hload
    cases hload
  | missing hway hp hload =>
    obtain ⟨parent, layout, hparent, hlayout⟩ := hnext _ _ hway
    rw [hp] at hparent
    obtain rfl := Option.some.inj hparent
    rw [hload] at hlayout
    cases hlayout
  | circle => exact ⟨_, rfl⟩

theorem repeatsNames_of_parents (h : ∀ parent ∈ parents files config, templateName parent = parent) :
    RepeatsNames files config reference :=
  fun _ _ parent hway hp _ => h parent (hway.mem_parents hp)

theorem endless_of_closed {templates : List Template}
    (hload : Source.load files config reference = .ok template) (hm : template ∈ templates)
    (h : ∀ template ∈ templates, ∃ parent layout, parent? template.text = some parent ∧
      Source.load files config parent = .ok layout ∧ layout ∈ templates) :
    Endless files config reference := by
  have hstays : ∀ way reached, Climbs files config reference way reached → reached ∈ templates := by
    intro way reached hway
    induction hway with
    | here hfirst =>
      rw [hload] at hfirst
      exact Except.ok.inj hfirst ▸ hm
    | up _ hparent hlayout ih =>
      obtain ⟨parent, layout, hp, hl, hin⟩ := h _ ih
      rw [hparent] at hp
      obtain rfl := Option.some.inj hp
      rw [hlayout] at hl
      exact Except.ok.inj hl ▸ hin
  refine ⟨⟨template, hload⟩, fun way reached hway => ?_⟩
  obtain ⟨parent, layout, hp, hl, -⟩ := h reached (hstays way reached hway)
  exact ⟨parent, layout, hp, hl⟩

/-- With fewer files than the greatest depth, a resolution loads at most one template more than there
are files, and ends where a layout inherits from none, cannot be loaded or comes again. It finds every
circle, as long as the references that come again are names. -/
theorem resolve_ends {files : FileSystem} {config : Config} {reference : Text}
    (hd : (sourceFiles files config).length < config.maxDepth)
    (hk : RepeatsNames files config reference) :
    let resolved := resolve files config reference
    let run := resolveLoading files config reference
    run.1 = resolved ∧ run.2.length ≤ (sourceFiles files config).length + 1 ∧
      Ends files config reference resolved ∧
        (∀ name max, resolved ≠ .error (.depthExceeded name max)) ∧
          (Endless files config reference → ∃ name, resolved = .error (.circular name)) := by
  intro resolved run
  have hrun : run.2.length ≤ (sourceFiles files config).length + 1 ∧
      Ends files config reference run.1 := by
    simp only [run, resolveLoading]
    split
    · next cause hload => exact ⟨Nat.le_add_left _ _, .unloaded hload⟩
    · next template hload =>
      split
      · next hnone => exact ⟨Nat.le_add_left _ _, .joined (.here hload) hnone⟩
      · next parent hparent =>
        have hchain : [template.name] = [reference].map templateName := by
          rw [(Source.load_eq_ok hload).1]
          rfl
        obtain ⟨hfew, hends⟩ := climbLoading_ends hd hk (.here hload) hparent List.nodup_nil hchain
        exact ⟨Nat.succ_le_succ ((Nat.zero_add _).symm.trans_le hfew), hends⟩
  have hsame : run.1 = resolved := fst_resolveLoading
  obtain ⟨hfew, hends⟩ := hrun
  rw [hsame] at hends
  exact ⟨hsame, hfew, hends, hends.ne_depthExceeded, hends.circular_of_endless⟩

/-- A source root of templates, each of which inherits from the layout of its reference. -/
def inheriting (references : List (Text × Text)) : FileSystem where
  entries := ([['s']], .directory) :: references.map fun (name, reference) =>
    ([['s'], name ++ extension],
      .file (.text ("\x7b% extends '".toList ++ reference ++ "' %\x7d".toList)))
  current := []

def inheritingTemplate (name reference : Text) : Template :=
  ⟨name, [['s'], name ++ extension], "\x7b% extends '".toList ++ reference ++ "' %\x7d".toList⟩

theorem resolve_ends_circle :
    let files := inheriting [(['a'], ['b']), (['b'], ['a'])]
    let config := Config.ofRoots ['s'] ['d']
    (sourceFiles files config).length = 2 ∧ Endless files config ['a'] ∧
      (∃ name, resolve files config ['a'] = .error (.circular name)) ∧
        (resolveLoading files config ['a']).2.length ≤ 3 := by
  intro files config
  let first := inheritingTemplate ['a'] ['b']
  let second := inheritingTemplate ['b'] ['a']
  have hfiles : sourceFiles files config = [first.location, second.location] := by cbv
  have hparents : parents files config = [['b'], ['a']] := by
    rw [parents, hfiles]
    decide +kernel
  have ha : Source.load files config ['a'] = .ok first := by cbv
  have hb : Source.load files config ['b'] = .ok second := by cbv
  have hendless : Endless files config ['a'] := by
    have hboth : first ∈ [first, second] ∧ second ∈ [first, second] := by simp
    refine endless_of_closed ha hboth.1 fun template hm => ?_
    rcases List.mem_pair.1 hm with rfl | rfl
    · exact ⟨['b'], second, by decide +kernel, hb, hboth.2⟩
    · exact ⟨['a'], first, by decide +kernel, ha, hboth.1⟩
  have hlength : (sourceFiles files config).length = 2 := congrArg List.length hfiles
  have hdepth : (sourceFiles files config).length < config.maxDepth := by
    rw [hlength]
    decide
  have hnames : RepeatsNames files config ['a'] := repeatsNames_of_parents (by rw [hparents]; decide)
  obtain ⟨-, hfew, -, -, hcircular⟩ := resolve_ends hdepth hnames
  rw [hlength] at hfew
  exact ⟨hlength, hendless, hcircular hendless, hfew⟩

/-- A template that inherits from itself by a reference that is not its name is looked for under a name
that is never recorded. -/
theorem climb_renamed {files : FileSystem} {config : Config} {leaf parent : Text}
    {overrides : List Override} {chain : List Text} {layout : Template}
    (hload : Source.load files config parent = .ok layout) (hp : parent? layout.text = some parent)
    (hne : parent ≠ layout.name) (hc : parent ∉ chain) :
    climb files config leaf parent overrides chain =
      .error (.depthExceeded leaf config.maxDepth) := by
  induction hm : config.maxDepth + 1 - chain.length generalizing overrides chain with
  | zero =>
    have hdepth : config.maxDepth < chain.length := by omega
    rw [climb, if_neg hc, dif_pos hdepth]
  | succ more ih =>
    have hdepth : ¬ config.maxDepth < chain.length := by omega
    rw [climb, if_neg hc, dif_neg hdepth, hload]
    simp only [hp]
    refine ih ?_ ?_
    · simp [hc, hne]
    · rw [List.length_append, List.length_singleton]
      omega

theorem resolve_renamed :
    let files := inheriting [(['a'], "a.njk.njk".toList)]
    let config := Config.ofRoots ['s'] ['d']
    (sourceFiles files config).length = 1 ∧ 1 < config.maxDepth ∧ Endless files config ['a'] ∧
      resolve files config ['a'] = .error (.depthExceeded ['a'] config.maxDepth) := by
  intro files config
  let only := inheritingTemplate ['a'] "a.njk.njk".toList
  have hfiles : sourceFiles files config = [only.location] := by cbv
  have hfirst : Source.load files config ['a'] = .ok only := by cbv
  have hload : Source.load files config "a.njk".toList = .ok only := by cbv
  have hp : parent? only.text = some "a.njk".toList := by decide +kernel
  refine ⟨congrArg List.length hfiles, by decide, ?_, ?_⟩
  · refine endless_of_closed hfirst (List.mem_singleton_self only) fun template hm => ?_
    obtain rfl := List.mem_singleton.1 hm
    exact ⟨_, _, hp, hload, List.mem_singleton_self _⟩
  · rw [resolve, hfirst]
    change resolveTemplate files config only = _
    rw [resolveTemplate, hp]
    exact climb_renamed hload hp (by decide) (by decide)

end
end Layout

namespace Compiler

section
variable {files : FileSystem} {config : Config} {reference parent text : Text}
  {template layout : Template}
  (hload : Source.load files config reference = .ok template)
  (hparent : Layout.parent? template.text = some parent) (hne : parent ≠ template.name)
  (hd : 0 < config.maxDepth)
include hload hparent hne hd

/-- The source of a template that inherits from a layout, with no file to splice in. -/
theorem source_of_parent (hlayout : Source.load files config parent = .ok layout)
    (hend : Layout.parent? layout.text = none)
    (hjoined : Layout.assemble layout.text (Layout.bodies template.text) = text)
    (hi : Layout.hasIncludes text = false) : source config files reference = .ok (template, text) := by
  refine source_of_resolveTemplate hload ((Layout.resolveTemplate_eq_fst hload).trans ?_) hi
  rw [Layout.resolveLoading_of_parent hload hparent hne hd hlayout hend, hjoined]

theorem source_of_missing {cause : CompileError}
    (hlayout : Source.load files config parent = .error cause) :
    source config files reference = .error cause := by
  refine source_of_error hload ((Layout.resolveTemplate_eq_fst hload).trans ?_)
  rw [Layout.resolveLoading_of_missing hload hparent hne hd hlayout]

end

end Compiler
end MailTemplate
