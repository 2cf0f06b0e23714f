import MailTemplate.Proofs.Compile.Discovery

/-! Projects whose outputs do not touch their sources, and what the files are like while outputs are
written. No output is looked for, none stands on the way to another one, and the stylesheet is read before
anything is written. So the next template comes out as if it were the first. -/

namespace MailTemplate
open MailTemplate.Path

namespace FileSystem

section
variable {files later : FileSystem} {fresh : Location → Prop} {root base place : Location}
  {missing own : List Text} {path : Text}

/-- Files below the root that stay as they are answer as before for what does not lead to where
something appears. -/
theorem Changed.sameAnswer (h : Changed fresh files later) (ha : files.Avoids fresh path)
    (hkept : ∀ location contents, root <+: location →
      files.entry? location = some (.file contents) → later.entry? location = some (.file contents)) :
    Source.SameAnswer root files later path where
  pathExists := h.pathExists ha
  within := by
    have hplace : Source.place later path = Source.place files path := by
      rw [Source.place, Source.place, h.follow ha]
    unfold Source.within
    rw [hplace]
    refine bind_congr_of_ok fun location hlocation => ?_
    rw [h.isFileAt (h.not_fresh_of_follow ha (Source.place_eq_ok_iff.1 hlocation))]
  read location hwithin := by
    obtain ⟨-, hr, hfile⟩ := Source.within_eq_ok hwithin
    obtain ⟨contents, he⟩ := isFileAt_iff.1 hfile
    rw [Source.read, Source.read, readAt, readAt, he, hkept location contents hr he]

/-- On a way that goes on by names, every place is on the way before or told by the names. -/
theorem onWay_append (hown : ∀ part ∈ own, IsName part) (h : OnWay base (missing ++ own) place) :
    OnWay base missing place ∨ ∃ inside, inside <+: own ∧ place = lexical base missing ++ inside := by
  obtain ⟨front, hfront, rfl⟩ := h
  rcases List.prefix_or_prefix_of_prefix hfront (List.prefix_append missing own) with hm | ⟨inside, rfl⟩
  · exact .inl ⟨front, hm, rfl⟩
  · rw [List.prefix_append_right_inj] at hfront
    refine .inr ⟨inside, hfront, ?_⟩
    rw [lexical_append, lexical_of_isName fun part hp => hown part (hfront.subset hp)]

end
end FileSystem

namespace Compiler
open FileSystem

section
variable {compiler worker : Compiler} {files now : FileSystem} {config : Config}
  {root base place : Location} {missing : List Text} {found outputs : List Text}
  {name nonce : Text}

/-- The places at which something may appear: in the output tree, and on the way to it. -/
def MayAppear (files : FileSystem) (base : Location) (missing : List Text) (place : Location) : Prop :=
  files.entry? place = none ∧ (lexical base missing <+: place ∨ OnWay base missing place)

/-- The output tree has no links and is apart from the source root, every name means itself as a
reference, and no reference of a template breaks off in the output tree or on the way to it. -/
structure IsSeparate (config : Config) (files : FileSystem) (root base : Location)
    (missing : List Text) (found : List Text) : Prop where
  tree : files.IsTree
  source : Source.place files config.sourceRoot = .ok root
  output : HasOutputRoot config files base missing
  clear : files.IsClear base missing
  links : files.HasNoLinks (lexical base missing)
  above : ¬ root <+: lexical base missing
  below : ¬ lexical base missing <+: root
  kept : ∀ name ∈ found, templateName name = name
  lookups : ∀ name ∈ found, ∀ path, LooksFor config files root name path →
    ∀ gap, files.BreaksAt (files.start path) (Path.parts path) gap → ¬ MayAppear files base missing gap

theorem loadStylesheet_again (compiler : Compiler) (files other : FileSystem) :
    ((compiler.loadStylesheet files).2.loadStylesheet other).1 = (compiler.loadStylesheet files).1 := by
  cases hpath : compiler.config.stylesheetPath with
  | none => simp only [loadStylesheet, hpath]
  | some path => simp only [loadStylesheet, hpath, Option.getD_some]

/-- The names of an output below the output root. -/
def own (name : Text) : List Text := names (name ++ extension)

structure AreApart (found : List Text) : Prop where
  candidate : ∀ name ∈ found, Discover.Candidate name (own name)
  apart : ∀ name ∈ found, ∀ other ∈ found, name ≠ other → Discover.Apart (own name) (own other)

/-- What has become of the files once some outputs have been written: they stand in the output tree, and
directories on the way to outputs. The stylesheet is the one that was to be read at first. -/
structure Progress (compiler : Compiler) (files : FileSystem) (base : Location)
    (missing found outputs : List Text) (worker : Compiler) (now : FileSystem) : Prop where
  config : worker.config = compiler.config
  stylesheet : (worker.loadStylesheet now).1 = (compiler.loadStylesheet files).1
  current : now.current = files.current
  rooted : now.IsRooted
  subset : outputs ⊆ found
  entries : ∀ place, now.entry? place = files.entry? place ∨
    (∃ name ∈ outputs, place = lexical base missing ++ own name ∧ now.isFileAt place = true ∧
      files.IsWritable (outputPath compiler.config name) base (missing ++ own name)) ∨
    ∃ name ∈ found, OnWay base (missing ++ own name).dropLast place ∧ files.entry? place = none ∧
      now.entry? place = some .directory

section
variable (owns : AreApart found)
include owns

theorem AreApart.isName (hm : name ∈ found) : ∀ part ∈ own name, IsName part :=
  fun part hp => ((owns.candidate name hm).proper part hp).1

theorem AreApart.ne_nil (hm : name ∈ found) : own name ≠ [] := (owns.candidate name hm).ne_nil

theorem AreApart.lexical (hm : name ∈ found) :
    Path.lexical base (missing ++ own name) = Path.lexical base missing ++ own name := by
  rw [lexical_append, lexical_of_isName (owns.isName hm)]

/-- On the way to an output there is the way to the output root, and places in it. -/
theorem AreApart.onWay (hm : name ∈ found) (h : OnWay base (missing ++ own name).dropLast place) :
    OnWay base missing place ∨
      ∃ inside, inside <+: own name ∧ inside ≠ own name ∧ place = Path.lexical base missing ++ inside := by
  rw [List.dropLast_append_of_ne_nil (owns.ne_nil hm)] at h
  refine (onWay_append (fun part hp => owns.isName hm part (List.dropLast_subset _ hp)) h).imp_right ?_
  rintro ⟨inside, hinside, rfl⟩
  refine ⟨inside, hinside.trans (List.dropLast_prefix _), ?_, rfl⟩
  rintro rfl
  have hlength := hinside.length_le
  have hpos := List.length_pos_iff.2 (owns.ne_nil hm)
  rw [List.length_dropLast] at hlength
  omega

theorem AreApart.onWay_of_missing (hm : name ∈ found) (h : OnWay base missing place) :
    OnWay base (missing ++ own name).dropLast place := by
  obtain ⟨front, hfront, hplace⟩ := h
  rw [List.dropLast_append_of_ne_nil (owns.ne_nil hm)]
  exact ⟨front, hfront.trans (List.prefix_append _ _), hplace⟩

end

/-- A way without links leads to the place of an output, in a file system where every directory stands in
one. -/
structure HasWay (config : Config) (files : FileSystem) (base : Location) (missing : List Text)
    (name : Text) : Prop where
  output : HasOutputRoot config files base missing
  clear : files.IsClear base (missing ++ own name)
  rooted : files.IsRooted
  there : files.entry? base ≠ none
  relative : isAbsolute (name ++ extension) = false

namespace HasWay

variable {contents : Contents} (way : HasWay config files base missing name)
include way

theorem exists_front : ∃ front before last,
    files.walk .find maxLinks (files.start (outputPath config name)) front = .ok base ∧
      Path.names (outputPath config name) = front ++ (missing ++ own name) ∧
        Path.parts (outputPath config name) = before ++ [last] ∧ IsName last := by
  obtain ⟨front, hfront, hwalk⟩ := way.output
  obtain ⟨before, last, hparts, hlast⟩ := parts_outputPath config way.relative
  refine ⟨front, before, last, ?_, ?_, hparts, hlast⟩
  · rw [start_outputPath way.relative, hwalk]
  · rw [outputPath, names_join way.relative, hfront, List.append_assoc, own]

omit way in
theorem append_own_ne_nil (missing : List Text) (name : Text) : missing ++ own name ≠ [] :=
  fun he => names_extension_ne_nil name (List.append_eq_nil_iff.1 he).2

theorem writeDeep_iff : (files.writeDeep (outputPath config name) contents).2 = .ok () ↔
    files.IsWritable (outputPath config name) base (missing ++ own name) := by
  obtain ⟨front, before, last, hwalk, hnames, hparts, hlast⟩ := way.exists_front
  have hne := append_own_ne_nil missing name
  exact ⟨isWritable_of_writeDeep hwalk way.clear hne hnames hparts hlast,
    writeDeep_of_isWritable hwalk way.clear hne hnames hparts hlast way.rooted way.there⟩

theorem entry_writeDeep (contents : Contents) :
    let written := files.writeDeep (outputPath config name) contents
    let output := lexical base (missing ++ own name)
    (∀ place, entry? written.1 place = files.entry? place ∨ place = output ∧ written.2 = .ok () ∨
      OnWay base (missing ++ own name).dropLast place ∧ files.entry? place = none ∧
        entry? written.1 place = some .directory) ∧
      (written.2 = .ok () → entry? written.1 output = some (.file contents)) := by
  obtain ⟨front, before, last, hwalk, hnames, hparts, hlast⟩ := way.exists_front
  exact FileSystem.entry_writeDeep (leads_of_walk (by decide) hwalk) way.clear
    (append_own_ne_nil missing name) hnames hparts hlast contents

theorem current_writeDeep (contents : Contents) :
    (files.writeDeep (outputPath config name) contents).1.current = files.current := by
  obtain ⟨front, _, _, hwalk, hnames, -, -⟩ := way.exists_front
  exact FileSystem.current_writeDeep (leads_of_walk (by decide) hwalk) way.clear
    (append_own_ne_nil missing name) hnames contents

end HasWay

theorem IsSeparate.isClear (sep : IsSeparate config files root base missing found)
    (owns : AreApart found) (hm : name ∈ found) : files.IsClear base (missing ++ own name) := by
  intro front hfront target
  rcases onWay_append (owns.isName hm) ⟨front, hfront, rfl⟩ with ⟨way, hway, hplace⟩ | ⟨inside, -, hplace⟩
  · rw [← hplace]
    exact sep.clear way hway target
  · rw [hplace]
    exact sep.links _ target (List.prefix_append _ _)

theorem IsSeparate.hasWay (sep : IsSeparate config files root base missing found)
    (owns : AreApart found) (hm : name ∈ found) : HasWay config files base missing name where
  output := sep.output
  clear := sep.isClear owns hm
  rooted _ hd := sep.tree.isDirectoryAt_dropLast hd
  there := by
    obtain ⟨front, -, hwalk⟩ := sep.output
    exact sep.tree.entry?_of_leads (sep.tree.entry?_start _) (leads_of_walk (by decide) hwalk)
  relative := (owns.candidate name hm).isAbsolute_eq_false

namespace Progress

variable (p : Progress compiler files base missing found outputs worker now)
include p

theorem mono {more : List Text} (h : outputs ⊆ more) (hf : more ⊆ found) :
    Progress compiler files base missing found more worker now :=
  { p with
    subset := hf
    entries := fun place => (p.entries place).imp_right (.imp_left fun ⟨name, hm, hplace⟩ =>
      ⟨name, h hm, hplace⟩) }

theorem link {target : Text} (h : now.entry? place = some (.link target)) :
    files.entry? place = some (.link target) := by
  rcases p.entries place with he | ⟨_, -, -, hfile, -⟩ | ⟨_, -, -, -, hdirectory⟩
  · exact he.symm.trans h
  · obtain ⟨contents, hc⟩ := isFileAt_iff.1 hfile
    cases h.symm.trans hc
  · cases h.symm.trans hdirectory

section
variable (owns : AreApart found) (hm : name ∈ found) (hd : name ∉ outputs)
include owns hm hd

/-- On the way to an output that was not written yet there are more directories at most. -/
theorem entry_onWay (hon : OnWay base (missing ++ own name).dropLast place) :
    now.entry? place = files.entry? place ∨
      files.entry? place = none ∧ now.entry? place = some .directory := by
  rcases p.entries place with hs | ⟨other, ho, rfl, -, hw⟩ | ⟨_, -, -, hmade⟩
  · exact .inl hs
  · have hother := p.subset ho
    rcases owns.onWay hm hon with hmissing | ⟨inside, hinside, -, hplace⟩
    · have happears := hw.apart
      rw [owns.lexical hother] at happears
      exact absurd (owns.onWay_of_missing hother hmissing) happears
    · rw [← List.append_cancel_left hplace] at hinside
      have hne : other ≠ name := fun he => hd (he ▸ ho)
      exact absurd hinside (owns.apart other hother name hm hne).1
  · exact .inr hmade

/-- At the place of such an output nothing has changed, unless it is on the way to the output root. -/
theorem entry_own : now.entry? (lexical base missing ++ own name) =
      files.entry? (lexical base missing ++ own name) ∨
    OnWay base missing (lexical base missing ++ own name) ∧
      files.entry? (lexical base missing ++ own name) = none ∧
        now.entry? (lexical base missing ++ own name) = some .directory := by
  rcases p.entries (lexical base missing ++ own name) with hs | ⟨other, ho, hplace, -, -⟩ |
    ⟨other, ho, hon, hmade⟩
  · exact .inl hs
  · have hne : other ≠ name := fun he => hd (he ▸ ho)
    have hsame : own other <+: own name := List.append_cancel_left hplace ▸ List.prefix_rfl
    exact absurd hsame (owns.apart other (p.subset ho) name hm hne).1
  · rcases owns.onWay ho hon with hmissing | ⟨inside, hinside, hend, hplace⟩
    · exact .inr ⟨hmissing, hmade⟩
    · rw [← List.append_cancel_left hplace] at hinside hend
      by_cases hne : other = name
      · exact absurd (hne ▸ rfl) hend
      · exact absurd hinside (owns.apart other ho name hm hne).2

theorem isWritable_iff {path : Text} : now.IsWritable path base (missing ++ own name) ↔
    files.IsWritable path base (missing ++ own name) := by
  constructor
  · intro h
    refine ⟨h.fits, h.short, fun place hon => ?_, h.apart, ?_⟩
    · rcases p.entry_onWay owns hm hd hon with hs | ⟨hnone, -⟩
      · rw [FileSystem.isDirectoryAt, ← hs]
        exact h.passable place hon
      · exact .inl hnone
    · have hfree := h.free
      rw [owns.lexical hm] at hfree ⊢
      rcases p.entry_own owns hm hd with hs | ⟨-, hnone, -⟩
      · rwa [FileSystem.isDirectoryAt, ← hs]
      · rw [FileSystem.isDirectoryAt, hnone]
        rfl
  · intro h
    refine ⟨h.fits, h.short, fun place hon => ?_, h.apart, ?_⟩
    · rcases p.entry_onWay owns hm hd hon with hs | ⟨-, hmade⟩
      · rw [FileSystem.isDirectoryAt, hs]
        exact h.passable place hon
      · exact .inr (by rw [FileSystem.isDirectoryAt, hmade]; rfl)
    · have hfree := h.free
      have happears := h.apart
      rw [owns.lexical hm] at hfree happears ⊢
      rcases p.entry_own owns hm hd with hs | ⟨hmissing, -⟩
      · rwa [FileSystem.isDirectoryAt, hs]
      · exact absurd (owns.onWay_of_missing hm hmissing) happears

end

variable (sep : IsSeparate compiler.config files root base missing found)
include sep

theorem kept {entry : Entry} (hr : root <+: place) (he : files.entry? place = some entry) :
    now.entry? place = some entry := by
  rcases p.entries place with hs | ⟨name, -, rfl, -, -⟩ | ⟨_, -, -, hnone, -⟩
  · rw [hs, he]
  · rcases List.prefix_or_prefix_of_prefix hr (List.prefix_append (lexical base missing) (own name))
      with habove | hbelow
    · exact absurd habove sep.above
    · exact absurd hbelow sep.below
  · cases hnone.symm.trans he

variable (owns : AreApart found)
include owns

theorem changed : Changed (MayAppear files base missing) files now where
  current := p.current
  missing _ := And.left
  above place hd hfresh := by
    have habove := sep.tree.isDirectoryAt_dropLast hd
    rw [FileSystem.isDirectoryAt, hfresh.1] at habove
    cases habove
  entries place := by
    rcases p.entries place with he | ⟨name, hm, rfl, hfile, hw⟩ | ⟨name, hm, hon, hnone, -⟩
    · exact .inl he
    · have hfree := hw.free
      rw [owns.lexical (p.subset hm)] at hfree
      cases hentry : files.entry? (lexical base missing ++ own name) with
      | none => exact .inr (.inr ⟨hentry, .inl (List.prefix_append _ _)⟩)
      | some entry =>
        cases entry with
        | directory =>
          rw [FileSystem.isDirectoryAt, hentry] at hfree
          cases hfree
        | link target => exact absurd hentry (sep.links _ _ (List.prefix_append _ _))
        | file contents => exact .inr (.inl ⟨isFileAt_iff.2 ⟨contents, hentry⟩, hfile⟩)
    · refine .inr (.inr ⟨hnone, ?_⟩)
      rcases owns.onWay hm hon with hway | ⟨inside, -, -, rfl⟩
      · exact .inr hway
      · exact .inl (List.prefix_append _ _)

theorem source_eq (hm : name ∈ found) :
    source compiler.config now name = source compiler.config files name := by
  have hchanged := p.changed sep owns
  have hstart : ∀ path, ¬ MayAppear files base missing (files.start path) :=
    fun path hfresh => sep.tree.entry?_start path hfresh.1
  have hroot : Source.place now compiler.config.sourceRoot =
      Source.place files compiler.config.sourceRoot := by
    have hfollow := Source.place_eq_ok_iff.1 sep.source
    rw [Source.place, Source.place, hchanged.follow (avoids_of_follow (hstart _) hfollow)]
  refine source_congr hroot fun found hfound path hlooks => ?_
  cases sep.source.symm.trans hfound
  exact hchanged.sameAnswer ⟨hstart path, sep.lookups name hm path hlooks⟩
    fun location contents hr he => p.kept sep hr he

theorem hasWay (hm : name ∈ found) : HasWay compiler.config now base missing name := by
  have hchanged := p.changed sep owns
  obtain ⟨front, hfront, hwalk⟩ := sep.output
  refine ⟨⟨front, hfront, hchanged.walk_of_ok (fun h => sep.tree.entry?_start _ h.1) hwalk⟩,
    fun way hway target h => sep.isClear owns hm way hway target (p.link h), p.rooted, ?_,
    (owns.candidate name hm).isAbsolute_eq_false⟩
  have hbase := (sep.hasWay owns hm).there
  exact fun h => hbase ((hchanged.eq_none_iff fun hf => hbase hf.1).1 h)

section
variable (hm : name ∈ found) (hd : name ∉ outputs)
include hm hd

theorem writeDeep {contents : Contents} {more : List Text} (hmore : outputs ⊆ more) (hsub : more ⊆ found)
    (hname : (now.writeDeep (outputPath compiler.config name) contents).2 = .ok () → name ∈ more) :
    Progress compiler files base missing found more (worker.loadStylesheet now).2
      (now.writeDeep (outputPath compiler.config name) contents).1 := by
  have way := p.hasWay sep owns hm
  obtain ⟨hentries, hwritten⟩ := way.entry_writeDeep contents
  rw [owns.lexical hm] at hentries hwritten
  refine ⟨config_loadStylesheet.trans p.config, ?_, (way.current_writeDeep contents).trans p.current,
    p.rooted.writeDeep _ _, hsub, fun place => ?_⟩
  · rw [loadStylesheet_again, p.stylesheet]
  rcases hentries place with hs | ⟨rfl, hok⟩ | ⟨hon, hnone, hmade⟩
  · rw [FileSystem.isFileAt, hs]
    refine (p.entries place).imp_right (.imp_left ?_)
    rintro ⟨other, ho, hplace, hfile, hw⟩
    exact ⟨other, hmore ho, hplace, hfile, hw⟩
  · refine .inr (.inl ⟨name, hname hok, rfl, isFileAt_iff.2 ⟨contents, hwritten hok⟩, ?_⟩)
    exact (p.isWritable_iff owns hm hd).1 (way.writeDeep_iff.1 hok)
  · refine .inr (.inr ⟨name, hm, hon, ?_, hmade⟩)
    rcases p.entries place with hs | ⟨_, -, -, hfile, -⟩ | ⟨_, -, -, hnone, -⟩
    · exact hs.symm.trans hnone
    · obtain ⟨found, hfound⟩ := isFileAt_iff.1 hfile
      cases hfound.symm.trans hnone
    · exact hnone

omit hd in
theorem entry_writeDeep {other : Text} {held contents : Contents} (ho : other ∈ found)
    (hne : other ≠ name) (h : now.entry? (lexical base missing ++ own other) = some (.file held)) :
    entry? (now.writeDeep (outputPath compiler.config name) contents).1
      (lexical base missing ++ own other) = some (.file held) := by
  obtain ⟨hentries, -⟩ := (p.hasWay sep owns hm).entry_writeDeep contents
  rcases hentries (lexical base missing ++ own other) with hs | ⟨hplace, -⟩ | ⟨-, hnone, -⟩
  · exact hs.trans h
  · rw [owns.lexical hm] at hplace
    have hsame : own other <+: own name := List.append_cancel_left hplace ▸ List.prefix_rfl
    exact absurd hsame (owns.apart other ho name hm hne).1
  · cases h.symm.trans hnone

omit hd in
/-- The next template fails as it would at first, or gives what it would give, to be written. -/
theorem compile_cases (nonce : Text) :
    let outcome := worker.compile now nonce name true
    let alone := (compiler.compile files nonce name false).result
    (∃ cause, alone = .error cause ∧ outcome = ⟨.error cause, worker, now, []⟩) ∨
      ∃ compiled, alone = .ok compiled ∧
        let written := now.writeDeep (outputPath compiler.config name) (.text compiled.html)
        outcome.result = (written.2.mapError .io).map (fun _ => compiled) ∧
          outcome.files = written.1 ∧ outcome.compiler = (worker.loadStylesheet now).2 := by
  have hsame := p.source_eq sep owns hm
  cases hsource : source compiler.config files name with
  | error cause =>
    rw [← p.config] at hsame
    refine .inl ⟨cause, ?_, ?_⟩
    · rw [compile, hsource]
    · rw [Compiler.compile, hsame, p.config, hsource]
  | ok source =>
    obtain ⟨template, text⟩ := source
    obtain ⟨_, hload, -⟩ := source_eq_ok hsource
    have hname : template.name = name := (Source.load_eq_ok hload).1.trans (sep.kept name hm)
    have hnow : Compiler.source worker.config now name = .ok (template, text) := by
      rw [p.config, hsame, hsource]
    obtain ⟨hfiles, hresult⟩ := compile_of_source nonce hnow
    obtain ⟨halone, -⟩ := compile_unwritten nonce hsource
    rw [p.stylesheet, p.config, hname] at hfiles hresult
    rw [hname] at halone
    exact .inr ⟨_, halone, hresult, hfiles, compiler_compile nonce hnow⟩

end

end Progress

end
end Compiler
end MailTemplate
