import MailTemplate.Proofs.Compile.Progress

/-! Compiling a whole source tree. Every template is compiled from what was there at first, so it comes out
as if it were compiled alone: no failure and no output of another one makes a difference. -/

namespace MailTemplate
open MailTemplate.Path

namespace Compiler
open FileSystem

/-- What a report says of the names that were worked on. Each is reported once, in their order; those are
compiled that come out alone and can be written at first, and their outputs hold what they come out as;
one that does not come out fails as it does alone. -/
structure Accounts (config : Config) (files : FileSystem) (output : Text → Location)
    (alone : Text → Except CompileError Compiled) (names : List Text) (report : Report)
    (later : FileSystem) : Prop where
  compiled : report.compiled.Sublist names
  failed : (report.failed.map Failure.name).Sublist names
  once : (report.compiled ++ report.failed.map Failure.name).Perm names
  comes : ∀ name ∈ names, name ∈ report.compiled ↔ ∃ compiled, alone name = .ok compiled ∧
    (files.writeDeep (outputPath config name) (.text compiled.html)).2 = .ok ()
  causes : ∀ name ∈ names, ∀ cause, alone name = .error cause → ⟨name, cause⟩ ∈ report.failed
  stands : ∀ name ∈ report.compiled, ∀ compiled, alone name = .ok compiled →
    later.entry? (output name) = some (.file (.text compiled.html))

namespace Accounts

section
variable {config : Config} {files later : FileSystem} {output : Text → Location}
  {alone other : Text → Except CompileError Compiled} {rest : List Text} {report : Report} {name : Text}

theorem nil : Accounts config files output alone [] ⟨[], []⟩ later where
  compiled := .slnil
  failed := .slnil
  once := .nil
  comes _ hm := absurd hm List.not_mem_nil
  causes _ hm := absurd hm List.not_mem_nil
  stands _ hm := absurd hm List.not_mem_nil

theorem congr (h : Accounts config files output alone rest report later)
    (hsame : ∀ name ∈ rest, other name = alone name) :
    Accounts config files output other rest report later where
  compiled := h.compiled
  failed := h.failed
  once := h.once
  comes name hm := hsame name hm ▸ h.comes name hm
  causes name hm := hsame name hm ▸ h.causes name hm
  stands name hm := hsame name (h.compiled.subset hm) ▸ h.stands name hm

variable (h : Accounts config files output alone rest report later) (hn : name ∉ rest)
include h hn

theorem compiled_cons {compiled : Compiled} (halone : alone name = .ok compiled)
    (hwritten : (files.writeDeep (outputPath config name) (.text compiled.html)).2 = .ok ())
    (hstands : later.entry? (output name) = some (.file (.text compiled.html))) :
    Accounts config files output alone (name :: rest)
      { report with compiled := name :: report.compiled } later where
  compiled := h.compiled.cons_cons name
  failed := h.failed.cons name
  once := h.once.cons name
  comes found hm := by
    rcases List.mem_cons.1 hm with rfl | hm
    · exact iff_of_true List.mem_cons_self ⟨compiled, halone, hwritten⟩
    · have hne : found ≠ name := fun he => hn (he ▸ hm)
      rw [List.mem_cons, or_iff_right hne]
      exact h.comes found hm
  causes found hm cause hcause := by
    rcases List.mem_cons.1 hm with rfl | hm
    · cases halone.symm.trans hcause
    · exact h.causes found hm cause hcause
  stands found hm result hresult := by
    rcases List.mem_cons.1 hm with rfl | hm
    · cases halone.symm.trans hresult
      exact hstands
    · exact h.stands found hm result hresult

theorem failed_cons {cause : CompileError}
    (hfails : ∀ compiled, alone name = .ok compiled →
      (files.writeDeep (outputPath config name) (.text compiled.html)).2 ≠ .ok ())
    (hcause : ∀ found, alone name = .error found → found = cause) :
    Accounts config files output alone (name :: rest)
      { report with failed := ⟨name, cause⟩ :: report.failed } later where
  compiled := h.compiled.cons name
  failed := h.failed.cons_cons name
  once := List.perm_middle.trans (h.once.cons name)
  comes found hm := by
    rcases List.mem_cons.1 hm with rfl | hm
    · refine iff_of_false (fun hc => hn (h.compiled.subset hc)) ?_
      rintro ⟨compiled, halone, hwritten⟩
      exact hfails compiled halone hwritten
    · exact h.comes found hm
  causes found hm result hresult := by
    rcases List.mem_cons.1 hm with rfl | hm
    · rw [hcause result hresult]
      exact List.mem_cons_self
    · exact List.mem_cons_of_mem _ (h.causes found hm result hresult)
  stands := h.stands

end
end Accounts

section
variable {worker : Compiler} {now : FileSystem} {name : Text} (nonces : Nat → Text) (first : Nat)
  (rest : List Text)

theorem compileEach_of_ok {compiled : Compiled}
    (h : (worker.compile now (nonces first) name true).result = .ok compiled) :
    let one := worker.compile now (nonces first) name true
    let others := compileEach nonces (first + 1) one.compiler one.files rest
    let outcome := compileEach nonces first worker now (name :: rest)
    outcome.result = others.result.map (fun r => { r with compiled := name :: r.compiled }) ∧
      outcome.compiler = others.compiler ∧ outcome.files = others.files := by
  rw [compileEach, h]
  exact ⟨rfl, rfl, rfl⟩

theorem compileEach_of_error {cause : CompileError}
    (h : (worker.compile now (nonces first) name true).result = .error cause) :
    let one := worker.compile now (nonces first) name true
    let others := compileEach nonces (first + 1) one.compiler one.files rest
    let outcome := compileEach nonces first worker now (name :: rest)
    outcome.result = others.result.map (fun r => { r with failed := ⟨name, cause⟩ :: r.failed }) ∧
      outcome.compiler = others.compiler ∧ outcome.files = others.files := by
  rw [compileEach, h]
  exact ⟨rfl, rfl, rfl⟩

end

section
variable {compiler worker : Compiler} {files now : FileSystem} {root base place : Location}
  {missing : List Text} {found outputs : List Text} {name nonce : Text}
  (p : Progress compiler files base missing found outputs worker now)
  (sep : IsSeparate compiler.config files root base missing found) (owns : AreApart found)
include p sep owns

theorem Progress.compile_of_ok (hm : name ∈ found) (hd : name ∉ outputs) {compiled : Compiled}
    (h : (worker.compile now nonce name true).result = .ok compiled) :
    let outcome := worker.compile now nonce name true
    let output := outputPath compiler.config name
    Progress compiler files base missing found (name :: outputs) outcome.compiler outcome.files ∧
      (compiler.compile files nonce name false).result = .ok compiled ∧
        (files.writeDeep output (.text compiled.html)).2 = .ok () ∧
          outcome.files.entry? (lexical base missing ++ own name) =
            some (.file (.text compiled.html)) := by
  have way := p.hasWay sep owns hm
  rcases p.compile_cases sep owns hm nonce with ⟨cause, -, heq⟩ | ⟨found, halone, hresult, hfiles, hworker⟩
  · rw [heq] at h
    cases h
  · obtain ⟨_, hok, rfl⟩ := map_eq_ok_iff.1 (hresult.symm.trans h)
    rw [mapError_eq_ok_iff] at hok
    have hwritable := (p.isWritable_iff owns hm hd).1 (way.writeDeep_iff.1 hok)
    refine ⟨?_, halone, (sep.hasWay owns hm).writeDeep_iff.2 hwritable, ?_⟩
    · rw [hfiles, hworker]
      exact p.writeDeep sep owns hm hd (List.subset_cons_self _ _)
        (List.cons_subset.2 ⟨hm, p.subset⟩) fun _ => List.mem_cons_self
    · rw [hfiles, ← owns.lexical hm]
      exact (way.entry_writeDeep _).2 hok

theorem Progress.compile_of_error (hm : name ∈ found) (hd : name ∉ outputs) {cause : CompileError}
    (h : (worker.compile now nonce name true).result = .error cause) :
    let outcome := worker.compile now nonce name true
    let alone := (compiler.compile files nonce name false).result
    Progress compiler files base missing found outputs outcome.compiler outcome.files ∧
      (∀ compiled, alone = .ok compiled →
        (files.writeDeep (outputPath compiler.config name) (.text compiled.html)).2 ≠ .ok ()) ∧
        ∀ found, alone = .error found → found = cause := by
  have way := p.hasWay sep owns hm
  rcases p.compile_cases sep owns hm nonce with ⟨found, halone, heq⟩ |
    ⟨compiled, halone, hresult, hfiles, hworker⟩
  · rw [heq] at h ⊢
    cases h
    refine ⟨p, fun compiled hc => ?_, fun other ho => ?_⟩
    · cases halone.symm.trans hc
    · cases halone.symm.trans ho
      rfl
  · have hfails : (now.writeDeep (outputPath compiler.config name) (.text compiled.html)).2 ≠ .ok () := by
      intro hok
      rw [hok] at hresult
      cases hresult.symm.trans h
    refine ⟨?_, fun other ho hok => ?_, fun other ho => ?_⟩
    · rw [hfiles, hworker]
      exact p.writeDeep sep owns hm hd (List.Subset.refl _) p.subset fun hok => absurd hok hfails
    · have hwritable := (sep.hasWay owns hm).writeDeep_iff.1 hok
      exact hfails (way.writeDeep_iff.2 ((p.isWritable_iff owns hm hd).2 hwritable))
    · cases halone.symm.trans ho

theorem Progress.entry_compile {other : Text} {held : Contents} (hm : name ∈ found) (ho : other ∈ found)
    (hne : other ≠ name) (h : now.entry? (lexical base missing ++ own other) = some (.file held)) :
    let outcome := worker.compile now nonce name true
    outcome.files.entry? (lexical base missing ++ own other) = some (.file held) := by
  intro outcome
  rcases p.compile_cases sep owns hm nonce with ⟨cause, -, heq⟩ | ⟨compiled, -, -, hfiles, -⟩
  · simp only [outcome, heq, h]
  · simp only [outcome, hfiles]
    exact p.entry_writeDeep sep owns hm ho hne h

theorem Progress.compileEach {rest : List Text} (nonces : Nat → Text) (first : Nat)
    (hnodup : rest.Nodup) (hrest : ∀ name ∈ rest, name ∈ found ∧ name ∉ outputs) :
    let outcome := compileEach nonces first worker now rest
    let output := fun name => lexical base missing ++ own name
    let alone := fun name =>
      (compiler.compile files (nonces (first + rest.idxOf name)) name false).result
    ∃ report, outcome.result = .ok report ∧
      Accounts compiler.config files output alone rest report outcome.files ∧
      Progress compiler files base missing found (report.compiled ++ outputs) outcome.compiler
        outcome.files ∧
      ∀ other ∈ found, other ∉ rest → ∀ held, now.entry? (output other) = some (.file held) →
        outcome.files.entry? (output other) = some (.file held) := by
  induction rest generalizing first worker now outputs with
  | nil => exact ⟨⟨[], []⟩, rfl, .nil, p, fun _ _ _ _ h => h⟩
  | cons name rest ih =>
    obtain ⟨hnew, hnodup⟩ := List.nodup_cons.1 hnodup
    obtain ⟨hm, hd⟩ := hrest name List.mem_cons_self
    have hlater := fun other (ho : other ∈ rest) => hrest other (List.mem_cons_of_mem _ ho)
    -- the nonces are numbered on
    have hnumber : ∀ other ∈ rest,
        first + (name :: rest).idxOf other = first + 1 + rest.idxOf other := by
      intro other ho
      have hne : name ≠ other := fun he => hnew (he ▸ ho)
      rw [List.idxOf_cons_ne _ hne]
      omega
    intro outcome output alone
    have hhere : alone name = (compiler.compile files (nonces first) name false).result := by
      simp only [alone, List.idxOf_cons_self, Nat.add_zero]
    have hsame : ∀ other ∈ rest, alone other =
        (compiler.compile files (nonces (first + 1 + rest.idxOf other)) other false).result :=
      fun other ho => by simp only [alone, hnumber other ho]
    have hkeep : ∀ other ∈ found, other ∉ name :: rest → ∀ held,
        now.entry? (output other) = some (.file held) →
          entry? (worker.compile now (nonces first) name true).files (output other) =
            some (.file held) := fun other ho hnot held h =>
      p.entry_compile sep owns hm ho (fun he => hnot (he ▸ List.mem_cons_self)) h
    have hother : ∀ {other}, other ∉ name :: rest → other ∉ rest :=
      fun hnot ho => hnot (List.mem_cons_of_mem _ ho)
    cases hone : (worker.compile now (nonces first) name true).result with
    | ok compiled =>
      obtain ⟨hp, halone, hwritten, hstands⟩ := p.compile_of_ok sep owns hm hd hone
      obtain ⟨report, hreport, haccounts, hprogress, hkept⟩ := ih hp (first + 1) hnodup fun other ho =>
        ⟨(hlater other ho).1, by simpa using ⟨fun he => hnew (he ▸ ho), (hlater other ho).2⟩⟩
      have heq := compileEach_of_ok nonces first rest hone
      refine ⟨{ report with compiled := name :: report.compiled }, ?_, ?_, ?_, ?_⟩
      · exact heq.1.trans (by rw [hreport]; rfl)
      · rw [heq.2.2]
        refine (haccounts.congr hsame).compiled_cons hnew (hhere.trans halone) hwritten ?_
        exact hkept name hm hnew _ hstands
      · rw [heq.2.1, heq.2.2]
        refine hprogress.mono (fun other ho => ?_) ?_
        · simpa [or_left_comm] using ho
        · simpa [List.cons_subset, hm] using hprogress.subset
      · rw [heq.2.2]
        exact fun other ho hnot held h => hkept other ho (hother hnot) held (hkeep other ho hnot held h)
    | error cause =>
      obtain ⟨hp, hfails, hcause⟩ := p.compile_of_error sep owns hm hd hone
      obtain ⟨report, hreport, haccounts, hprogress, hkept⟩ := ih hp (first + 1) hnodup hlater
      have heq := compileEach_of_error nonces first rest hone
      rw [← hhere] at hfails hcause
      refine ⟨{ report with failed := ⟨name, cause⟩ :: report.failed }, ?_, ?_, ?_, ?_⟩
      · exact heq.1.trans (by rw [hreport]; rfl)
      · exact heq.2.2 ▸ (haccounts.congr hsame).failed_cons hnew hfails hcause
      · exact heq.2.1 ▸ heq.2.2 ▸ hprogress
      · rw [heq.2.2]
        exact fun other ho hnot held h => hkept other ho (hother hnot) held (hkeep other ho hnot held h)

omit p owns in
/-- Where outputs do not touch the sources, every template of a source tree comes out as if it were
compiled alone from the files as they are at first. Each is reported once; its output holds what it comes
out as. What there is in the source root stays, and so do the output files of templates that fail; nothing
appears elsewhere but directories. -/
theorem compileAll_independent {log : List LogLine} (nonces : Nat → Text)
    (hall : Discover.all files compiler.config = .ok (found, log)) :
    let outcome := compiler.compileAll files nonces
    let output := fun name => lexical base missing ++ own name
    let alone := fun name => (compiler.compile files (nonces (found.idxOf name)) name false).result
    found.Nodup ∧ ∃ report, outcome.result = .ok report ∧
      Accounts compiler.config files output alone found report outcome.files ∧
      (∀ place entry, root <+: place → files.entry? place = some entry →
        outcome.files.entry? place = some entry) ∧
      (∀ name ∈ found, name ∉ report.compiled → ∀ contents,
        outcome.files.entry? (output name) = some (.file contents) ↔
          files.entry? (output name) = some (.file contents)) ∧
      ∀ place, (∀ name ∈ report.compiled, place ≠ output name) →
        outcome.files.entry? place = files.entry? place ∨
          files.entry? place = none ∧ outcome.files.entry? place = some .directory := by
  obtain ⟨hnodup, hcandidate, hapart⟩ := Discover.exists_candidates sep.tree sep.source hall
  have owns : AreApart found := ⟨hcandidate, hapart⟩
  have hbegin : Progress compiler files base missing found [] compiler files :=
    ⟨rfl, rfl, rfl, fun _ hd => sep.tree.isDirectoryAt_dropLast hd, List.nil_subset _,
      fun _ => .inl rfl⟩
  have hrun := hbegin.compileEach sep owns nonces 0 hnodup fun name hm => ⟨hm, List.not_mem_nil⟩
  simp only [Nat.zero_add, List.append_nil] at hrun
  obtain ⟨report, hreport, haccounts, hprogress, -⟩ := hrun
  have hfiles : (compiler.compileAll files nonces).files =
      (compileEach nonces 0 compiler files found).files := by rw [compileAll, hall]
  have hresult : (compiler.compileAll files nonces).result =
      (compileEach nonces 0 compiler files found).result := by rw [compileAll, hall]
  dsimp only
  rw [hfiles, hresult]
  refine ⟨hnodup, report, hreport, haccounts, fun place entry hr he => hprogress.kept sep hr he,
    fun name hm hnot contents => ?_, fun place hplace => ?_⟩
  · rcases hprogress.entry_own owns hm hnot with hs | ⟨-, hnone, hmade⟩
    · rw [hs]
    · rw [hnone, hmade]
      exact iff_of_false (by simp) (by simp)
  · rcases hprogress.entries place with hs | ⟨name, hm, hown, -⟩ | ⟨_, -, -, hmade⟩
    · exact .inl hs
    · exact absurd hown (hplace name hm)
    · exact .inr hmade

end

def orphan : Text := "\x7b% extends 'q' %\x7d".toList

def siblings : FileSystem := mirroredFiles [([['s'], "a.njk".toList], .file (.text heir)),
  ([['s'], "b.njk".toList], .file (.text orphan)),
  ([['s'], "c.njk".toList], .file (.text "<br/>".toList))]

theorem not_mayAppear_siblings {name : Text} (hname : IsName name) (gap : Location)
    (h : siblings.BreaksAt [] [[], ['s'], name] gap) : ¬ MayAppear siblings [['d']] [] gap := by
  have hclear : siblings.IsClear [] [[], ['s'], name] :=
    isClear_of_forall (by simp [siblings, mirroredFiles]) _ _
  obtain ⟨front, hfront, rfl⟩ := h.exists_isPrefix hclear
  rintro ⟨-, hout⟩
  have hd : [['d']] <+: lexical [] front := by
    rcases hout with hout | ⟨way, hway, hplace⟩
    · exact hout
    · rw [← hplace, List.prefix_nil.1 hway]
      exact List.prefix_rfl
  have hfront' : front ∈ [[], [[]], [[], ['s']], [[], ['s'], name]] := (List.mem_inits _ _).2 hfront
  simp only [List.mem_cons, List.not_mem_nil, or_false] at hfront'
  rcases hfront' with rfl | rfl | rfl | rfl
  · exact absurd hd (by decide)
  · exact absurd hd (by decide)
  · exact absurd hd (by decide)
  · rw [lexical_cons, lexical_cons, lexical_cons, lexical_nil, step_of_isName hname] at hd
    obtain ⟨hsame, -⟩ := List.cons_prefix_cons.1 hd
    exact absurd hsame (by decide)

theorem load_siblings :
    Source.load siblings mirrored ['a'] = .ok ⟨['a'], [['s'], "a.njk".toList], heir⟩ ∧
      Source.load siblings mirrored ['b'] = .ok ⟨['b'], [['s'], "b.njk".toList], orphan⟩ ∧
      Source.load siblings mirrored ['c'] = .ok ⟨['c'], [['s'], "c.njk".toList], "<br/>".toList⟩ ∧
      Source.load siblings mirrored ['q'] = .error (.notFound ['q']) :=
  ⟨by cbv, by cbv, by cbv, by cbv⟩

theorem resolveLoading_siblings :
    Layout.resolveLoading siblings mirrored ['a'] = (.ok "<br/>".toList, [['a'], ['c']]) ∧
      Layout.resolveLoading siblings mirrored ['b'] =
        (.error (.notFound ['q']), [['b'], ['q']]) := by
  obtain ⟨ha, hb, hc, hq⟩ := load_siblings
  have hparent : Layout.parent? heir = some ['c'] := by decide +kernel
  have hother : Layout.parent? orphan = some ['q'] := by decide +kernel
  have hend : Layout.parent? "<br/>".toList = none := by decide +kernel
  have hjoined : Layout.assemble "<br/>".toList (Layout.bodies heir) = "<br/>".toList := by
    decide +kernel
  refine ⟨?_, Layout.resolveLoading_of_missing hb hother (by decide) (by decide) hq⟩
  rw [Layout.resolveLoading_of_parent ha hparent (by decide) (by decide) hc hend, hjoined]

theorem looksFor_siblings {name path : Text} (hm : name ∈ [['a'], ['b']])
    (h : LooksFor mirrored siblings [['s']] name path) :
    ∃ file, IsEntryName file ∧ siblings.start path = [] ∧ Path.parts path = [[], ['s'], file] := by
  obtain ⟨ha, hb⟩ := resolveLoading_siblings
  cases h with
  | @template named hnamed =>
    have hnames : named ∈ [['a'], ['b'], ['c'], ['q']] := by
      rcases List.mem_pair.1 hm with rfl | rfl
      · rw [ha] at hnamed
        exact (by decide : [['a'], ['c']] ⊆ [['a'], ['b'], ['c'], ['q']]) hnamed
      · rw [hb] at hnamed
        exact (by decide : [['b'], ['q']] ⊆ [['a'], ['b'], ['c'], ['q']]) hnamed
    have hparts : ∀ named ∈ [['a'], ['b'], ['c'], ['q']], IsEntryName (named ++ extension) ∧
        siblings.start (Path.join (Location.path [['s']]) (templateName named ++ extension)) = [] ∧
          Path.parts (Path.join (Location.path [['s']]) (templateName named ++ extension)) =
            [[], ['s'], named ++ extension] := by decide +kernel
    exact ⟨named ++ extension, hparts named hnames⟩
  | @included template joined text last _ way tag _ hload hj hway htag _ =>
    -- the one joined text has no tags
    have hresolve : Layout.resolve siblings mirrored name = .ok joined :=
      bind_eq_ok_iff.2 ⟨template, hload, hj⟩
    rw [← Layout.fst_resolveLoading] at hresolve
    rcases List.mem_pair.1 hm with rfl | rfl
    · rw [ha] at hresolve
      cases hresolve
      have hnone : Layout.includeTag.items "<br/>".toList = [] := by decide +kernel
      cases hway with
      | here =>
        rw [hnone] at htag
        cases htag
      | on hfirst =>
        rw [hnone] at hfirst
        cases hfirst
    · rw [hb] at hresolve
      cases hresolve

theorem isSeparate_siblings : IsSeparate mirrored siblings [['s']] [['d']] [] [['a'], ['b']] where
  tree := isTree_of_forall (by decide) (by decide) (by decide)
  source := by cbv
  output := hasOutputRoot_mirrored _
  clear := isClear_of_forall (by simp [siblings, mirroredFiles]) _ _
  links := hasNoLinks_of_forall (by simp [siblings, mirroredFiles]) _
  above := by decide
  below := by decide
  kept := by decide
  lookups name hm path hlooks gap hbreaks := by
    obtain ⟨file, hfile, hstart, hparts⟩ := looksFor_siblings hm hlooks
    rw [hstart, hparts] at hbreaks
    exact not_mayAppear_siblings hfile.1 gap hbreaks

theorem all_of_beside {files : FileSystem} {text : Text} {size : Nat}
    (hroot : Source.place files mirrored.sourceRoot = .ok [['s']])
    (hbelow : Discover.textsBelow files [['s']] size [[['s']]] [['s']] [] =
      [["a.njk".toList], ["b.njk".toList], ["c.njk".toList]])
    (hsize : (files.entries.length + 1) * (files.entries.length + 1) = size)
    (ha : files.read "/s/a.njk".toList = .ok heir) (hb : files.read "/s/b.njk".toList = .ok text)
    (hc : files.read "/s/c.njk".toList = .ok "<br/>".toList) (hparent : Layout.hasParent text = true) :
    Discover.all files mirrored = .ok ([['a'], ['b']], []) := by
  have hfirst : Discover.examine files [['s']] ["a.njk".toList] = ([['a']], []) :=
    examine_heir (by decide) ha
  have hsecond : Discover.examine files [['s']] ["b.njk".toList] = ([['b']], []) := by
    have hname : Discover.candidate? ["b.njk".toList] = some ['b'] := by decide
    rw [Discover.examine_of_read hname hb, if_pos hparent]
  have hthird : Discover.examine files [['s']] ["c.njk".toList] = ([], []) := by
    have hname : Discover.candidate? ["c.njk".toList] = some ['c'] := by decide
    rw [Discover.examine_of_read hname hc, hasParent_break]
    rfl
  rw [Discover.all_of_textsBelow hroot hbelow hsize]
  simp only [List.flatMap_cons, List.flatMap_nil, hfirst, hsecond, hthird]
  rfl

/-- One template comes out and is written, the other one fails; each as it does alone. -/
theorem compileAll_independent_siblings :
    let outcome := (ofConfig mirrored).compileAll siblings fun _ => "n".toList
    ∃ report, outcome.result = .ok report ∧ ['a'] ∈ report.compiled ∧
      ⟨['b'], .notFound ['q']⟩ ∈ report.failed ∧
        outcome.files.entry? [['d'], "a.njk".toList] = some (.file (.text "<br />".toList)) := by
  have hsep : IsSeparate (ofConfig mirrored).config siblings [['s']] [['d']] [] [['a'], ['b']] :=
    isSeparate_siblings
  have hbelow : ∀ n, Discover.textsBelow siblings [['s']] (n + 1) [[['s']]] [['s']] [] =
      [["a.njk".toList], ["b.njk".toList], ["c.njk".toList]] := fun n => by cbv
  have hall : Discover.all siblings (ofConfig mirrored).config = .ok ([['a'], ['b']], []) :=
    all_of_beside hsep.source (hbelow 35) rfl (by cbv) (by cbv) (by cbv) (by decide +kernel)
  obtain ⟨-, report, hreport, haccounts, -⟩ := compileAll_independent hsep (fun _ => "n".toList) hall
  obtain ⟨hload, hother, -, -⟩ := load_siblings
  obtain ⟨hjoined, hfailed⟩ := resolveLoading_siblings
  have halone : ((ofConfig mirrored).compile siblings "n".toList ['a'] false).result =
      .ok ⟨['a'], "<br />".toList⟩ := by
    have hsource : source (ofConfig mirrored).config siblings ['a'] = .ok (_, "<br/>".toList) :=
      source_of_resolveTemplate hload ((Layout.resolveTemplate_eq_fst hload).trans (by rw [hjoined]))
        hasIncludes_break
    have hnone : ((ofConfig mirrored).loadStylesheet siblings).1 = none := rfl
    rw [(compile_unwritten "n".toList hsource).1, hnone, fst_template_break]
  have hcause : ((ofConfig mirrored).compile siblings "n".toList ['b'] false).result =
      .error (.notFound ['q']) := by
    have hsource : source (ofConfig mirrored).config siblings ['b'] = .error (.notFound ['q']) :=
      source_of_error hother ((Layout.resolveTemplate_eq_fst hother).trans (by rw [hfailed]))
    rw [compile, hsource]
  have hwritten : (siblings.writeDeep (outputPath mirrored ['a']) (.text "<br />".toList)).2 =
      .ok () := by cbv
  have hcompiled : ['a'] ∈ report.compiled :=
    (haccounts.comes ['a'] (by simp)).2 ⟨_, halone, hwritten⟩
  exact ⟨report, hreport, hcompiled, haccounts.causes ['b'] (by simp) _ hcause,
    haccounts.stands ['a'] hcompiled _ halone⟩

def detour : Text := "\x7b% extends '../d/../s/c' %\x7d".toList

/-- The files of a project without an output root, and what is added to them. -/
def detoured (added : List (Location × Entry)) : FileSystem where
  entries := [([['s']], .directory), ([['s'], "a.njk".toList], .file (.text heir)),
    ([['s'], "b.njk".toList], .file (.text detour)),
    ([['s'], "c.njk".toList], .file (.text "<br/>".toList))] ++ added
  current := []

def firstOutput : List (Location × Entry) :=
  [([['d']], .directory), ([['d'], "a.njk".toList], .file (.text "<br />".toList))]

/-- The second template has no source at first, and has one once the first output is written. -/
theorem source_detoured :
    source mirrored (detoured []) ['a'] =
        .ok (⟨['a'], [['s'], "a.njk".toList], heir⟩, "<br/>".toList) ∧
      source mirrored (detoured []) ['b'] = .error (.notFound "../d/../s/c".toList) ∧
      source mirrored (detoured firstOutput) ['b'] =
        .ok (⟨['b'], [['s'], "b.njk".toList], detour⟩, "<br/>".toList) := by
  have hparent : Layout.parent? heir = some ['c'] := by decide +kernel
  have hother : Layout.parent? detour = some "../d/../s/c".toList := by decide +kernel
  have hend : Layout.parent? "<br/>".toList = none := by decide +kernel
  have hjoined : ∀ text ∈ [heir, detour],
      Layout.assemble "<br/>".toList (Layout.bodies text) = "<br/>".toList := by decide +kernel
  have hfirst : Source.load (detoured []) mirrored ['a'] =
      .ok ⟨['a'], [['s'], "a.njk".toList], heir⟩ := by cbv
  have hlayout : Source.load (detoured []) mirrored ['c'] =
      .ok ⟨['c'], [['s'], "c.njk".toList], "<br/>".toList⟩ := by cbv
  have hsecond : ∀ added, Source.load (detoured added) mirrored ['b'] =
      .ok ⟨['b'], [['s'], "b.njk".toList], detour⟩ := fun added => by cbv
  have hmissing : Source.load (detoured []) mirrored "../d/../s/c".toList =
      .error (.notFound "../d/../s/c".toList) := by cbv
  have hfound : Source.load (detoured firstOutput) mirrored "../d/../s/c".toList =
      .ok ⟨"../d/../s/c".toList, [['s'], "c.njk".toList], "<br/>".toList⟩ := by cbv
  exact ⟨source_of_parent hfirst hparent (by decide) (by decide) hlayout hend
      (hjoined heir (by simp)) hasIncludes_break,
    source_of_missing (hsecond []) hother (by decide) (by decide) hmissing,
    source_of_parent (hsecond firstOutput) hother (by decide) (by decide) hfound hend
      (hjoined detour (by simp)) hasIncludes_break⟩

/-- The output of one template makes the output root, and a reference of another one leads somewhere. -/
theorem compileAll_detoured :
    Discover.all (detoured []) mirrored = .ok ([['a'], ['b']], []) ∧
      ((ofConfig mirrored).compile (detoured []) "n".toList ['b'] false).result =
        .error (.notFound "../d/../s/c".toList) ∧
      ∃ report, ((ofConfig mirrored).compileAll (detoured []) fun _ => "n".toList).result =
        .ok report ∧ report.compiled = [['a'], ['b']] := by
  have hroot : Source.place (detoured []) mirrored.sourceRoot = .ok [['s']] := by cbv
  have hbelow : ∀ n, Discover.textsBelow (detoured []) [['s']] (n + 1) [[['s']]] [['s']] [] =
      [["a.njk".toList], ["b.njk".toList], ["c.njk".toList]] := fun n => by cbv
  have hall : Discover.all (detoured []) mirrored = .ok ([['a'], ['b']], []) :=
    all_of_beside hroot (hbelow 24) rfl (by cbv) (by cbv) (by cbv) (by decide +kernel)
  obtain ⟨hfirst, hmissing, hthen⟩ := source_detoured
  have hwritten : (detoured []).writeDeep (outputPath mirrored ['a']) (.text "<br />".toList) =
      (detoured firstOutput, .ok ()) := by cbv
  have hlast : ((detoured firstOutput).writeDeep (outputPath mirrored ['b'])
      (.text "<br />".toList)).2 = .ok () := by cbv
  refine ⟨hall, ?_, ?_⟩
  · have hcause : source (ofConfig mirrored).config (detoured []) ['b'] = .error (.notFound _) :=
      hmissing
    rw [compile, hcause]
  · obtain ⟨hfiles, hone⟩ := compile_source_break hfirst
    obtain ⟨-, htwo⟩ := compile_source_break hthen
    rw [hwritten] at hfiles hone
    rw [hlast] at htwo
    have hworker : ((ofConfig mirrored).compile (detoured []) "n".toList ['a'] true).compiler =
        ofConfig mirrored := compiler_compile "n".toList hfirst
    have hrun := (compileEach_of_ok (fun _ => "n".toList) 0 [['b']] hone).1
    rw [hworker, hfiles, (compileEach_of_ok (fun _ => "n".toList) 1 [] htwo).1] at hrun
    have hstart : Discover.all (detoured []) (ofConfig mirrored).config = .ok ([['a'], ['b']], []) :=
      hall
    rw [compileAll, hstart]
    exact ⟨_, hrun, rfl⟩

/-- A project with a template in a directory whose name begins with a space and goes on as the part
that leads up. -/
def misnamed : FileSystem := mirroredFiles [([['s'], " ..".toList], .directory),
  ([['s'], " ..".toList, ['s']], .directory),
  ([['s'], " ..".toList, ['s'], "b.njk".toList], .file (.text heir)),
  ([['s'], "b.njk".toList], .file (.text "<br/>".toList))]

/-- Its name does not mean itself as a reference, and its output is written over another source. -/
theorem compileAll_misnamed :
    Discover.all misnamed mirrored = .ok ([" ../s/b".toList], []) ∧
      ((ofConfig mirrored).compileAll misnamed fun _ => "n".toList).files =
        (misnamed.writeDeep (outputPath mirrored "../s/b".toList) (.text "<br />".toList)).1 := by
  have hroot : Source.place misnamed mirrored.sourceRoot = .ok [['s']] := by cbv
  have hbelow : ∀ n, Discover.textsBelow misnamed [['s']] (n + 3) [[['s']]] [['s']] [] =
      [[" ..".toList, ['s'], "b.njk".toList], ["b.njk".toList]] := fun n => by cbv
  have hfirst : Discover.examine misnamed [['s']] [" ..".toList, ['s'], "b.njk".toList] =
      ([" ../s/b".toList], []) := examine_heir (by decide) (by cbv)
  have hsecond : Discover.examine misnamed [['s']] ["b.njk".toList] = ([], []) := by
    have hread : misnamed.read "/s/b.njk".toList = .ok "<br/>".toList := by cbv
    have hname : Discover.candidate? ["b.njk".toList] = some ['b'] := by decide
    rw [Discover.examine_of_read hname hread, hasParent_break]
    rfl
  have hall : Discover.all misnamed mirrored = .ok ([" ../s/b".toList], []) := by
    have heq := Discover.all_of_textsBelow hroot (hbelow 46) rfl
    simp only [List.flatMap_cons, List.flatMap_nil, hfirst, hsecond] at heq
    exact heq
  have hstart : Discover.all misnamed (ofConfig mirrored).config = .ok ([" ../s/b".toList], []) := hall
  have hload : Source.load misnamed mirrored " ../s/b".toList =
      .ok ⟨"../s/b".toList, [['s'], "b.njk".toList], "<br/>".toList⟩ := by cbv
  obtain ⟨hfiles, hresult⟩ := compile_break hload
  have hwritten : (misnamed.writeDeep (outputPath mirrored "../s/b".toList)
      (.text "<br />".toList)).2 = .ok () := by cbv
  rw [show mirroredFiles _ = misnamed from rfl, hwritten] at hresult
  refine ⟨hall, ?_⟩
  rw [compileAll, hstart]
  exact (compileEach_of_ok (fun _ => "n".toList) 0 [] hresult).2.2.trans hfiles

/-- Two projects with an output root apart from the source root and without links. In the first one an
output makes a reference lead somewhere that led nowhere; in the second one a source changes. -/
theorem compileAll_independent_detour :
    ((detoured []).IsTree ∧ (detoured []).HasNoLinks [] ∧
      Source.place (detoured []) mirrored.sourceRoot = .ok [['s']] ∧
      HasOutputRoot mirrored (detoured []) [] [['d']] ∧
      Discover.all (detoured []) mirrored = .ok ([['a'], ['b']], []) ∧
      ((ofConfig mirrored).compile (detoured []) "n".toList ['b'] false).result =
        .error (.notFound "../d/../s/c".toList) ∧
      ∃ report, ((ofConfig mirrored).compileAll (detoured []) fun _ => "n".toList).result =
        .ok report ∧ report.compiled = [['a'], ['b']]) ∧
    misnamed.IsTree ∧ misnamed.HasNoLinks [] ∧
      Source.place misnamed mirrored.sourceRoot = .ok [['s']] ∧
      HasOutputRoot mirrored misnamed [['d']] [] ∧
      Discover.all misnamed mirrored = .ok ([" ../s/b".toList], []) ∧
      misnamed.entry? [['s'], "b.njk".toList] = some (.file (.text "<br/>".toList)) ∧
      entry? ((ofConfig mirrored).compileAll misnamed fun _ => "n".toList).files
        [['s'], "b.njk".toList] = some (.file (.text "<br />".toList)) := by
  obtain ⟨hall, hfiles⟩ := compileAll_misnamed
  refine ⟨⟨isTree_of_forall (by decide) (by decide) (by decide),
      hasNoLinks_of_forall (by simp [detoured]) _, by cbv, ⟨[], by cbv, by cbv⟩, compileAll_detoured⟩,
    isTree_of_forall (by decide) (by decide) (by decide),
    hasNoLinks_of_forall (by simp [misnamed, mirroredFiles]) _, by cbv, hasOutputRoot_mirrored _, hall,
    by cbv, ?_⟩
  rw [hfiles]
  cbv

end Compiler
end MailTemplate
