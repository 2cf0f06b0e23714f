import MailTemplate.Proofs.Compile.Lookups
import MailTemplate.Proofs.Files.Changed

/-! Reading stays below the source root. What files elsewhere hold has no effect on any template, on
what is spliced into it or on what it is compiled to, whichever way a path takes to them. -/

namespace MailTemplate

/-- What there is at or below a place is the same in two file systems. -/
def FileSystem.SameBelow (root : Location) (files other : FileSystem) : Prop :=
  ∀ location, root <+: location → other.entry? location = files.entry? location

namespace FileSystem.Alike

section
variable {files other : FileSystem} (h : files.Alike other)
include h

theorem place (path : Text) : Source.place other path = Source.place files path := by
  rw [Source.place, Source.place, h.follow]

theorem within (root : Location) (path : Text) :
    Source.within other root path = Source.within files root path := by
  simp only [Source.within, h.place, h.isFileAt]

end
end FileSystem.Alike

/-- Two file systems with the same directories, links and regular files, which hold the same at or
below the source root. -/
structure FileSystem.SameSources (config : Config) (files other : FileSystem) : Prop where
  alike : files.Alike other
  below : ∀ root, Source.place files config.sourceRoot = .ok root → SameBelow root files other

section
variable {files other : FileSystem} {root : Location}

theorem FileSystem.SameBelow.sameAnswer (h : SameBelow root files other) (ha : files.Alike other)
    (path : Text) : Source.SameAnswer root files other path where
  pathExists := ha.pathExists path
  within := ha.within root path
  read location hwithin := by
    obtain ⟨-, hr, -⟩ := Source.within_eq_ok hwithin
    rw [Source.read, Source.read, readAt, readAt, h location hr]

end

section
variable {files other : FileSystem} {config : Config} (h : FileSystem.SameSources config files other)
include h

theorem Source.load_of_sameSources (reference : Text) :
    load other config reference = load files config reference :=
  load_congr (h.alike.place _) fun root hroot => (h.below root hroot).sameAnswer h.alike _

end

namespace Compiler

/-- A template whose source is found is rendered, and nothing is written if that is not asked for. -/
theorem compile_unwritten {compiler : Compiler} {files : FileSystem} {reference text : Text}
    {template : Template} (nonce : Text)
    (h : source compiler.config files reference = .ok (template, text)) :
    let rendered := Render.template nonce template.name (compiler.loadStylesheet files).1 text
    let outcome := compiler.compile files nonce reference false
    outcome.result = .ok ⟨template.name, rendered.1⟩ ∧ outcome.log = rendered.2 := by
  rw [compile, h]
  exact ⟨rfl, rfl⟩

/-- What regular files outside of the source root hold has no effect: two file systems that differ in
nothing else, and give the same stylesheet, give the same templates, the same joined and spliced texts
and the same compiled templates, or the same failures, and the same log. -/
theorem reads_below_root {compiler : Compiler} {files other : FileSystem}
    (h : FileSystem.SameSources compiler.config files other) :
    let config := compiler.config
    (∀ reference, Source.load other config reference = Source.load files config reference) ∧
      (∀ reference, Layout.resolve other config reference = Layout.resolve files config reference) ∧
      Source.place other config.sourceRoot = Source.place files config.sourceRoot ∧
      (∀ root, Source.place files config.sourceRoot = .ok root →
        ∀ content directory visiting,
          Include.splice other root config.maxDepth content directory visiting =
            Include.splice files root config.maxDepth content directory visiting) ∧
      ((compiler.loadStylesheet other).1 = (compiler.loadStylesheet files).1 →
        ∀ nonce reference,
          let outcome := compiler.compile files nonce reference false
          let changed := compiler.compile other nonce reference false
          changed.result = outcome.result ∧ changed.log = outcome.log) := by
  have hload := Source.load_of_sameSources h
  refine ⟨hload, fun reference => ?_, h.alike.place _, fun root hroot content directory visiting => ?_,
    fun hstylesheet nonce reference => ?_⟩
  · rw [Layout.resolve, Layout.resolve, hload]
    refine bind_congr_of_ok fun template htemplate => ?_
    exact Layout.resolveTemplate_congr htemplate fun named _ => hload named
  · exact Include.splice_congr fun _ _ _ _ _ _ path _ => (h.below root hroot).sameAnswer h.alike path
  · have hsame : source compiler.config other reference = source compiler.config files reference :=
      source_congr (h.alike.place _) fun root hroot path _ =>
        (h.below root hroot).sameAnswer h.alike path
    cases hsource : source compiler.config files reference with
    | error cause =>
      rw [compile, compile, hsame, hsource]
      exact ⟨rfl, rfl⟩
    | ok found =>
      obtain ⟨hresult, hlog⟩ := compile_unwritten nonce hsource
      obtain ⟨hresult', hlog'⟩ := compile_unwritten nonce (hsame.trans hsource)
      rw [hstylesheet] at hresult' hlog'
      exact ⟨hresult'.trans hresult.symm, hlog'.trans hlog.symm⟩

def splicing : Text := "<p>\x7b% include 'b.njk' %\x7d</p>".toList

/-- A source root with two templates and a link out of it, to a file that holds the given text. -/
def besides (secret : Text) : FileSystem where
  entries := [([['s']], .directory), ([['s'], "a.njk".toList], .file (.text splicing)),
    ([['s'], "b.njk".toList], .file (.text ['b'])),
    ([['s'], "c.njk".toList], .link "../k.njk".toList),
    (["k.njk".toList], .file (.text secret))]
  current := []

def beside : Compiler := ofConfig (.ofRoots ['s'] ['d'])

theorem sameSources_besides (secret other : Text) :
    FileSystem.SameSources beside.config (besides secret) (besides other) := by
  have hentry : ∀ place, place ≠ ["k.njk".toList] →
      FileSystem.entry? (besides other) place = FileSystem.entry? (besides secret) place := by
    intro place hplace
    have hkey : (["k.njk".toList] == place) = false := beq_eq_false_iff_ne.2 hplace.symm
    unfold FileSystem.entry?
    simp only [besides, List.find?_cons, hkey]
  refine ⟨⟨rfl, fun place => ?_⟩, fun root hroot location hbelow => ?_⟩
  · by_cases hplace : place = ["k.njk".toList]
    · subst hplace
      exact .inr ⟨rfl, rfl⟩
    · exact .inl (hentry place hplace)
  · have hs : Source.place (besides secret) ['s'] = .ok [['s']] := by cbv
    cases hs.symm.trans hroot
    refine hentry location ?_
    rintro rfl
    exact absurd hbelow (by decide)

theorem source_besides : source beside.config (besides ['x']) ['a'] =
    .ok (⟨['a'], [['s'], "a.njk".toList], splicing⟩, "<p>b</p>".toList) := by
  let tag : ReferenceTag "include".toList :=
    ⟨⟨false, [' ']⟩, [' '], ⟨'\'', "b.njk".toList, '\''⟩, ⟨[' '], false⟩⟩
  have hpieces : Layout.includeTag.pieces splicing =
      ['<', 'p', '>'].map .char ++ .item tag :: ['<', '/', 'p', '>'].map .char := by decide +kernel
  have hinner : Layout.includeTag.pieces ['b'] = [.char 'b'] := by decide +kernel
  have hlocate : Include.locate (besides ['x']) [['s']] ['/', 's'] tag.reference =
      .ok [['s'], "b.njk".toList] := by cbv
  have hbody : Include.spliceAll (besides ['x']) [['s']] 32 3 ['b'] ['/', 's']
      [[['s'], "b.njk".toList]] = (.ok ['b'], [[['s'], "b.njk".toList]]) := by
    rw [Include.spliceAll_succ, hinner]
    rfl
  have hexpand : Include.expand (besides ['x']) [['s']] 32 3 ['/', 's'] tag [] =
      (.ok ['b'], []) := by
    rw [Include.expand, hlocate]
    exact congrArg (fun inner => (inner.1, inner.2.erase [['s'], "b.njk".toList])) hbody
  have hspliced : Include.splice (besides ['x']) [['s']] 32 splicing ['/', 's'] [] =
      (.ok "<p>b</p>".toList, []) := by
    change Include.spliceAll (besides ['x']) [['s']] 32 4 splicing ['/', 's'] [] = _
    rw [Include.spliceAll_succ, hpieces]
    simp only [List.map_cons, List.map_nil, List.cons_append, List.nil_append, Include.joinPieces,
      hexpand]
    rfl
  have hload : Source.load (besides ['x']) beside.config ['a'] =
      .ok ⟨['a'], [['s'], "a.njk".toList], splicing⟩ := by cbv
  have hparent : Layout.parent? splicing = none := by decide +kernel
  have hroot : Source.place (besides ['x']) beside.config.sourceRoot = .ok [['s']] := by cbv
  rw [source, hload]
  refine bind_eq_ok_iff.2 ⟨_, rfl, ?_⟩
  rw [Layout.resolveTemplate, hparent, hroot]
  refine bind_eq_ok_iff.2 ⟨_, rfl, bind_eq_ok_iff.2 ⟨_, rfl, ?_⟩⟩
  exact bind_eq_ok_iff.2 ⟨_, congrArg Prod.fst hspliced, rfl⟩

/-- A template that splices another one, and two ways out of the source root. -/
theorem reads_below_root_besides :
    let escape : CompileError := .pathEscape ["k.njk".toList] [['s']]
    besides ['x'] ≠ besides ['y'] ∧ ∀ secret ∈ [['x'], ['y']],
      (beside.compile (besides secret) ['n'] ['a'] false).result = .ok ⟨['a'], "<p>b</p>".toList⟩ ∧
        Source.load (besides secret) beside.config ['c'] = .error escape ∧
        Source.load (besides secret) beside.config "/../k".toList = .error escape := by
  intro escape
  obtain ⟨hload, -, -, -, hcompile⟩ := reads_below_root (sameSources_besides ['x'] ['y'])
  have hhtml : (Render.template ['n'] ['a'] none "<p>b</p>".toList).1 = "<p>b</p>".toList := by
    decide +kernel
  have hresult : (beside.compile (besides ['x']) ['n'] ['a'] false).result =
      .ok ⟨['a'], (Render.template ['n'] ['a'] none "<p>b</p>".toList).1⟩ :=
    (compile_unwritten ['n'] source_besides).1
  have hlink : Source.load (besides ['x']) beside.config ['c'] = .error escape := by cbv
  have hup : Source.load (besides ['x']) beside.config "/../k".toList = .error escape := by cbv
  rw [hhtml] at hresult
  refine ⟨by decide, fun secret hsecret => ?_⟩
  rcases List.mem_pair.1 hsecret with rfl | rfl
  · exact ⟨hresult, hlink, hup⟩
  · exact ⟨(hcompile rfl ['n'] ['a']).1.trans hresult, (hload _).trans hlink, (hload _).trans hup⟩

end Compiler
end MailTemplate
