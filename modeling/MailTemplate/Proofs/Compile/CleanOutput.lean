import MailTemplate.Proofs.Compile.CleanSource

/-! Outputs without private characters. Compiling reveals what it has hidden, except where a span stands
in the name of an element or in the property of a declaration that is written into an element. -/

namespace MailTemplate
open Guard

namespace Compiler

/-- All that a compiler reads is without private characters: the texts below its source root, and its
stylesheet. -/
structure ReadsClean (compiler : Compiler) (files : FileSystem) : Prop where
  sources : files.IsCleanBelow compiler.config
  stylesheet : ∀ css, (compiler.loadStylesheet files).1 = some (.ok css) → IsClean css

/-- A compiled template is without private characters exactly if no property that is written into an
element holds a placeholder and lower case has changed no placeholder. It has changed none if neither
reading of the markup finds one in the name of an element. -/
theorem isClean_compile_iff {compiler : Compiler} {files : FileSystem} {nonce reference : Text}
    {write : Bool} {compiled : Compiled} (issued : (Guard.fresh nonce).IsIssued)
    (clean : compiler.ReadsClean files)
    (h : (compiler.compile files nonce reference write).result = .ok compiled) :
    ∃ template source, Compiler.source compiler.config files reference = .ok (template, source) ∧
      let stylesheet := (compiler.loadStylesheet files).1
      let declared := Render.written stylesheet (Render.tabled nonce source)
      (IsClean compiled.html ↔
        (∀ declaration ∈ declared, opener ∉ declaration.property) ∧
          (Text.lower nonce = nonce ∨ ¬ Text.lower (Guard.fresh nonce).lead <:+:
            Render.finished nonce template.name stylesheet source)) ∧
      ((∀ declaration ∈ declared, opener ∉ declaration.property) →
        Document.AllNames (opener ∉ ·) (Render.hidden nonce source) →
          Document.AllNames (opener ∉ ·) (Render.tabled nonce source) → IsClean compiled.html) := by
  obtain ⟨template, source, hsource, rfl⟩ := compile_eq_ok h
  have hclean := isClean_source clean.sources hsource
  exact ⟨template, source, hsource, Render.isClean_template_iff issued hclean clean.stylesheet,
    Render.isClean_template issued hclean clean.stylesheet⟩

def single (text : Text) : Compiler × FileSystem :=
  (ofConfig (.ofRoots ['s'] ['d']),
    { entries := [([['s']], .directory), ([['s'], "a.njk".toList], .file (.text text))], current := [] })

theorem readsClean_single {text : Text} (h : IsClean text) :
    (single text).1.ReadsClean (single text).2 := by
  constructor
  · intro root location found _ _ hread
    rcases FileSystem.mem_entries (FileSystem.readAt_eq_ok_iff.1 hread) with ⟨-, hd⟩ | hm
    · cases hd
    · simp only [single, List.mem_cons, Prod.mk.injEq, List.not_mem_nil, or_false] at hm
      rcases hm with ⟨-, hm⟩ | ⟨-, hm⟩
      · cases hm
      · cases hm
        exact h
  · intro css hcss
    cases hcss

theorem source_single {text : Text} (hp : Layout.hasParent text = false)
    (hi : Layout.hasIncludes text = false) :
    source (single text).1.config (single text).2 ['a'] =
      .ok (⟨['a'], [['s'], "a.njk".toList], text⟩, text) := by
  have hload : Source.load (single text).2 (single text).1.config ['a'] =
      .ok ⟨['a'], [['s'], "a.njk".toList], text⟩ := by cbv
  exact source_of_load hload hp hi

theorem compile_single (nonce : Text) {text : Text} (hp : Layout.hasParent text = false)
    (hi : Layout.hasIncludes text = false) :
    ((single text).1.compile (single text).2 nonce ['a'] false).result =
      .ok ⟨['a'], (Render.template nonce ['a'] none text).1⟩ := by
  rw [compile, source_single hp hi]
  rfl

/-- Spans in a value that a style element declares, in a class, in a style attribute and in a text. -/
theorem isClean_compile_notice :
    let text := ("<style>p { color: {{c}} }</style>" ++
      "<p class={{k}} style=\"{{s}}\">{# n #}{{t}}").toList
    ∃ compiled, ((single text).1.compile (single text).2 "Ab-9_z".toList ['a'] false).result =
        .ok compiled ∧ IsClean compiled.html := by
  intro text
  have hp : Layout.hasParent text = false := by decide +kernel
  have hi : Layout.hasIncludes text = false := by decide +kernel
  have hcompiled := compile_single "Ab-9_z".toList hp hi
  refine ⟨_, hcompiled, ?_⟩
  obtain ⟨template, source, hsource, hiff, -⟩ := isClean_compile_iff (by decide +kernel)
    (readsClean_single (by decide +kernel : IsClean text)) hcompiled
  rw [source_single hp hi] at hsource
  cases hsource
  exact hiff.2 ⟨by decide +kernel, .inr (by decide +kernel)⟩

/-- A span in the name of an element, and one in the property of a declaration. -/
theorem not_isClean_compile :
    (Guard.fresh "Ab-9_z".toList).IsIssued ∧
      ∀ text ∈ ["<p{{x}}>".toList,
          "<style>p { {{x}}: red }</style><p>a</p>".toList],
        (single text).1.ReadsClean (single text).2 ∧
          ∃ compiled, ((single text).1.compile (single text).2 "Ab-9_z".toList ['a'] false).result =
            .ok compiled ∧ ¬ IsClean compiled.html := by
  refine ⟨by decide +kernel, fun text hm => ?_⟩
  have hclean : ∀ text ∈ ["<p{{x}}>".toList,
      "<style>p { {{x}}: red }</style><p>a</p>".toList],
      IsClean text ∧ Layout.hasParent text = false ∧ Layout.hasIncludes text = false ∧
        ¬ IsClean (Render.template "Ab-9_z".toList ['a'] none text).1 := by decide +kernel
  obtain ⟨htext, hp, hi, hhtml⟩ := hclean text hm
  exact ⟨readsClean_single htext, _, compile_single _ hp hi, hhtml⟩

end Compiler
end MailTemplate
