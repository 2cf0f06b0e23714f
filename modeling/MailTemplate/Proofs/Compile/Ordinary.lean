import MailTemplate.Proofs.Compile.CleanOutput
import MailTemplate.Proofs.Compile.Confined
import MailTemplate.Proofs.Compile.OutputTree
import MailTemplate.Proofs.Markup.EmailLayout

/-! Ordinary templates. A template that inherits from none, splices nothing in, and holds neither a layout
element nor a style element is compiled to itself, whatever template syntax stands in it, as long as
its markup is printed in the way that trees are. -/

namespace MailTemplate

namespace Forest

/-- The names of the elements that have a meaning of their own: those of the layout, and the one that
holds styles. -/
def meaningful : List Text :=
  ["container", "row", "columns", "button", "style"].map String.toList

/-- No element of the tree has a meaning of its own. -/
def IsOrdinary (forest : Forest) : Prop :=
  ∀ e : Element, .element e ∈ forest.labels → e.name ∉ meaningful

section
variable {forest : Forest} {e : Element}

/-- The elements of the tree as it is read back have the names that they had. -/
theorem exists_mem_labels_of_escaped (h : .element e ∈ forest.escaped.labels) :
    ∃ original : Element, .element original ∈ forest.labels ∧ original.name = e.name := by
  induction forest with
  | nil => cases h
  | leaf l next ih =>
    rcases List.mem_cons.1 h with h | h
    · cases h
    · obtain ⟨original, hm, hname⟩ := ih h
      exact ⟨original, List.mem_cons_of_mem _ hm, hname⟩
  | element e' children next ihc ihn =>
    rcases List.mem_cons.1 h with h | h
    · cases h
      exact ⟨e', List.mem_cons_self, rfl⟩
    · rcases List.mem_append.1 h with h | h
      · obtain ⟨original, hm, hname⟩ := ihc h
        exact ⟨original, List.mem_cons_of_mem _ (List.mem_append_left _ hm), hname⟩
      · obtain ⟨original, hm, hname⟩ := ihn h
        exact ⟨original, List.mem_cons_of_mem _ (List.mem_append_right _ hm), hname⟩

theorem IsOrdinary.escaped (h : forest.IsOrdinary) : forest.escaped.IsOrdinary := by
  intro e he
  obtain ⟨original, hm, hname⟩ := exists_mem_labels_of_escaped he
  exact hname ▸ h original hm

theorem IsOrdinary.laidOut (h : forest.IsOrdinary) : forest.laidOut = forest := by
  induction forest with
  | nil => rfl
  | leaf l next ih => rw [Forest.laidOut, ih fun e he => h e (List.mem_cons_of_mem _ he)]
  | element e children next ihc ihn =>
    have hname : e.name ∉ meaningful := h e List.mem_cons_self
    have hne : ∀ name ∈ meaningful, e.name ≠ name := fun name hm he => hname (he ▸ hm)
    rw [Forest.laidOut, if_neg (hne _ (by decide)), if_neg (hne _ (by decide)),
      if_neg (hne _ (by decide)), if_neg (hne _ (by decide)),
      ihc fun e he => h e (List.mem_cons_of_mem _ (List.mem_append_left _ he)),
      ihn fun e he => h e (List.mem_cons_of_mem _ (List.mem_append_right _ he))]

theorem WellFormed.lower_name (h : forest.WellFormed) (hm : .element e ∈ forest.labels) :
    Text.lower e.name = e.name := by
  induction forest with
  | nil => cases hm
  | leaf l next ih =>
    rcases List.mem_cons.1 hm with hm | hm
    · cases hm
    · exact ih h.2 hm
  | element e' children next ihc ihn =>
    rcases List.mem_cons.1 hm with hm | hm
    · cases hm
      exact h.1.lower
    · rcases List.mem_append.1 hm with hm | hm
      · rcases h.content_cases with ⟨-, rfl⟩ | ⟨-, -, content, rfl, -⟩ | ⟨-, -, hc⟩
        · cases hm
        · unfold ofContent at hm
          split at hm
          · cases hm
          · cases List.mem_singleton.1 hm
        · exact ihc hc hm
      · exact ihn h.2.2 hm

end
end Forest

namespace Document

theorem elementsNamed_style_of_isOrdinary {forest : Forest} (hw : forest.WellFormed)
    (h : forest.IsOrdinary) : (ofForest forest).elementsNamed "style".toList = [] := by
  refine List.filter_eq_nil_iff.2 fun node _ hstyle => ?_
  obtain ⟨e, he, hname⟩ := (Option.any_eq_true _ _).1 hstyle
  rcases mem_labels_of_data? (element?_eq_some_iff.1 he) with hroot | hm
  · cases hroot
  · have hstyle : Text.lower "style".toList = "style".toList := by decide
    rw [Text.equalIgnoringCase, hw.lower_name hm, hstyle, beq_iff_eq] at hname
    exact h e hm (hname ▸ by decide)

end Document

namespace Render

/-- An ordinary tree is printed again as it was, and no style is written into it. -/
theorem template_of_isOrdinary {nonce source : Text} {forest : Forest} (name : Text)
    (issued : (Guard.fresh nonce).IsIssued) (ho : Guard.opener ∉ source)
    (hcanonical : forest.IsCanonical) (hordinary : forest.IsOrdinary)
    (hprinted : forest.render = ((Guard.fresh nonce).hide source).2) :
    template nonce name none source = (source, []) := by
  set hidden := ((Guard.fresh nonce).hide source).2 with hhidden
  have hwell := Forest.wellFormed_escaped hcanonical.wellFormed
  have hparse : Document.parse hidden = .ok (Document.ofForest forest.escaped) :=
    hprinted ▸ Document.parse_render hcanonical
  have hmarkup : markup hidden = (hidden, []) := by
    rw [markup, Document.withTables_eq, hparse]
    change ((Document.ofForest forest.escaped).toForest.tabled.render, ([] : List LogLine)) = _
    rw [Document.toForest_ofForest, Forest.tabled_eq_laidOut hwell, hordinary.escaped.laidOut,
      Forest.render_escaped, hprinted]
  have hrules : Cascade.rulesOf (Document.ofForest forest.escaped) none = .ok [] := by
    rw [Cascade.rulesOf, Document.elementsNamed_style_of_isOrdinary hwell hordinary.escaped]
    rfl
  have hstyles : styles name none hidden = (hidden, []) := by
    have hstyled : tryStyles none hidden = .ok hidden := by
      rw [tryStyles, Cascade.styled, hparse]
      change (Cascade.rulesOf (Document.ofForest forest.escaped) none >>= _) = _
      rw [hrules]
      rfl
    rw [styles, hstyled]
  change (((Guard.fresh nonce).hide source).1.reveal (styles name none (markup hidden).1).1,
    (markup hidden).2 ++ (styles name none (markup hidden).1).2) = _
  rw [hmarkup, hstyles]
  exact congrArg (·, []) (Guard.reveal_hide issued ho)

end Render

namespace Compiler

/-- A template without any of the features that compiling is about is compiled to itself, and nothing
is noted: it inherits from none, names no file to splice in, and its text, with template syntax hidden,
is a canonical tree as it is printed, of elements without a meaning of their own. -/
theorem compile_ordinary {compiler : Compiler} {files : FileSystem} {nonce reference : Text}
    {template : Template} {forest : Forest} (issued : (Guard.fresh nonce).IsIssued)
    (hload : Source.load files compiler.config reference = .ok template)
    (ho : Guard.opener ∉ template.text) (hparent : Layout.hasParent template.text = false)
    (hincludes : Layout.hasIncludes template.text = false)
    (hsheet : compiler.config.stylesheetPath = none) (hcanonical : forest.IsCanonical)
    (hordinary : forest.IsOrdinary)
    (hprinted : forest.render = ((Guard.fresh nonce).hide template.text).2) :
    let outcome (write : Bool) := compiler.compile files nonce reference write
    let written := files.writeDeep (outputPath compiler.config template.name) (.text template.text)
    ((outcome false).result = .ok ⟨template.name, template.text⟩ ∧ (outcome false).log = []) ∧
      (outcome true).files = written.1 ∧
        (outcome true).result =
          (written.2.mapError .io).map fun _ => ⟨template.name, template.text⟩ := by
  intro outcome written
  have hsource := source_of_load hload hparent hincludes
  have hnone : (compiler.loadStylesheet files).1 = none := by rw [loadStylesheet, hsheet]
  have hrendered :=
    Render.template_of_isOrdinary template.name issued ho hcanonical hordinary hprinted
  have hunwritten := compile_unwritten nonce hsource
  have hwritten := compile_of_source nonce hsource
  rw [hnone, hrendered] at hunwritten hwritten
  exact ⟨hunwritten, hwritten⟩

/-- Template syntax as an attribute, in a value, in a comment and between elements. -/
theorem compile_ordinary_letter :
    let text := ("<p {% if a %} title=\"{{ b }}\"><!--{# c #}-->{{ d }}<br>" ++
      "<i /></p>").toList
    let outcome := (single text).1.compile (single text).2 "Ab-9_z".toList ['a'] false
    outcome.result = .ok ⟨['a'], text⟩ ∧ outcome.log = [] := by
  intro text outcome
  let guard := ((Guard.fresh "Ab-9_z".toList).hide text).1
  let p : Element := ⟨['p'], [⟨guard.placeholder 0, none⟩, ⟨"title".toList, some (guard.placeholder 1)⟩],
    false⟩
  let forest : Forest := .element p (.leaf (.comment (guard.placeholder 2))
    (.leaf (.text (guard.placeholder 3)) (.element ⟨"br".toList, [], false⟩ .nil
      (.element ⟨['i'], [], true⟩ .nil .nil)))) .nil
  have hload : Source.load (single text).2 (single text).1.config ['a'] =
      .ok ⟨['a'], [['s'], "a.njk".toList], text⟩ := by cbv
  have hordinary : forest.IsOrdinary := by
    intro e he
    simp only [forest, Forest.labels, List.mem_cons, List.mem_append, List.not_mem_nil, or_false,
      reduceCtorEq, false_or, NodeData.element.injEq] at he
    rcases he with rfl | rfl | rfl <;> decide
  exact (compile_ordinary (by decide +kernel) hload (by decide +kernel) (by decide +kernel)
    (by decide +kernel) rfl (by decide +kernel : forest.IsCanonical) hordinary (by decide +kernel)).1

end Compiler
end MailTemplate
