import MailTemplate.Proofs.Compile.CleanOutput
import MailTemplate.Proofs.Compile.Confined

/-! What a template is compiled to where its markup or its styles cannot be worked on. A stage that
fails hands on the text that it was given and leaves one line in the log; where the markup cannot be
read, that is the hidden source, so the template comes back as it was. -/

namespace MailTemplate

namespace Cascade

section
variable {source : Text} {extra : Option Text} {doc : Document}

/-- There are no rules to be had exactly if the extra stylesheet or a style element cannot be read. -/
theorem rulesOf_eq_error_iff : (∃ cause, rulesOf doc extra = .error cause) ↔
    (∃ css cause, extra = some css ∧ Sheet.parse css = .error cause) ∨
      ∃ node ∈ doc.elementsNamed "style".toList, ∃ cause, Sheet.parse (doc.text node) = .error cause := by
  have hown : ∀ first : List Rule,
      (∃ cause, ((doc.elementsNamed "style".toList).mapM (fun node => Sheet.parse (doc.text node)) >>=
        fun own => pure (first ++ own.flatten)) = Except.error cause) ↔
      ∃ node ∈ doc.elementsNamed "style".toList, ∃ cause,
        Sheet.parse (doc.text node) = .error cause := by
    intro first
    rw [← exists_mapM_eq_error_iff]
    refine exists_congr fun cause => bind_eq_error_iff.trans (or_iff_left ?_)
    rintro ⟨_, -, h⟩
    cases h
  cases extra with
  | none =>
    refine (hown []).trans (or_iff_right ?_).symm
    rintro ⟨css, cause, he, -⟩
    cases he
  | some css =>
    cases hfirst : Sheet.parse css with
    | error cause =>
      refine iff_of_true ⟨cause, ?_⟩ (.inl ⟨css, cause, rfl, hfirst⟩)
      rw [rulesOf, hfirst]
      rfl
    | ok first =>
      have hread : rulesOf doc (some css) =
          ((doc.elementsNamed "style".toList).mapM (fun node => Sheet.parse (doc.text node)) >>=
            fun own => pure (first ++ own.flatten)) := by
        rw [rulesOf, hfirst]
        rfl
      rw [hread, hown]
      refine (or_iff_right ?_).symm
      rintro ⟨other, cause, he, hcause⟩
      rw [← Option.some.inj he, hfirst] at hcause
      cases hcause

theorem styled_eq_error_iff : (∃ cause, styled source extra = .error cause) ↔
    (∃ cause, Document.parse source = .error cause) ∨
      ∃ doc, Document.parse source = .ok doc ∧ ∃ cause, rulesOf doc extra = .error cause := by
  cases hp : Document.parse source with
  | error cause =>
    refine iff_of_true ⟨.markup cause, ?_⟩ (.inl ⟨cause, rfl⟩)
    rw [styled, hp]
    rfl
  | ok doc =>
    have hread : ∀ cause, styled source extra = .error cause ↔ rulesOf doc extra = .error cause := by
      intro cause
      rw [styled, hp]
      change (rulesOf doc extra >>= _) = _ ↔ _
      cases rulesOf doc extra with
      | error found =>
        constructor
        · intro h
          cases h
          rfl
        · intro h
          cases h
          rfl
      | ok rules =>
        refine iff_of_false (fun h => ?_) fun h => by cases h
        cases rules <;> cases h
    constructor
    · rintro ⟨cause, h⟩
      exact .inr ⟨doc, rfl, cause, (hread cause).1 h⟩
    · rintro (⟨cause, h⟩ | ⟨other, h, cause, hr⟩)
      · cases h
      · cases h
        exact ⟨cause, (hread cause).2 hr⟩

end
end Cascade

namespace Render

/-- What can be wrong with the styles of a text: the stylesheet cannot be loaded or read, the markup
cannot be read, or one of its style elements cannot. -/
def StylesFail (stylesheet : Option Loaded) (text : Text) : Prop :=
  (∃ reason, stylesheet = some (.error reason)) ∨
    (∃ css cause, stylesheet = some (.ok css) ∧ Sheet.parse css = .error cause) ∨
      (∃ cause, Document.parse text = .error cause) ∨
        ∃ doc, Document.parse text = .ok doc ∧ ∃ node ∈ doc.elementsNamed "style".toList, ∃ cause,
          Sheet.parse (doc.text node) = .error cause

def sheet? (stylesheet : Option Loaded) : Option Text := stylesheet.bind Except.toOption

theorem tryStyles_eq_error_iff {stylesheet : Option Loaded} {text : Text} :
    (∃ cause, tryStyles stylesheet text = .error cause) ↔ StylesFail stylesheet text := by
  have hstyled : ∀ extra : Option Text, (∃ cause, Cascade.styled text extra = .error cause) ↔
      (∃ css cause, extra = some css ∧ Sheet.parse css = .error cause) ∨
        (∃ cause, Document.parse text = .error cause) ∨
          ∃ doc, Document.parse text = .ok doc ∧ ∃ node ∈ doc.elementsNamed "style".toList,
            ∃ cause, Sheet.parse (doc.text node) = .error cause := by
    intro extra
    rw [Cascade.styled_eq_error_iff]
    simp only [Cascade.rulesOf_eq_error_iff]
    cases hp : Document.parse text with
    | error cause => simp
    | ok doc => simp
  unfold StylesFail
  rcases stylesheet with _ | reason | css
  · simpa [tryStyles] using hstyled none
  · exact iff_of_true ⟨.stylesheet reason, rfl⟩ (.inl ⟨reason, rfl⟩)
  · simpa [tryStyles] using hstyled (some css)

theorem StylesFail.of_parse {stylesheet : Option Loaded} {text : Text} {cause : MarkupError}
    (h : Document.parse text = .error cause) : StylesFail stylesheet text :=
  .inr (.inr (.inl ⟨cause, h⟩))

theorem tryStyles_of_not_stylesFail {stylesheet : Option Loaded} {text : Text}
    (h : ¬ StylesFail stylesheet text) :
    ∃ styled, Cascade.styled text (sheet? stylesheet) = .ok styled ∧
      tryStyles stylesheet text = .ok styled := by
  cases ht : tryStyles stylesheet text with
  | error cause => exact absurd (tryStyles_eq_error_iff.1 ⟨cause, ht⟩) h
  | ok styled =>
    refine ⟨styled, ?_, rfl⟩
    rcases stylesheet with _ | reason | css
    · exact ht
    · cases ht
    · exact ht

section
variable {nonce source tables styled : Text} {stylesheet : Option Loaded} {cause : StyleError}

theorem styles_of_error (name : Text) (h : tryStyles stylesheet source = .error cause) :
    styles name stylesheet source =
      (source, [⟨.warning, name ++ ": ".toList ++ (Skipped.style cause).message⟩]) := by
  rw [styles, h]

theorem styles_of_ok (name : Text) (h : tryStyles stylesheet source = .ok styled) :
    styles name stylesheet source = (styled, []) := by
  rw [styles, h]

theorem template_of_parse_error {fault : MarkupError} (name : Text) (issued : (Guard.fresh nonce).IsIssued)
    (ho : Guard.opener ∉ source) (hp : Document.parse (hidden nonce source) = .error fault)
    (hs : tryStyles stylesheet (hidden nonce source) = .error cause) :
    template nonce name stylesheet source = (source, [⟨.warning, (Skipped.markup fault).message⟩,
      ⟨.warning, name ++ ": ".toList ++ (Skipped.style cause).message⟩]) := by
  have hmarkup : markup (hidden nonce source) =
      (hidden nonce source, [⟨.warning, (Skipped.markup fault).message⟩]) := by
    rw [markup, Document.withTables_eq, hp]
    rfl
  change (((Guard.fresh nonce).hide source).1.reveal
      (styles name stylesheet (markup (hidden nonce source)).1).1,
    (markup (hidden nonce source)).2 ++
      (styles name stylesheet (markup (hidden nonce source)).1).2) = _
  rw [hmarkup, styles_of_error name hs]
  exact congrArg (·, _) (Guard.reveal_hide issued ho)

/-- Where the markup can be read, the stage of styles works on the text with tables. -/
theorem template_of_withTables (name : Text) (stylesheet : Option Loaded)
    (ht : Document.withTables (hidden nonce source) = .ok tables) :
    template nonce name stylesheet source =
      (((Guard.fresh nonce).hide source).1.reveal (styles name stylesheet tables).1,
        (styles name stylesheet tables).2) := by
  have hmarkup : markup (hidden nonce source) = (tables, []) := by rw [markup, ht]
  change (((Guard.fresh nonce).hide source).1.reveal
      (styles name stylesheet (markup (hidden nonce source)).1).1,
    (markup (hidden nonce source)).2 ++
      (styles name stylesheet (markup (hidden nonce source)).1).2) = _
  rw [hmarkup]
  rfl

end
end Render

namespace Compiler

/-- A template whose source is found is always compiled. Where its markup cannot be read, it comes back
as its source, and both stages are noted. Where its styles cannot be worked on, it comes back with
tables and as if there were no styles, and that stage is noted. Otherwise it comes back with its
styles, and nothing is noted. -/
theorem compile_falls_back {compiler : Compiler} {files : FileSystem} {nonce reference text : Text}
    {template : Template} (issued : (Guard.fresh nonce).IsIssued)
    (hsource : source compiler.config files reference = .ok (template, text))
    (ho : Guard.opener ∉ text) :
    let stylesheet := (compiler.loadStylesheet files).1
    let guard := ((Guard.fresh nonce).hide text).1
    let hidden := ((Guard.fresh nonce).hide text).2
    let outcome := compiler.compile files nonce reference false
    let noted (cause : StyleError) : LogLine :=
      ⟨.warning, template.name ++ ": ".toList ++ (Skipped.style cause).message⟩
    ∃ html, outcome.result = .ok ⟨template.name, html⟩ ∧
      (∀ fault, Document.parse hidden = .error fault → html = text ∧ ∃ cause,
        Render.tryStyles stylesheet hidden = .error cause ∧
          outcome.log = [⟨.warning, (Skipped.markup fault).message⟩, noted cause]) ∧
      ∀ doc, Document.parse hidden = .ok doc → ∃ tables, Document.withTables hidden = .ok tables ∧
        (Render.StylesFail stylesheet tables → html = guard.reveal tables ∧ ∃ cause,
          Render.tryStyles stylesheet tables = .error cause ∧ outcome.log = [noted cause]) ∧
        (¬ Render.StylesFail stylesheet tables → ∃ styled,
          Cascade.styled tables (Render.sheet? stylesheet) = .ok styled ∧
            html = guard.reveal styled ∧ outcome.log = []) := by
  intro stylesheet guard hidden outcome noted
  obtain ⟨hresult, hlog⟩ := compile_unwritten nonce hsource
  refine ⟨_, hresult, fun fault hp => ?_, fun doc hp => ?_⟩
  · have hfail : Render.StylesFail stylesheet hidden := .of_parse hp
    obtain ⟨cause, hcause⟩ := Render.tryStyles_eq_error_iff.2 hfail
    have hrendered := Render.template_of_parse_error template.name issued ho hp hcause
    exact ⟨congrArg Prod.fst hrendered, cause, hcause, hlog.trans (congrArg Prod.snd hrendered)⟩
  · have htables : Document.withTables hidden = .ok doc.toForest.tabled.render := by
      rw [Document.withTables_eq, hp]
      rfl
    have hrendered := Render.template_of_withTables template.name stylesheet htables
    refine ⟨_, htables, fun hfail => ?_, fun hfine => ?_⟩
    · obtain ⟨cause, hcause⟩ := Render.tryStyles_eq_error_iff.2 hfail
      rw [Render.styles_of_error template.name hcause] at hrendered
      exact ⟨congrArg Prod.fst hrendered, cause, hcause, hlog.trans (congrArg Prod.snd hrendered)⟩
    · obtain ⟨styled, hstyled, htry⟩ := Render.tryStyles_of_not_stylesFail hfine
      rw [Render.styles_of_ok template.name htry] at hrendered
      exact ⟨styled, hstyled, congrArg Prod.fst hrendered, hlog.trans (congrArg Prod.snd hrendered)⟩

/-- A start tag without an end, a style element whose braces do not match, and one that can be read. -/
theorem compile_falls_back_broken :
    let span := "\x7b\x7bx\x7d\x7d"
    let compiled (text : Text) :=
      (single text).1.compile (single text).2 "Ab-9_z".toList ['a'] false
    let endless := ("<p " ++ span).toList
    let unbalanced (name : String) :=
      ("<style>p \x7b</style><" ++ name ++ ">" ++ span ++ "</" ++ name ++ ">").toList
    let balanced (opening : String) :=
      ("<style>p \x7b margin: 0 \x7d</style><p" ++ opening ++ ">" ++ span ++ "</p>").toList
    ((compiled endless).result = .ok ⟨['a'], endless⟩ ∧ (compiled endless).log.length = 2) ∧
      ((compiled (unbalanced "row")).result = .ok ⟨['a'], unbalanced "tr"⟩ ∧
        (compiled (unbalanced "row")).log.length = 1) ∧
      (compiled (balanced "")).result = .ok ⟨['a'], balanced " style=\"margin: 0;\""⟩ ∧
        (compiled (balanced "")).log = [] := by
  intro span compiled endless unbalanced balanced
  let hidden (text : Text) := ((Guard.fresh "Ab-9_z".toList).hide text).2
  have hfalls : ∀ text, Layout.hasParent text = false → Layout.hasIncludes text = false →
      Guard.opener ∉ text → _ := fun text hp hi ho =>
    compile_falls_back (by decide +kernel : (Guard.fresh "Ab-9_z".toList).IsIssued)
      (source_single hp hi) ho
  have hread : ∀ {text tables}, Document.withTables (hidden text) = .ok tables →
      ∃ doc, Document.parse (hidden text) = .ok doc := by
    intro text tables ht
    obtain ⟨doc, hdoc, -⟩ := map_eq_ok_iff.1 ((Document.withTables_eq _).symm.trans ht)
    exact ⟨doc, hdoc⟩
  refine ⟨?_, ?_, ?_⟩
  · obtain ⟨html, hresult, hunread, -⟩ :=
      hfalls endless (by decide +kernel) (by decide +kernel) (by decide +kernel)
    obtain ⟨rfl, cause, -, hlog⟩ := hunread (.unterminatedTag 0) (by decide +kernel)
    exact ⟨hresult, congrArg List.length hlog⟩
  · have ht : Document.withTables (hidden (unbalanced "row")) = .ok (hidden (unbalanced "tr")) := by
      decide +kernel
    have hs : Render.tryStyles none (hidden (unbalanced "tr")) = .error (.unbalanced 2) := by
      decide +kernel
    have hr : ((Guard.fresh "Ab-9_z".toList).hide (unbalanced "row")).1.reveal
        (hidden (unbalanced "tr")) = unbalanced "tr" := by decide +kernel
    obtain ⟨doc, hdoc⟩ := hread ht
    obtain ⟨html, hresult, -, htables⟩ :=
      hfalls (unbalanced "row") (by decide +kernel) (by decide +kernel) (by decide +kernel)
    obtain ⟨tables, ht', hfail, -⟩ := htables doc hdoc
    cases ht.symm.trans ht'
    obtain ⟨hhtml, cause, -, hlog⟩ := hfail (Render.tryStyles_eq_error_iff.1 ⟨_, hs⟩)
    exact ⟨hr ▸ hhtml ▸ hresult, congrArg List.length hlog⟩
  · have ht : Document.withTables (hidden (balanced "")) = .ok (hidden (balanced "")) := by
      decide +kernel
    have hs : Render.tryStyles none (hidden (balanced "")) =
        .ok (hidden (balanced " style=\"margin: 0;\"")) := by decide +kernel
    have hr : ((Guard.fresh "Ab-9_z".toList).hide (balanced "")).1.reveal
        (hidden (balanced " style=\"margin: 0;\"")) = balanced " style=\"margin: 0;\"" := by
      decide +kernel
    have hfine : ¬ Render.StylesFail none (hidden (balanced "")) := by
      intro hfail
      obtain ⟨cause, hcause⟩ := Render.tryStyles_eq_error_iff.2 hfail
      cases hs.symm.trans hcause
    obtain ⟨doc, hdoc⟩ := hread ht
    obtain ⟨html, hresult, -, htables⟩ :=
      hfalls (balanced "") (by decide +kernel) (by decide +kernel) (by decide +kernel)
    obtain ⟨tables, ht', -, hstyled⟩ := htables doc hdoc
    cases ht.symm.trans ht'
    obtain ⟨styled, hs', hhtml, hlog⟩ := hstyled hfine
    cases hs.symm.trans hs'
    exact ⟨hr ▸ hhtml ▸ hresult, hlog⟩

end Compiler
end MailTemplate
