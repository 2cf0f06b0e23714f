import MailTemplate.Proofs.Style.WordsStyled
import MailTemplate.Proofs.Text.Pieces
import MailTemplate.Render

/-! What remains of the placeholders. Rendering hides template syntax, and at its end reveals it again.
A placeholder is not revealed where it has become part of the property of a declaration, because
that is cut at the first colon, or of the name of an element, because that is put in lower case;
everywhere else it is. -/

namespace MailTemplate
open Guard

namespace Guard

section
variable {guard : Guard}

theorem isIssued_hide {nonce : Text} (issued : (fresh nonce).IsIssued) (source : Text) :
    ((fresh nonce).hide source).1.IsIssued := by
  rw [hide_eq]
  exact issued

theorem knowsClean_hide {nonce source : Text} (h : IsClean source) :
    ((fresh nonce).hide source).1.KnowsClean := by
  intro id span hid
  have hlist : ((fresh nonce).hide source).1.hidden.toList = secretsOf source := by
    rw [hide_eq, toList_remember]
    rfl
  have hm : span ∈ secretsOf source := by
    rw [← hlist]
    rw [← Array.getElem?_toList] at hid
    exact List.mem_of_getElem? hid
  have htext : span.text <:+: source := Pattern.infix_of_mem_items (List.mem_filter.1 hm).1
  exact ⟨fun ho => h.1 (htext.subset ho), fun hc => h.2 (htext.subset hc)⟩

theorem starts_of_isPlaceholder : ∀ word, guard.IsPlaceholder word →
    ∃ rest, word = opener :: 'm' :: 'f' :: ':' :: rest := by
  rintro word ⟨id, -, rfl⟩
  exact ⟨guard.nonce ++ [':'] ++ Text.ofNat id ++ [closer], rfl⟩

theorem starts_of_isTrace : ∀ word, guard.IsTrace word →
    ∃ rest, word = opener :: 'm' :: 'f' :: ':' :: rest := by
  rintro word (h | ⟨original, h, rfl⟩)
  · exact starts_of_isPlaceholder word h
  · obtain ⟨rest, rfl⟩ := starts_of_isPlaceholder original h
    have hfirst : Text.lower [opener, 'm', 'f', ':'] = [opener, 'm', 'f', ':'] := by decide
    exact ⟨Text.lower rest, congrArg (· ++ Text.lower rest) hfirst⟩

end
end Guard

namespace Render

/-- The source with its template syntax hidden. -/
def hidden (nonce source : Text) : Text := ((Guard.fresh nonce).hide source).2

/-- The hidden source with tables, as styles are written into it. -/
def tabled (nonce source : Text) : Text := (markup (hidden nonce source)).1

/-- The text of a template before its syntax is revealed. -/
def finished (nonce name : Text) (stylesheet : Option Loaded) (source : Text) : Text :=
  (styles name stylesheet (tabled nonce source)).1

theorem sound_hidden (nonce : Text) {source : Text} (h : IsClean source) :
    Guard.Sound ((Guard.fresh nonce).hide source).1.IsPlaceholder (hidden nonce source) :=
  (written_hide h.1 h.2).sound

theorem fst_template (nonce name : Text) (stylesheet : Option Loaded) (source : Text) :
    (template nonce name stylesheet source).1 =
      ((Guard.fresh nonce).hide source).1.reveal (finished nonce name stylesheet source) := rfl

/-- The declarations of rules that are written into the elements of a text; none, if the stage of
styles fails. -/
def written (stylesheet : Option Loaded) (source : Text) : List Declaration :=
  match stylesheet with
  | none => Cascade.written source none
  | some (.ok css) => Cascade.written source (some css)
  | some (.error _) => []

theorem tryStyles_eq_ok {stylesheet : Option Loaded} {source text : Text}
    (h : tryStyles stylesheet source = .ok text) :
    ∃ extra, (∀ css, extra = some css → stylesheet = some (.ok css)) ∧
      Cascade.styled source extra = .ok text ∧
        written stylesheet source = Cascade.written source extra := by
  unfold tryStyles at h
  split at h
  · exact ⟨none, (fun css he => by cases he), h, rfl⟩
  · next css => exact ⟨some css, (fun other he => by rw [Option.some.inj he]), h, rfl⟩
  · cases h

theorem exists_tryStyles {stylesheet : Option Loaded} {source : Text} {declaration : Declaration}
    (h : declaration ∈ written stylesheet source) :
    ∃ text, tryStyles stylesheet source = .ok text := by
  unfold written at h
  split at h
  · exact Cascade.exists_styled h
  · exact Cascade.exists_styled h
  · cases h

section
variable {words names : Text → Prop} (hw : ∀ word, words word → IsWord word)
  (hn : ∀ word, words word → names (Text.lower word)) {source : Text}
include hw hn

theorem sound_markup (h : Guard.Sound words source)
    (hnames : Document.AllNames (fun name => Guard.Sound names name → Guard.Sound words name)
      source) : Guard.Sound words (markup source).1 := by
  rw [markup, Document.withTables_eq]
  cases hp : Document.parse source with
  | error cause => exact h
  | ok doc =>
    have hlabels := Document.sound_labels_of_parse hw hn h hnames hp
    exact sound_render hw (sound_tabled hlabels)

variable (hmf : ∀ word, words word → ∃ rest, word = opener :: 'm' :: 'f' :: ':' :: rest)
  (h : Guard.Sound words source) {stylesheet : Option Loaded}
  (hcss : ∀ css, stylesheet = some (.ok css) → Guard.Sound words css)
  (hnames : Document.AllNames (fun name => Guard.Sound names name → Guard.Sound words name) source)
include hmf h hcss hnames

theorem sound_styles (name : Text)
    (hd : ∀ declaration ∈ written stylesheet source, opener ∉ declaration.property) :
    Guard.Sound words (styles name stylesheet source).1 := by
  unfold styles
  split
  · next text ht =>
    obtain ⟨extra, hextra, hstyled, hwritten⟩ := tryStyles_eq_ok ht
    rw [hwritten] at hd
    exact Cascade.sound_styled hw hmf hn h (fun css he => hcss css (hextra css he)) hnames hstyled hd
  · exact h

theorem stub_infix_styles (name : Text) {declaration : Declaration}
    (hd : declaration ∈ written stylesheet source) (ho : opener ∈ declaration.property) :
    stub <:+: (styles name stylesheet source).1 := by
  obtain ⟨text, ht⟩ := exists_tryStyles hd
  obtain ⟨extra, hextra, hstyled, hwritten⟩ := tryStyles_eq_ok ht
  rw [hwritten] at hd
  have hstub := Cascade.stub_infix_styled hw hmf hn h (fun css he => hcss css (hextra css he)) hnames
    hstyled hd ho
  rwa [styles, ht]

end

section
variable {nonce name source : Text} {stylesheet : Option Loaded}
  (issued : (Guard.fresh nonce).IsIssued) (clean : IsClean source)
  (hcss : ∀ css, stylesheet = some (.ok css) → IsClean css)
include issued clean hcss

/-- A template is rendered without private characters exactly if no property that is written into
an element holds a placeholder, and no placeholder has been changed by lower case. -/
theorem isClean_template_iff :
    IsClean (template nonce name stylesheet source).1 ↔
      (∀ declaration ∈ written stylesheet (tabled nonce source), opener ∉ declaration.property) ∧
        (Text.lower nonce = nonce ∨ ¬ Text.lower (Guard.fresh nonce).lead <:+:
          finished nonce name stylesheet source) := by
  set guard := ((Guard.fresh nonce).hide source).1 with hguard
  have hissued : guard.IsIssued := isIssued_hide issued source
  have hnonce : guard.nonce = nonce := by rw [hguard, hide_eq]; rfl
  have hlead : guard.lead = (Guard.fresh nonce).lead := by rw [hguard, hide_eq]; rfl
  have hw : ∀ word, guard.IsTrace word → IsWord word := isWord_of_isTrace hissued
  have hn : ∀ word, guard.IsTrace word → guard.IsTrace (Text.lower word) := isTrace_lower
  have hmf : ∀ word, guard.IsTrace word → ∃ rest, word = opener :: 'm' :: 'f' :: ':' :: rest :=
    starts_of_isTrace
  have hany : ∀ text, Document.AllNames (fun name => Guard.Sound guard.IsTrace name →
      Guard.Sound guard.IsTrace name) text := fun _ _ _ _ _ hname => hname
  have hsource : Guard.Sound guard.IsTrace (hidden nonce source) :=
    (sound_hidden nonce clean).mono fun word hword => .inl hword
  have htabled : Guard.Sound guard.IsTrace (tabled nonce source) :=
    sound_markup hw hn hsource (hany _)
  have hsheet : ∀ css, stylesheet = some (.ok css) → Guard.Sound guard.IsTrace css :=
    fun css he => (hcss css he).sound
  rw [fst_template, ← hguard]
  by_cases hd : ∀ declaration ∈ written stylesheet (tabled nonce source),
      opener ∉ declaration.property
  · have hfinished := sound_styles hw hn hmf htabled hsheet (hany _) name hd
    have hiff := hfinished.isClean_reveal_iff hissued (knowsClean_hide clean)
    rw [hnonce, hlead] at hiff
    exact hiff.trans (and_iff_right hd).symm
  · refine iff_of_false (fun hclean => hd fun declaration hm ho => hclean.1 ?_) fun h => hd h.1
    exact opener_mem_reveal_of_stub hissued
      (stub_infix_styles hw hn hmf htabled hsheet (hany _) name hm ho)

/-- A template is rendered without private characters if no property that is written into an element
holds a placeholder, and neither reading of its markup finds one in the name of an element. -/
theorem isClean_template
    (hd : ∀ declaration ∈ written stylesheet (tabled nonce source), opener ∉ declaration.property)
    (hhidden : Document.AllNames (opener ∉ ·) (hidden nonce source))
    (htabled : Document.AllNames (opener ∉ ·) (tabled nonce source)) :
    IsClean (template nonce name stylesheet source).1 := by
  set guard := ((Guard.fresh nonce).hide source).1 with hguard
  have hissued : guard.IsIssued := isIssued_hide issued source
  have hw : ∀ word, guard.IsPlaceholder word → IsWord word := isWord_of_isPlaceholder hissued
  have hn : ∀ word, guard.IsPlaceholder word → guard.IsTrace (Text.lower word) :=
    fun word hword => .inr ⟨word, hword, rfl⟩
  have hplain : ∀ {text}, Document.AllNames (opener ∉ ·) text → Document.AllNames (fun name =>
      Guard.Sound guard.IsTrace name → Guard.Sound guard.IsPlaceholder name) text := by
    intro text htext doc hp e he hname
    have ho : opener ∉ e.name := htext doc hp e he
    refine sound_of_notMem ho ?_
    rw [← List.append_nil e.name] at hname
    exact hname.closer_notMem (isWord_of_isTrace hissued) ho
  have hsheet : ∀ css, stylesheet = some (.ok css) → Guard.Sound guard.IsPlaceholder css :=
    fun css he => (hcss css he).sound
  have hmarkup : Guard.Sound guard.IsPlaceholder (tabled nonce source) :=
    sound_markup hw hn (sound_hidden nonce clean) (hplain hhidden)
  have hfinished := sound_styles hw hn starts_of_isPlaceholder hmarkup hsheet (hplain htabled) name hd
  exact hfinished.isClean_reveal (knowsClean_hide clean)

end
end Render
end MailTemplate
