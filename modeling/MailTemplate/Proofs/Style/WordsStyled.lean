import MailTemplate.Proofs.Markup.Relabel
import MailTemplate.Proofs.Markup.WordsPrinted
import MailTemplate.Proofs.Style.Merging
import MailTemplate.Proofs.Style.WordsRuled
import MailTemplate.Proofs.Text.Success

/-! Words in style attributes. The styles of an element are made of whole placeholders unless a property
that is written into them holds one; then they hold the beginning of a placeholder, and hold it as
long as anything else is written in. -/

namespace MailTemplate
open Guard

namespace Cascade

section
variable {words : Text → Prop} {fromRules own : List Declaration} {attr : Option Text}

theorem sound_joinWith {separator : Text} {parts : List Text} (hs : Guard.Sound words separator)
    (h : ∀ part ∈ parts, Guard.Sound words part) :
    Guard.Sound words (Text.joinWith separator parts) := by
  induction parts with
  | nil => exact .nil
  | cons first rest ih =>
    have hfirst := h first List.mem_cons_self
    have hlater := ih fun part hm => h part (List.mem_cons_of_mem _ hm)
    cases rest with
    | nil => exact hfirst
    | cons next rest => exact (hfirst.append hs).append hlater

theorem sound_write {merged : Merged}
    (h : ∀ pair ∈ merged, IsClean pair.1 ∧ Guard.Sound words pair.2) :
    Guard.Sound words (write merged) := by
  have hspace : Guard.Sound words [' '] := IsPlain.sound (by decide)
  have hcolon : Guard.Sound words [':', ' '] := IsPlain.sound (by decide)
  have hend : Guard.Sound words [';'] := IsPlain.sound (by decide)
  refine sound_joinWith hspace fun part hm => ?_
  obtain ⟨pair, hpair, rfl⟩ := List.mem_map.1 hm
  obtain ⟨hproperty, hvalue⟩ := h pair hpair
  exact ((hproperty.sound.append hcolon).append hvalue).append hend

def Safe (words : Text → Prop) (declaration : Declaration) : Prop :=
  declaration.Sound words ∧ opener ∉ declaration.property

theorem sound_write_order (hr : ∀ declaration ∈ fromRules, Safe words declaration)
    (ho : ∀ declaration ∈ own, Safe words declaration) :
    Guard.Sound words (write ((order fromRules own).foldl put [])) := by
  refine sound_write fun pair hm => ?_
  rcases mem_foldl_put hm with hm | ⟨declaration, hd, rfl⟩
  · cases hm
  · have hsafe : Safe words declaration := (mem_order.1 hd).elim (hr _) (ho _)
    obtain ⟨hcloser, hvalue⟩ := hsafe.1.value hsafe.2
    exact ⟨⟨hsafe.2, hcloser⟩, hvalue⟩

/-- The style of an element is made of whole placeholders, if no property from the rules holds one. -/
theorem sound_style (hw : ∀ word, words word → IsWord word)
    (hmf : ∀ word, words word → ∃ rest, word = opener :: 'm' :: 'f' :: ':' :: rest)
    (hr : ∀ declaration ∈ fromRules, Safe words declaration)
    (ha : ∀ text, attr = some text → Guard.Sound words text) :
    Guard.Sound words (style fromRules attr) := by
  have hnone : ∀ declaration ∈ ([] : List Declaration), Safe words declaration := fun _ hm => by
    cases hm
  cases attr with
  | none => exact sound_write_order hr hnone
  | some text =>
    have htext := ha text rfl
    rw [style]
    by_cases ho : opener ∈ text
    · have hspace : Guard.Sound words [' '] := IsPlain.sound (by decide)
      rw [holdsPlaceholder, decide_eq_true ho, if_pos rfl]
      exact ((sound_write_order hr hnone).append hspace).append htext
    · rw [holdsPlaceholder, decide_eq_false ho]
      refine sound_write_order hr fun declaration hm => ?_
      exact ⟨sound_block hw hmf htext declaration hm,
        fun hp => ho (Declaration.opener_mem_of_block hm hp)⟩

theorem stub_infix_write {declaration : Declaration} (hd : declaration ∈ fromRules)
    (hs : declaration.Sound words) (ho : opener ∈ declaration.property) :
    stub <:+: write ((order fromRules own).foldl put []) := by
  have hkey : declaration.property ∈ ((order fromRules own).foldl put []).map (·.1) := by
    rw [map_fst_foldl_put]
    exact .inr (List.mem_map_of_mem (mem_order.2 (.inl hd)))
  obtain ⟨⟨property, value⟩, hm, rfl⟩ := List.mem_map.1 hkey
  obtain ⟨front, hfront⟩ := hs.property ho
  have hstub : stub = [opener, 'm', 'f'] ++ [':', ' '] := by decide
  have hpart : stub <:+: declaration.property ++ [':', ' '] ++ value ++ [';'] := by
    refine ⟨front, value ++ [';'], ?_⟩
    rw [hfront, hstub]
    simp only [List.append_assoc]
  exact hpart.trans (Text.infix_joinWith (List.mem_map.2 ⟨_, hm, rfl⟩))

/-- A property with a placeholder in it leaves the beginning of that placeholder in the style. -/
theorem stub_infix_style {declaration : Declaration} (hd : declaration ∈ fromRules)
    (hs : declaration.Sound words) (ho : opener ∈ declaration.property) :
    stub <:+: style fromRules attr := by
  unfold style
  split
  · exact stub_infix_write hd hs ho
  · split
    · rw [List.append_assoc]
      exact (stub_infix_write hd hs ho).trans (List.prefix_append _ _).isInfix
    · exact stub_infix_write hd hs ho

/-- A style that holds a placeholder, or the beginning of one, stays as it is behind the new ones. -/
theorem stub_infix_style_of_attr {text : Text} (h : stub <:+: text) :
    stub <:+: style fromRules (some text) := by
  have ho : opener ∈ text := h.subset List.mem_cons_self
  rw [style, holdsPlaceholder, decide_eq_true ho, if_pos rfl]
  exact h.trans (List.suffix_append _ _).isInfix

end

def declares (rules : List Rule) (doc : Document) (node : NodeId) : List Declaration :=
  if (computed doc rules node).isSome then matching doc node rules else []

/-- The declarations of rules that the turns of some nodes write into them, one after the other. -/
def declaredBy (rules : List Rule) : Document → List NodeId → List Declaration
  | _, [] => []
  | doc, node :: nodes => declares rules doc node ++ declaredBy rules (apply rules doc node) nodes

section
variable {rules : List Rule} {doc : Document} {node : NodeId}

theorem apply_of_computed_eq_none (h : computed doc rules node = none) :
    apply rules doc node = doc := by rw [apply, h]

theorem apply_of_computed {value : Text} (h : computed doc rules node = some value) :
    ∃ element, doc.element? node = some element ∧
      value = style (declares rules doc node) (element.attr? "style".toList) ∧
        apply rules doc node = doc.setElement node (element.setAttr "style".toList value) := by
  obtain ⟨element, he, hv⟩ := computed_eq_some h
  have hdeclares : declares rules doc node = matching doc node rules := by
    rw [declares, h, Option.isSome_some, if_pos rfl]
  refine ⟨element, he, ?_, ?_⟩
  · rw [hdeclares, hv]
  · rw [apply, h, he]

theorem isGrove_apply {grove : Grove} (h : doc.IsGrove grove) :
    ∃ after, (apply rules doc node).IsGrove after ∧ after.ids = grove.ids := by
  cases hc : computed doc rules node with
  | none =>
    rw [apply_of_computed_eq_none hc]
    exact ⟨grove, h, rfl⟩
  | some value =>
    obtain ⟨element, he, -, happly⟩ := apply_of_computed hc
    rw [happly]
    exact ⟨_, h.setElement he, Grove.ids_put _ _ _⟩

theorem isGrove_foldl_apply {grove : Grove} (h : doc.IsGrove grove) (nodes : List NodeId) :
    ∃ after, (nodes.foldl (Cascade.apply rules) doc).IsGrove after ∧ after.ids = grove.ids := by
  induction nodes generalizing doc grove with
  | nil => exact ⟨grove, h, rfl⟩
  | cons node nodes ih =>
    obtain ⟨next, hnext, hids⟩ := isGrove_apply h
    obtain ⟨after, hafter, hids'⟩ := ih hnext
    exact ⟨after, hafter, hids'.trans hids⟩

section
variable {words : Text → Prop} (hw : ∀ word, words word → IsWord word)
  (hmf : ∀ word, words word → ∃ rest, word = opener :: 'm' :: 'f' :: ':' :: rest)
include hw hmf

theorem sound_apply (h : doc.Sound words)
    (hd : ∀ declaration ∈ declares rules doc node, Safe words declaration) :
    (apply rules doc node).Sound words := by
  cases hc : computed doc rules node with
  | none => rwa [apply_of_computed_eq_none hc]
  | some value =>
    obtain ⟨element, he, hv, happly⟩ := apply_of_computed hc
    have helement := h.element? he
    have hvalue : Guard.Sound words value := by
      rw [hv]
      exact sound_style hw hmf hd fun text ha => sound_attr? helement ha
    have hname : Guard.Sound words "style".toList := IsPlain.sound (by decide)
    have hnode := Document.lt_size_of_data? (Document.element?_eq_some_iff.1 he)
    rw [happly]
    intro k data hk
    rw [Document.data?_setElement hnode] at hk
    by_cases hkn : k = node
    · rw [if_pos hkn] at hk
      rw [← Option.some.inj hk]
      exact helement.setAttr hname hvalue
    · rw [if_neg hkn] at hk
      exact h k data hk

theorem sound_foldl_apply {nodes : List NodeId} (h : doc.Sound words)
    (hd : ∀ declaration ∈ declaredBy rules doc nodes, Safe words declaration) :
    (nodes.foldl (apply rules) doc).Sound words := by
  induction nodes generalizing doc with
  | nil => exact h
  | cons node nodes ih =>
    have hfirst := sound_apply hw hmf h fun declaration hm =>
      hd declaration (List.mem_append_left _ hm)
    exact ih hfirst fun declaration hm => hd declaration (List.mem_append_right _ hm)

end

def Spoilt (doc : Document) (node : NodeId) : Prop :=
  ∃ element value, doc.element? node = some element ∧
    element.attr? "style".toList = some value ∧ stub <:+: value

theorem spoilt_setElement {element : Element} {value : Text} (he : doc.element? node = some element)
    (hv : stub <:+: value) :
    Spoilt (doc.setElement node (element.setAttr "style".toList value)) node := by
  have hnode := Document.lt_size_of_data? (Document.element?_eq_some_iff.1 he)
  refine ⟨element.setAttr "style".toList value, value, ?_, Element.attr?_setAttr _ _ _, hv⟩
  rw [Document.element?_eq_some_iff, Document.data?_setElement hnode, if_pos rfl]

/-- A turn that writes a property with a placeholder in it spoils the style of its element. -/
theorem spoilt_apply {words : Text → Prop} {declaration : Declaration}
    (hd : declaration ∈ declares rules doc node) (hs : declaration.Sound words)
    (ho : opener ∈ declaration.property) : Spoilt (apply rules doc node) node := by
  cases hc : computed doc rules node with
  | none =>
    rw [declares, hc] at hd
    cases hd
  | some value =>
    obtain ⟨element, he, hv, happly⟩ := apply_of_computed hc
    rw [happly]
    refine spoilt_setElement he ?_
    rw [hv]
    exact stub_infix_style hd hs ho

theorem Spoilt.apply {k : NodeId} (h : Spoilt doc k) : Spoilt (apply rules doc node) k := by
  cases hc : computed doc rules node with
  | none => rwa [apply_of_computed_eq_none hc]
  | some value =>
    obtain ⟨element, he, hv, happly⟩ := apply_of_computed hc
    obtain ⟨spoilt, text, hk, htext, hstub⟩ := h
    rw [happly]
    by_cases hkn : k = node
    · subst hkn
      rw [hk] at he
      cases he
      refine spoilt_setElement hk ?_
      rw [hv, htext]
      exact stub_infix_style_of_attr hstub
    · have hnode := Document.lt_size_of_data? (Document.element?_eq_some_iff.1 he)
      refine ⟨spoilt, text, ?_, htext, hstub⟩
      rw [Document.element?_eq_some_iff, Document.data?_setElement hnode, if_neg hkn]
      exact Document.element?_eq_some_iff.1 hk

theorem Spoilt.foldl_apply {k : NodeId} (h : Spoilt doc k) (nodes : List NodeId) :
    Spoilt (nodes.foldl (Cascade.apply rules) doc) k := by
  induction nodes generalizing doc with
  | nil => exact h
  | cons node nodes ih => exact ih h.apply

theorem exists_spoilt_foldl_apply {words : Text → Prop} {nodes : List NodeId}
    {declaration : Declaration} (hd : declaration ∈ declaredBy rules doc nodes)
    (hs : declaration.Sound words) (ho : opener ∈ declaration.property) :
    ∃ node ∈ nodes, Spoilt (nodes.foldl (apply rules) doc) node := by
  induction nodes generalizing doc with
  | nil => cases hd
  | cons node nodes ih =>
    rcases List.mem_append.1 hd with hd | hd
    · exact ⟨node, List.mem_cons_self, (spoilt_apply hd hs ho).foldl_apply nodes⟩
    · obtain ⟨k, hm, hk⟩ := ih hd
      exact ⟨k, List.mem_cons_of_mem _ hm, hk⟩

theorem Spoilt.infix_serialize {grove : Grove} (h : Spoilt doc node) (hg : doc.IsGrove grove)
    (hm : node ∈ grove.ids) : stub <:+: doc.serialize := by
  obtain ⟨element, value, he, hv, hstub⟩ := h
  have hlabel := hg.mem_labels hm (Document.element?_eq_some_iff.1 he)
  exact (Element.infix_opening hv (by decide) hstub).trans (Forest.infix_render hlabel)

end

/-- The declarations of rules that are written into the elements of a text; none, if the text or a
stylesheet cannot be read. -/
def written (source : Text) (extra : Option Text) : List Declaration :=
  match Document.parse source with
  | .error _ => []
  | .ok doc => match rulesOf doc extra with
    | .error _ => []
    | .ok rules => declaredBy rules doc doc.elements

section
variable {source text : Text} {extra : Option Text} {doc : Document} {rules : List Rule}

theorem rulesOf_eq_ok (h : rulesOf doc extra = .ok rules) :
    ∃ first own, (extra = none ∧ first = [] ∨ ∃ css, extra = some css ∧ Sheet.parse css = .ok first) ∧
      ((doc.elementsNamed "style".toList).mapM fun node => Sheet.parse (doc.text node)) = .ok own ∧
        rules = first ++ own.flatten := by
  unfold rulesOf at h
  cases extra with
  | none =>
    obtain ⟨first, hfirst, h⟩ := bind_eq_ok_iff.1 h
    obtain ⟨own, hown, h⟩ := bind_eq_ok_iff.1 h
    cases hfirst
    cases h
    exact ⟨[], own, .inl ⟨rfl, rfl⟩, hown, rfl⟩
  | some css =>
    obtain ⟨first, hfirst, h⟩ := bind_eq_ok_iff.1 h
    obtain ⟨own, hown, h⟩ := bind_eq_ok_iff.1 h
    cases h
    exact ⟨first, own, .inr ⟨css, rfl, hfirst⟩, hown, rfl⟩

theorem mem_rulesOf (h : rulesOf doc extra = .ok rules) {rule : Rule} (hm : rule ∈ rules) :
    ∃ css found, (extra = some css ∨ ∃ node, css = doc.text node) ∧ Sheet.parse css = .ok found ∧
      rule ∈ found := by
  obtain ⟨first, own, hfirst, hown, rfl⟩ := rulesOf_eq_ok h
  rcases List.mem_append.1 hm with hm | hm
  · rcases hfirst with ⟨-, rfl⟩ | ⟨css, he, hp⟩
    · cases hm
    · exact ⟨css, first, .inl he, hp, hm⟩
  · obtain ⟨found, hf, hr⟩ := List.mem_flatten.1 hm
    obtain ⟨node, -, hp⟩ := mem_of_mapM_eq_ok hown hf
    exact ⟨_, found, .inr ⟨node, rfl⟩, hp, hr⟩

theorem styled_eq_ok (h : styled source extra = .ok text) :
    ∃ doc rules, Document.parse source = .ok doc ∧ rulesOf doc extra = .ok rules ∧
      (rules = [] ∧ text = source ∨ text = (applyAll rules doc).serialize) := by
  obtain ⟨doc, hp, h⟩ := bind_eq_ok_iff.1 h
  obtain ⟨rules, hr, h⟩ := bind_eq_ok_iff.1 h
  refine ⟨doc, rules, mapError_eq_ok_iff.1 hp, hr, ?_⟩
  cases rules with
  | nil =>
    cases h
    exact .inl ⟨rfl, rfl⟩
  | cons rule rules =>
    cases h
    exact .inr rfl

theorem exists_styled {declaration : Declaration} (h : declaration ∈ written source extra) :
    ∃ text, styled source extra = .ok text := by
  unfold written at h
  split at h
  · cases h
  · next doc hp =>
    split at h
    · cases h
    · next rules hr =>
      have hdoc : (Document.parse source).mapError StyleError.markup = .ok doc :=
        mapError_eq_ok_iff.2 hp
      cases rules with
      | nil => exact ⟨source, bind_eq_ok_iff.2 ⟨doc, hdoc, bind_eq_ok_iff.2 ⟨_, hr, rfl⟩⟩⟩
      | cons rule rules =>
        exact ⟨_, bind_eq_ok_iff.2 ⟨doc, hdoc, bind_eq_ok_iff.2 ⟨rule :: rules, hr, rfl⟩⟩⟩

theorem mem_declares {node : NodeId} {declaration : Declaration}
    (h : declaration ∈ declares rules doc node) :
    ∃ rule ∈ rules, declaration ∈ rule.declarations := by
  unfold declares at h
  split at h
  · exact mem_matching h
  · cases h

theorem mem_declaredBy {nodes : List NodeId} {declaration : Declaration}
    (h : declaration ∈ declaredBy rules doc nodes) :
    ∃ rule ∈ rules, declaration ∈ rule.declarations := by
  induction nodes generalizing doc with
  | nil => cases h
  | cons node nodes ih => exact (List.mem_append.1 h).elim mem_declares ih

section
variable {words names : Text → Prop} (hw : ∀ word, words word → IsWord word)
  (hmf : ∀ word, words word → ∃ rest, word = opener :: 'm' :: 'f' :: ':' :: rest)
include hw hmf

theorem sound_rulesOf (h : doc.Sound words) (he : ∀ css, extra = some css → Guard.Sound words css)
    (hr : rulesOf doc extra = .ok rules) :
    ∀ rule ∈ rules, ∀ declaration ∈ rule.declarations, declaration.Sound words := by
  intro rule hm
  obtain ⟨css, found, hcss, hp, hfound⟩ := mem_rulesOf hr hm
  have hsound : Guard.Sound words css := by
    rcases hcss with hextra | ⟨node, rfl⟩
    · exact he css hextra
    · exact h.text node
  exact sound_sheet hw hmf hsound hp rule hfound

variable (hn : ∀ word, words word → names (Text.lower word)) (h : Guard.Sound words source)
  (he : ∀ css, extra = some css → Guard.Sound words css)
  (hnames : Document.AllNames (fun name => Guard.Sound names name → Guard.Sound words name) source)
  (ht : styled source extra = .ok text)
include hn h he hnames ht

theorem sound_styled (hd : ∀ declaration ∈ written source extra, opener ∉ declaration.property) :
    Guard.Sound words text := by
  obtain ⟨doc, rules, hp, hr, htext⟩ := styled_eq_ok ht
  have hdoc := Document.sound_of_labels hp (Document.sound_labels_of_parse hw hn h hnames hp)
  rw [written, hp] at hd
  simp only [hr] at hd
  rcases htext with ⟨-, rfl⟩ | rfl
  · exact h
  · obtain ⟨grove, hg⟩ := Document.exists_isGrove hp
    obtain ⟨after, hafter, -⟩ := isGrove_foldl_apply hg doc.elements
    have hrules := sound_rulesOf hw hmf hdoc he hr
    have hresult : (applyAll rules doc).Sound words := by
      refine sound_foldl_apply hw hmf hdoc fun declaration hm => ⟨?_, hd declaration hm⟩
      obtain ⟨rule, hrule, hdeclared⟩ := mem_declaredBy hm
      exact hrules rule hrule declaration hdeclared
    refine sound_render hw fun node hm => ?_
    have hlabels : (applyAll rules doc).labels = _ := hafter.labels
    rw [Document.labels] at hlabels
    rw [hlabels] at hm
    obtain ⟨id, -, hdata⟩ := List.mem_filterMap.1 hm
    exact hresult id node hdata

/-- A property that is written with a placeholder in it leaves the beginning of that placeholder. -/
theorem stub_infix_styled {declaration : Declaration} (hd : declaration ∈ written source extra)
    (ho : opener ∈ declaration.property) : stub <:+: text := by
  obtain ⟨doc, rules, hp, hr, htext⟩ := styled_eq_ok ht
  have hdoc := Document.sound_of_labels hp (Document.sound_labels_of_parse hw hn h hnames hp)
  rw [written, hp] at hd
  simp only [hr] at hd
  obtain ⟨rule, hm, hdeclared⟩ := mem_declaredBy hd
  rcases htext with ⟨rfl, -⟩ | rfl
  · cases hm
  · obtain ⟨grove, hg⟩ := Document.exists_isGrove hp
    obtain ⟨after, hafter, hids⟩ := isGrove_foldl_apply hg doc.elements
    have hsound := sound_rulesOf hw hmf hdoc he hr rule hm declaration hdeclared
    obtain ⟨node, hnode, hspoilt⟩ := exists_spoilt_foldl_apply hd hsound ho
    refine hspoilt.infix_serialize hafter ?_
    rw [hg.elements] at hnode
    obtain ⟨pair, hpair, rfl⟩ := List.mem_map.1 hnode
    rw [hids]
    exact Grove.mem_ids_of_mem_elements hpair

end

end
end Cascade
end MailTemplate
