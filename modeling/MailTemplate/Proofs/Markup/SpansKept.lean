import MailTemplate.Proofs.Markup.Lexemes
import MailTemplate.Proofs.Markup.Tables
import MailTemplate.Render

/-! The spans that the tables leave. Every span of a text stands in one part of its markup, and the text
with tables has the spans of the parts that are written again, each of them once; what stands in end
tags, and in the attributes that a custom element does not hand on, is gone. -/

namespace MailTemplate
open Guard

def Element.value? (element : Element) (name : Text) : Option Text :=
  (element.attributes.find? (Attribute.isNamed name)).bind (·.value)

def CustomTag.carries : CustomTag → List Text
  | container => ["class".toList]
  | row => ["class".toList, "background".toList]
  | columns => ["class".toList, "padding".toList]
  | button => ["href".toList, "class".toList, "style".toList]

namespace NodeData

/-- The values that a node is written with, once it has become part of a table. -/
def values : NodeData → List Text
  | element e => match CustomTag.of? e with
    | some tag => tag.carries.filterMap e.value?
    | none => e.attributes.filterMap (·.value)
  | _ => []

/-- The parts that a node is written with. -/
def kept : NodeData → List Text
  | element e => match CustomTag.of? e with
    | some tag => tag.carries.filterMap e.value?
    | none => (element e).parts
  | node => node.parts

/-- The parts that a node is not written with. -/
def lost (node : NodeData) : List Text := node.parts.diff node.kept

end NodeData

namespace Document

variable (doc : Document)

def labels : List NodeData := doc.toForest.labels

/-- The parts of the markup that are written again. -/
def kept : List Text := doc.labels.flatMap NodeData.kept

/-- The parts of the markup that are not written again. -/
def lost : List Text := doc.labels.flatMap NodeData.lost

theorem labels_ofForest (forest : Forest) : (ofForest forest).labels = forest.labels := by
  rw [labels, toForest_ofForest]

end Document

theorem Attribute.isNamed_of_isNamed {attr : Attribute} {name other : Text}
    (h : attr.isNamed name = true) (ho : attr.isNamed other = true) :
    Text.lower name = Text.lower other := by
  simp only [isNamed, Text.equalIgnoringCase, beq_iff_eq] at h ho
  rw [← h, ho]

theorem subperm_parts {names : List Text} {attributes : List Attribute}
    (hn : (names.map Text.lower).Nodup) :
    (names.filterMap fun name =>
      (attributes.find? (Attribute.isNamed name)).bind (·.value)).Subperm
        (attributes.flatMap Attribute.parts) := by
  induction attributes generalizing names with
  | nil =>
    have hnil : (names.filterMap fun name =>
        (([] : List Attribute).find? (Attribute.isNamed name)).bind (·.value)) = [] := by
      simp
    rw [hnil]
    exact List.nil_subperm
  | cons attr attributes ih =>
    by_cases hfound : ∃ name ∈ names, attr.isNamed name = true
    · obtain ⟨name, hm, hname⟩ := hfound
      obtain ⟨front, back, rfl⟩ := List.append_of_mem hm
      have hperm : (front ++ name :: back).Perm (name :: (front ++ back)) := List.perm_middle
      have hnodup : ((name :: (front ++ back)).map Text.lower).Nodup :=
        (hperm.map Text.lower).nodup_iff.1 hn
      rw [List.map_cons, List.nodup_cons] at hnodup
      have hother : ∀ other ∈ front ++ back, attr.isNamed other = false := by
        intro other ho
        refine Bool.eq_false_iff.2 fun he => hnodup.1 ?_
        rw [Attribute.isNamed_of_isNamed hname he]
        exact List.mem_map_of_mem ho
      have hrest : ((front ++ back).filterMap fun other =>
          ((attr :: attributes).find? (Attribute.isNamed other)).bind (·.value)) =
            (front ++ back).filterMap fun other =>
              (attributes.find? (Attribute.isNamed other)).bind (·.value) := by
        refine List.filterMap_congr fun other ho => ?_
        rw [List.find?_cons_of_neg (by simp [hother other ho])]
      have hsub := ih hnodup.2
      refine (hperm.filterMap _).subperm.trans ?_
      rw [List.filterMap_cons, hrest, List.find?_cons_of_pos hname, Option.bind_some,
        List.flatMap_cons]
      cases hv : attr.value with
      | none => exact hsub.trans (List.suffix_append _ _).sublist.subperm
      | some value =>
        have hparts : attr.parts = [attr.name, value] := by rw [Attribute.parts, hv]; rfl
        rw [hparts]
        exact ((List.subperm_cons value).2 hsub).trans (List.suffix_cons _ _).sublist.subperm
    · have hrest : (names.filterMap fun other =>
          ((attr :: attributes).find? (Attribute.isNamed other)).bind (·.value)) =
            names.filterMap fun other =>
              (attributes.find? (Attribute.isNamed other)).bind (·.value) := by
        refine List.filterMap_congr fun other ho => ?_
        have hneg : ¬ attr.isNamed other = true := fun he => hfound ⟨other, ho, he⟩
        rw [List.find?_cons_of_neg hneg]
      rw [hrest, List.flatMap_cons]
      exact (ih hn).trans (List.suffix_append _ _).sublist.subperm

theorem CustomTag.nodup_carries (tag : CustomTag) : (tag.carries.map Text.lower).Nodup := by
  cases tag <;> decide

namespace NodeData

theorem subperm_kept (node : NodeData) : node.kept.Subperm node.parts := by
  cases node with
  | document => exact List.Subperm.refl _
  | leaf l => exact List.Subperm.refl _
  | element e =>
    cases ho : CustomTag.of? e with
    | some tag =>
      simp only [kept, ho]
      exact subperm_parts tag.nodup_carries
    | none =>
      simp only [kept, ho]
      exact List.Subperm.refl _

theorem perm_parts (node : NodeData) : (node.kept ++ node.lost).Perm node.parts :=
  List.subperm_append_diff_self_of_count_le (List.subperm_ext_iff.1 node.subperm_kept)

end NodeData

theorem CustomTag.attributes_replacement (tag : CustomTag) (read : Text → Option Text) :
    (tag.replacement read).attributes =
      (tag.attributes read).map fun (name, value) => ⟨name, some value⟩ := by
  unfold replacement attributes carried
  cases tag with
  | container => cases read "class".toList <;> rfl
  | row => cases read "class".toList <;> cases read "background".toList <;> rfl
  | columns => cases read "class".toList <;> rfl
  | button => cases read "class".toList <;> rfl

namespace Guard

section
variable {guard : Guard} {kinds : SpanKind → Prop} {spans more : List Span} {text : Text}

def IsPlain (text : Text) : Prop := '{' ∉ text ∧ opener ∉ text ∧ closer ∉ text

instance (text : Text) : Decidable (IsPlain text) :=
  inferInstanceAs (Decidable ('{' ∉ text ∧ opener ∉ text ∧ closer ∉ text))

theorem IsPlain.shows (h : IsPlain text) : guard.Shows kinds [] text :=
  shows_of_notMem h.1 h.2.1 h.2.2

theorem Shows.between {front back : Text} (h : guard.Shows kinds spans text)
    (hf : IsPlain front) (hb : IsPlain back) :
    guard.Shows kinds spans (front ++ text ++ back) := by
  have hs := (hf.shows.append h).append hb.shows
  rwa [List.nil_append, List.append_nil] at hs

theorem shows_attribute {name value : Text} (hn : guard.Shows kinds more name)
    (hv : guard.Shows kinds spans (Attribute.escape value)) :
    guard.Shows kinds (more ++ spans) (' ' :: Attribute.text ⟨name, some value⟩) := by
  have hspace : guard.Shows kinds [] [' '] := IsPlain.shows (by decide)
  have hquoted : guard.Shows kinds spans (['=', '"'] ++ Attribute.escape value ++ ['"']) :=
    hv.between (by decide) (by decide)
  have hs := hspace.append (hn.append hquoted)
  simpa [Attribute.text] using hs

end

section
variable {guard : Guard} {kinds : SpanKind → Prop} {e : Element} {name : Text}

def handedOn (guard : Guard) (e : Element) (name : Text) : List Span :=
  (e.value? name).toList.flatMap guard.spansOf

def ShowsValues (guard : Guard) (kinds : SpanKind → Prop) (values : List Text) : Prop :=
  ∀ value ∈ values, guard.Shows kinds (guard.spansOf value) (Attribute.escape value)

def textOf (pairs : List (Text × Text)) : Text :=
  Attribute.textAll (pairs.map fun (name, value) => ⟨name, some value⟩)

theorem textOf_append (front back : List (Text × Text)) :
    textOf (front ++ back) = textOf front ++ textOf back := by
  simp [textOf, Attribute.textAll]

theorem flatMap_filterMap {α β γ : Type} (f : α → Option β) (g : β → List γ) (l : List α) :
    (l.filterMap f).flatMap g = l.flatMap fun a => (f a).toList.flatMap g := by
  induction l with
  | nil => rfl
  | cons a l ih =>
    cases h : f a with
    | none => simp [h, ih]
    | some b => simp [h, ih]

theorem handedOn_of_attr?_eq_none (h : e.attr? name = none) : handedOn guard e name = [] := by
  rw [Element.attr?, Option.map_eq_none_iff] at h
  rw [handedOn, Element.value?, h]
  rfl

theorem shows_of_attr? {value : Text} (hv : ShowsValues guard kinds (e.value? name).toList)
    (h : e.attr? name = some value) :
    guard.Shows kinds (handedOn guard e name) (Attribute.escape value) := by
  rw [Element.attr?, Option.map_eq_some_iff] at h
  obtain ⟨attr, hfound, rfl⟩ := h
  have hvalue : e.value? name = attr.value := by rw [Element.value?, hfound]; rfl
  rw [hvalue] at hv
  rw [handedOn, hvalue]
  cases hval : attr.value with
  | none => exact shows_nil
  | some value =>
    have hs := hv value (by simp [hval])
    simpa using hs

theorem shows_pair {spans : List Span} {value : Text} (hn : IsPlain name)
    (hv : guard.Shows kinds spans (Attribute.escape value)) :
    guard.Shows kinds spans (textOf [(name, value)]) := by
  have hs := shows_attribute hn.shows hv
  simpa [textOf] using hs

theorem shows_carried (hn : IsPlain name)
    (hv : ShowsValues guard kinds (e.value? name).toList) :
    guard.Shows kinds (handedOn guard e name) (textOf (CustomTag.carried e.attr? name)) := by
  unfold CustomTag.carried
  cases hr : e.attr? name with
  | none =>
    rw [handedOn_of_attr?_eq_none hr]
    exact shows_nil
  | some value => exact shows_pair hn (shows_of_attr? hv hr)

theorem shows_getD {default : Text} (hd : IsPlain (Attribute.escape default))
    (hv : ShowsValues guard kinds (e.value? name).toList) :
    guard.Shows kinds (handedOn guard e name)
      (Attribute.escape ((e.attr? name).getD default)) := by
  cases hr : e.attr? name with
  | none =>
    rw [handedOn_of_attr?_eq_none hr]
    exact hd.shows
  | some value => exact shows_of_attr? hv hr

theorem showsValues_of_carries {tag : CustomTag} (hm : name ∈ tag.carries)
    (hv : ShowsValues guard kinds (tag.carries.filterMap e.value?)) :
    ShowsValues guard kinds (e.value? name).toList := by
  intro value hvalue
  refine hv value (List.mem_filterMap.2 ⟨name, hm, ?_⟩)
  simpa using hvalue

theorem escape_append (front back : Text) :
    Attribute.escape (front ++ back) = Attribute.escape front ++ Attribute.escape back :=
  List.flatMap_append

/-- The new element is written with the spans of the values that the old one hands on. -/
theorem shows_attributes (tag : CustomTag)
    (hv : ShowsValues guard kinds (tag.carries.filterMap e.value?)) :
    guard.Shows kinds ((tag.carries.filterMap e.value?).flatMap guard.spansOf)
      (textOf (tag.attributes e.attr?)) := by
  have hread : ∀ {name}, name ∈ tag.carries →
      ShowsValues guard kinds (e.value? name).toList := fun hm => showsValues_of_carries hm hv
  rw [flatMap_filterMap]
  change guard.Shows kinds (tag.carries.flatMap (handedOn guard e)) _
  have hclass : "class".toList ∈ tag.carries := by cases tag <;> decide
  have hcarried := shows_carried (by decide : IsPlain "class".toList) (hread hclass)
  cases tag with
  | container =>
    have hfixed : guard.Shows kinds [] (textOf [("align".toList, "center".toList),
        ("width".toList, "100%".toList), ("cellpadding".toList, ['0']),
        ("cellspacing".toList, ['0']), ("border".toList, ['0'])]) :=
      IsPlain.shows (by decide)
    rw [CustomTag.attributes, textOf_append]
    have hs := hfixed.append hcarried
    simpa [CustomTag.carries] using hs
  | row =>
    rw [CustomTag.attributes, textOf_append]
    have hbackground : guard.Shows kinds (handedOn guard e "background".toList)
        (textOf ((e.attr? "background".toList).elim [] fun background =>
          [("style".toList, "background:".toList ++ background)])) := by
      cases hr : e.attr? "background".toList with
      | none =>
        rw [handedOn_of_attr?_eq_none hr]
        exact shows_nil
      | some background =>
        have hvalue := shows_of_attr? (hread (by decide)) hr
        have hstyle := (IsPlain.shows (by decide : IsPlain "background:".toList)).append hvalue
        refine shows_pair (by decide) ?_
        rw [escape_append]
        exact hstyle
    have hs := hcarried.append hbackground
    simpa [CustomTag.carries] using hs
  | columns =>
    rw [CustomTag.attributes, textOf_append]
    have hpadding : guard.Shows kinds (handedOn guard e "padding".toList)
        (Attribute.escape ((e.attr? "padding".toList).getD ['0'])) :=
      shows_getD (by decide) (hread (by decide))
    have hstyle := hpadding.between (by decide : IsPlain "padding: ".toList)
      (by decide : IsPlain [';'])
    have hpair : guard.Shows kinds (handedOn guard e "padding".toList) (textOf [("style".toList,
        "padding: ".toList ++ (e.attr? "padding".toList).getD ['0'] ++ [';'])]) := by
      refine shows_pair (by decide) ?_
      rw [escape_append, escape_append]
      exact hstyle
    have hs := hcarried.append hpair
    simpa [CustomTag.carries] using hs
  | button =>
    rw [CustomTag.attributes, textOf_append, textOf_append]
    have hhref : guard.Shows kinds (handedOn guard e "href".toList)
        (textOf [("href".toList, (e.attr? "href".toList).getD ['#'])]) :=
      shows_pair (by decide) (shows_getD (by decide) (hread (by decide)))
    have hstyle : guard.Shows kinds (handedOn guard e "style".toList)
        (textOf [("style".toList, (e.attr? "style".toList).getD CustomTag.buttonStyle)]) :=
      shows_pair (by decide) (shows_getD (by decide +kernel) (hread (by decide)))
    have hs := (hhref.append hcarried).append hstyle
    simpa [CustomTag.carries] using hs

end

/-- A node whose parts show the spans that they stand for, where they are written. -/
structure Writes (guard : Guard) (kinds : SpanKind → Prop) (node : NodeData) : Prop where
  parts : ∀ part ∈ node.kept, guard.Shows kinds (guard.spansOf part) part
  values : ShowsValues guard kinds node.values
  plain : ∀ e, node = .element e → IsPlain e.name

section
variable {guard : Guard} {kinds : SpanKind → Prop} {e : Element} {spans more : List Span}

theorem shows_textAll {attributes : List Attribute}
    (hparts : ∀ part ∈ attributes.flatMap Attribute.parts,
      guard.Shows kinds (guard.spansOf part) part)
    (hv : ShowsValues guard kinds (attributes.filterMap (·.value))) :
    guard.Shows kinds ((attributes.flatMap Attribute.parts).flatMap guard.spansOf)
      (Attribute.textAll attributes) := by
  induction attributes with
  | nil => exact shows_nil
  | cons attr attributes ih =>
    have hlater := ih (fun part hm => hparts part (List.mem_append_right _ hm)) fun value hm => by
      refine hv value ?_
      cases hval : attr.value <;> simp_all
    have hname := hparts attr.name (List.mem_append_left _ List.mem_cons_self)
    have hattr : guard.Shows kinds (attr.parts.flatMap guard.spansOf) (' ' :: attr.text) := by
      obtain ⟨name, value⟩ := attr
      cases value with
      | none =>
        have hs := (IsPlain.shows (by decide : IsPlain [' '])).append hname
        simpa [Attribute.parts, Attribute.text] using hs
      | some value =>
        have hs := shows_attribute hname (hv value (by simp))
        simpa [Attribute.parts] using hs
    have hs := hattr.append hlater
    simpa using hs

/-- An element is written up to its closing brace with the spans of what it keeps. -/
theorem Writes.shows_opening (h : guard.Writes kinds (.element e)) (ho : CustomTag.of? e = none) :
    guard.Shows kinds ((NodeData.element e).kept.flatMap guard.spansOf) e.opening := by
  obtain ⟨hparts, hvalues, hplain⟩ := h
  simp only [NodeData.kept, NodeData.values, NodeData.parts, ho] at hparts hvalues ⊢
  have hname : guard.Shows kinds [] ('<' :: e.name) := by
    have hbrace : guard.Shows kinds [] ['<'] := IsPlain.shows (by decide)
    exact hbrace.append (hplain e rfl).shows
  rw [Element.opening_eq]
  exact hname.append (shows_textAll hparts hvalues)

theorem Writes.shows_replacement {tag : CustomTag} (h : guard.Writes kinds (.element e))
    (ho : CustomTag.of? e = some tag) :
    guard.Shows kinds ((NodeData.element e).kept.flatMap guard.spansOf)
      (tag.replacement e.attr?).opening := by
  obtain ⟨-, hvalues, -⟩ := h
  simp only [NodeData.kept, NodeData.values, ho] at hvalues ⊢
  have htarget : IsPlain ('<' :: tag.target) := by cases tag <;> decide
  rw [Element.opening_eq, CustomTag.attributes_replacement, CustomTag.name_replacement]
  exact htarget.shows.append (shows_attributes tag hvalues)

theorem Shows.eq_nil (h : guard.Shows kinds spans []) : spans = [] := by
  obtain ⟨pieces, hw, hp, -⟩ := h
  rw [hw.eq_nil] at hp
  exact hp.symm.eq_nil

theorem shows_wrap {forest : Forest} (hname : IsPlain e.name)
    (ho : guard.Shows kinds spans e.opening) (hc : guard.Shows kinds more forest.render) :
    guard.Shows kinds (spans ++ more) (Forest.wrap e forest.isEmpty forest.render) := by
  have hempty : forest.isEmpty = true → more = [] := by
    intro he
    cases forest with
    | nil => exact hc.eq_nil
    | leaf _ _ => cases he
    | element _ _ _ => cases he
  have hclose : guard.Shows kinds [] " />".toList := IsPlain.shows (by decide)
  have hbrace : guard.Shows kinds [] ['>'] := IsPlain.shows (by decide)
  have hstop : guard.Shows kinds [] ['<', '/'] := IsPlain.shows (by decide)
  unfold Forest.wrap
  split
  · next he =>
    rw [Bool.and_eq_true] at he
    rw [hempty he.2]
    exact ho.append hclose
  · split
    · next he =>
      rw [Bool.and_eq_true] at he
      rw [hempty he.2]
      exact ho.append hbrace
    · have hs := ((((ho.append hbrace).append hc).append hstop).append hname.shows).append hbrace
      simpa using hs

theorem shows_tabled {forest : Forest} (h : ∀ node ∈ forest.labels, guard.Writes kinds node) :
    guard.Shows kinds ((forest.labels.flatMap NodeData.kept).flatMap guard.spansOf)
      forest.tabled.render := by
  induction forest with
  | nil => exact shows_nil
  | leaf l next ih =>
    have hleaf := (h (.leaf l) List.mem_cons_self).parts l.source List.mem_cons_self
    have hs := hleaf.append (ih fun node hm => h node (List.mem_cons_of_mem _ hm))
    rw [Forest.tabled, Forest.render]
    simpa [Forest.labels, NodeData.kept, NodeData.parts] using hs
  | element e children next ihc ihn =>
    have he := h (.element e) List.mem_cons_self
    have hchildren := ihc fun node hm =>
      h node (List.mem_cons_of_mem _ (List.mem_append_left _ hm))
    have hnext := ihn fun node hm =>
      h node (List.mem_cons_of_mem _ (List.mem_append_right _ hm))
    rw [Forest.labels, List.flatMap_cons, List.flatMap_append, List.flatMap_append,
      List.flatMap_append, ← List.append_assoc, Forest.tabled]
    cases ho : CustomTag.of? e with
    | none => exact (shows_wrap (he.plain e rfl) (he.shows_opening ho) hchildren).append hnext
    | some tag =>
      have hplain : IsPlain (tag.replacement e.attr?).name := by
        rw [CustomTag.name_replacement]
        cases tag <;> decide
      have hcontent : guard.Shows kinds
          ((children.labels.flatMap NodeData.kept).flatMap guard.spansOf)
            (tag.inside children.tabled).render := by
        unfold CustomTag.inside
        by_cases hc : tag = .container
        · have hbody : guard.Shows kinds [] (Element.named "tbody".toList).opening :=
            IsPlain.shows (by decide)
          have hs := (shows_wrap (by decide) hbody hchildren).append shows_nil
          rw [if_pos hc]
          simpa [Forest.render] using hs
        · rw [if_neg hc]
          exact hchildren
      exact (shows_wrap hplain (he.shows_replacement ho) hcontent).append hnext

end
end Guard
end MailTemplate
