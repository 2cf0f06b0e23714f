import MailTemplate.Proofs.Style.Items

/-! How selectors are written: compounds with gaps between them. Exactly the texts of written
selectors are read, each as the conditions that are written in it, and no text is written in two
ways. -/

namespace MailTemplate
namespace Selector

structure Part where
  gap : Text
  items : List Item
  deriving Repr, DecidableEq

namespace Part

def text (part : Part) : Text := part.gap ++ itemsText part.items

def combinator (part : Part) : Combinator := if '>' ∈ part.gap then .child else .descendant

def compound (part : Part) : Compound := .ofConditions (part.items.map Item.condition)

structure IsLegible (part : Part) : Prop where
  gap : ∀ c ∈ part.gap, isGapChar c = true
  items : IsCompound part.items
  items_ne_nil : part.items ≠ []

instance (part : Part) : Decidable part.IsLegible :=
  decidable_of_iff (part.gap.all isGapChar = true ∧ IsCompound part.items ∧ part.items ≠ [])
    ⟨fun h => ⟨List.all_eq_true.1 h.1, h.2.1, h.2.2⟩,
      fun h => ⟨List.all_eq_true.2 h.gap, h.items, h.items_ne_nil⟩⟩

end Part

def partsText (parts : List Part) (tail : Text) : Text := parts.flatMap Part.text ++ tail

/-- The parts are legible, there is a gap before all but the first one, and nothing but white space
behind the last one. -/
structure AreLegible (parts : List Part) (tail : Text) : Prop where
  each : ∀ part ∈ parts, part.IsLegible
  gaps : ∀ part ∈ parts.tail, part.gap ≠ []
  space : ∀ c ∈ tail, Text.isSpace c = true

instance (parts : List Part) (tail : Text) : Decidable (AreLegible parts tail) :=
  decidable_of_iff ((∀ part ∈ parts, part.IsLegible) ∧ (∀ part ∈ parts.tail, part.gap ≠ []) ∧
    tail.all Text.isSpace = true)
    ⟨fun h => ⟨h.1, h.2.1, List.all_eq_true.1 h.2.2⟩,
      fun h => ⟨h.each, h.gaps, List.all_eq_true.2 h.space⟩⟩

theorem AreLegible.of_cons {part : Part} {parts : List Part} {tail : Text}
    (h : AreLegible (part :: parts) tail) : AreLegible parts tail :=
  ⟨(List.forall_mem_cons.1 h.each).2, fun part hm => h.gaps part (List.mem_of_mem_tail hm), h.space⟩

section
variable {combinator : Combinator} {source rest gap : Text} {items : List Item}
  {parts : List (Combinator × Compound)}

theorem parts?_nil : parts? .descendant [] = some [] := by
  unfold parts?
  rfl

theorem parts?_nil_child : parts? .child [] = none := by
  unfold parts?
  rfl

theorem parts?_gap (h : ∀ c ∈ gap, isGapChar c = true) :
    parts? combinator (gap ++ source) =
      parts? (if '>' ∈ gap then .child else combinator) source := by
  induction gap generalizing combinator with
  | nil => rfl
  | cons c gap ih =>
    obtain ⟨hc, hgap⟩ := List.forall_mem_cons.1 h
    rw [List.cons_append]
    conv => lhs; unfold parts?
    by_cases hs : Text.isSpace c = true
    · have hne : ¬ '>' = c := by
        rintro rfl
        cases hs
      simp [hs, ih hgap, hne]
    · obtain rfl : c = '>' := by simpa [isGapChar, hs] using hc
      simp [hs, ih hgap]

theorem parts?_cons {c : Char} (hc : isGapChar c = false) :
    parts? combinator (c :: source) = (Condition.scanAll? true (c :: source)).bind
      fun (conditions, rest) =>
        (parts? .descendant rest).map ((combinator, .ofConditions conditions) :: ·) := by
  rw [isGapChar, Bool.or_eq_false_iff, beq_eq_false_iff_ne] at hc
  conv => lhs; unfold parts?
  simp only [hc.1, Bool.false_eq_true, dif_neg hc.2, dite_false]
  split
  · next hnone => rw [hnone, Option.bind_none]
  · next conditions rest hsome => rw [hsome, Option.bind_some]

theorem parts?_items (h : IsCompound items) (hne : items ≠ []) (hends : Ends rest) :
    parts? combinator (itemsText items ++ rest) = (parts? .descendant rest).map
      ((combinator, .ofConditions (items.map Item.condition)) :: ·) := by
  have hscan := scanAll?_true_eq_some_iff.2 ⟨items, h, rfl, rfl, hends⟩
  obtain ⟨c, text, htext, hc⟩ := exists_itemsText_eq_cons h hne
  rw [htext, List.cons_append] at hscan ⊢
  rw [parts?_cons hc, hscan]
  rfl

theorem parts?_eq_some {c : Char} (hc : isGapChar c = false)
    (h : parts? combinator (c :: source) = some parts) : ∃ items rest others,
      IsCompound items ∧ items ≠ [] ∧ c :: source = itemsText items ++ rest ∧ Ends rest ∧
      parts? .descendant rest = some others ∧
      parts = (combinator, .ofConditions (items.map Item.condition)) :: others := by
  rw [parts?_cons hc] at h
  obtain ⟨⟨conditions, rest⟩, hscan, h⟩ := Option.bind_eq_some_iff.1 h
  obtain ⟨others, hothers, rfl⟩ := Option.map_eq_some_iff.1 h
  obtain ⟨items, hitems, rfl, hsource, hends⟩ := scanAll?_true_eq_some_iff.1 hscan
  refine ⟨items, rest, others, hitems, ?_, hsource, hends, hothers, rfl⟩
  rintro rfl
  rw [itemsText, List.flatMap_nil, List.nil_append] at hsource
  rw [← hsource] at hends
  rw [hends c rfl] at hc
  cases hc

theorem partsText_cons (part : Part) (written : List Part) (tail : Text) :
    partsText (part :: written) tail = part.gap ++ (itemsText part.items ++ partsText written tail) := by
  rw [partsText, partsText, List.flatMap_cons, Part.text, List.append_assoc, List.append_assoc]

theorem ends_partsText {part : Part} {written : List Part} {tail : Text}
    (h : AreLegible (part :: written) tail) : Ends (partsText written tail) := by
  intro c hc
  cases written with
  | nil =>
    have hspace := h.space c (List.mem_of_mem_head? hc)
    rw [isGapChar, hspace]
    rfl
  | cons next written =>
    obtain ⟨d, gap, hd⟩ := List.exists_cons_of_ne_nil (h.gaps next List.mem_cons_self)
    rw [partsText_cons, hd] at hc
    obtain rfl : d = c := Option.some.inj hc
    exact (h.of_cons.each next List.mem_cons_self).gap d (hd ▸ List.mem_cons_self)

theorem gap_ne_nil_of_ends {part : Part} {written : List Part} {tail : Text} (h : part.IsLegible)
    (hends : Ends (partsText (part :: written) tail)) : part.gap ≠ [] := by
  intro hnil
  rw [partsText_cons, hnil] at hends
  exact not_ends_itemsText h.items h.items_ne_nil hends

theorem AreLegible.nil {tail : Text} (h : ∀ c ∈ tail, Text.isSpace c = true) :
    AreLegible [] tail where
  each _ hm := absurd hm List.not_mem_nil
  gaps _ hm := absurd hm List.not_mem_nil
  space := h

theorem AreLegible.cons {part : Part} {written : List Part} {tail : Text} (hpart : part.IsLegible)
    (h : AreLegible written tail) (hends : Ends (partsText written tail)) :
    AreLegible (part :: written) tail where
  each := List.forall_mem_cons.2 ⟨hpart, h.each⟩
  gaps := by
    cases written with
    | nil => exact fun part hm => absurd hm List.not_mem_nil
    | cons next written =>
      have hnext := gap_ne_nil_of_ends (h.each next List.mem_cons_self) hends
      exact List.forall_mem_cons.2 ⟨hnext, h.gaps⟩
  space := h.space

theorem parts?_space (h : ∀ c ∈ gap, Text.isSpace c = true) : parts? .descendant gap = some [] := by
  have hgap : ∀ c ∈ gap, isGapChar c = true := by
    intro c hc
    rw [isGapChar, h c hc]
    rfl
  have hchild : '>' ∉ gap := fun hm => by cases h _ hm
  have hread : parts? .descendant (gap ++ []) =
      parts? (if '>' ∈ gap then .child else .descendant) [] := parts?_gap hgap
  rwa [List.append_nil, if_neg hchild, parts?_nil] at hread

theorem isSpace_of_parts?_gap (hgap : ∀ c ∈ gap, isGapChar c = true)
    (h : parts? .descendant (gap ++ []) = some parts) :
    parts = [] ∧ ∀ c ∈ gap, Text.isSpace c = true := by
  rw [parts?_gap hgap] at h
  by_cases hchild : '>' ∈ gap
  · rw [if_pos hchild, parts?_nil_child] at h
    cases h
  · rw [if_neg hchild, parts?_nil] at h
    cases h
    refine ⟨rfl, fun c hc => ?_⟩
    have hne : c ≠ '>' := fun he => hchild (he ▸ hc)
    simpa [isGapChar, hne] using hgap c hc

theorem parts?_partsText {written : List Part} {tail : Text} (h : AreLegible written tail) :
    parts? .descendant (partsText written tail) =
      some (written.map fun part => (part.combinator, part.compound)) := by
  induction written with
  | nil => exact parts?_space h.space
  | cons part written ih =>
    have hpart := h.each part List.mem_cons_self
    rw [partsText_cons, parts?_gap hpart.gap, parts?_items hpart.items hpart.items_ne_nil
      (ends_partsText h), ih h.of_cons]
    rfl

theorem parts?_eq_some_iff : parts? .descendant source = some parts ↔
    ∃ (written : List Part) (tail : Text), AreLegible written tail ∧
      partsText written tail = source ∧
      written.map (fun part => (part.combinator, part.compound)) = parts := by
  constructor
  · intro h
    -- a gap and the compound behind it are taken off at each step
    induction hl : source.length using Nat.strongRecOn generalizing source parts with
    | _ n ih =>
      subst hl
      have hcut := List.takeWhile_append_dropWhile (p := isGapChar) (l := source)
      have hgap : ∀ c ∈ source.takeWhile isGapChar, isGapChar c = true :=
        fun c hc => List.mem_takeWhile_imp hc
      have hhead := List.head?_dropWhile_not isGapChar source
      generalize source.takeWhile isGapChar = gap at hcut hgap
      generalize source.dropWhile isGapChar = rest at hcut hhead
      subst hcut
      cases rest with
      | nil =>
        obtain ⟨rfl, hspace⟩ := isSpace_of_parts?_gap hgap h
        exact ⟨[], gap, .nil hspace, (List.append_nil gap).symm, rfl⟩
      | cons c rest =>
        rw [parts?_gap hgap] at h
        obtain ⟨items, after, others, hitems, hne, hsource, hends, hothers, rfl⟩ :=
          parts?_eq_some hhead h
        have hlt : after.length < (gap ++ c :: rest).length := by
          obtain ⟨d, text, htext, -⟩ := exists_itemsText_eq_cons hitems hne
          rw [hsource, htext]
          simp only [List.length_append, List.length_cons]
          omega
        obtain ⟨written, tail, hwritten, rfl, rfl⟩ := ih _ hlt hothers rfl
        refine ⟨⟨gap, items⟩ :: written, tail, .cons ⟨hgap, hitems, hne⟩ hwritten hends, ?_, rfl⟩
        rw [partsText_cons, hsource]
  · rintro ⟨written, tail, hlegible, rfl, rfl⟩
    exact parts?_partsText hlegible

end

structure Written where
  first : Part
  rest : List Part
  tail : Text
  deriving Repr, DecidableEq

namespace Written

def parts (written : Written) : List Part := written.first :: written.rest

def text (written : Written) : Text := partsText written.parts written.tail

def IsLegible (written : Written) : Prop := AreLegible written.parts written.tail

instance (written : Written) : Decidable written.IsLegible :=
  inferInstanceAs (Decidable (AreLegible written.parts written.tail))

def selector (written : Written) : Selector :=
  written.rest.foldl (fun outer part => .under outer part.combinator part.compound)
    (.compound written.first.compound)

end Written

theorem ofText?_eq_some_iff {text : Text} {selector : Selector} :
    ofText? text = some selector ↔
      ∃ written : Written, written.IsLegible ∧ written.text = text ∧ written.selector = selector := by
  rw [ofText?, Option.bind_eq_some_iff]
  constructor
  · rintro ⟨parts, hparts, hselector⟩
    obtain ⟨written, tail, hlegible, htext, rfl⟩ := parts?_eq_some_iff.1 hparts
    cases written with
    | nil => cases hselector
    | cons first rest =>
      rw [List.map_cons, ofParts?, List.foldl_map] at hselector
      exact ⟨⟨first, rest, tail⟩, hlegible, htext, Option.some.inj hselector⟩
  · rintro ⟨⟨first, rest, tail⟩, hlegible, rfl, rfl⟩
    refine ⟨_, parts?_eq_some_iff.2 ⟨first :: rest, tail, hlegible, rfl, rfl⟩, ?_⟩
    rw [List.map_cons, ofParts?, List.foldl_map]
    rfl

theorem takeWhile_partsText {part : Part} {written : List Part} {tail : Text}
    (h : part.IsLegible) : (partsText (part :: written) tail).takeWhile isGapChar = part.gap := by
  obtain ⟨c, text, htext, hc⟩ := exists_itemsText_eq_cons h.items h.items_ne_nil
  rw [partsText_cons, htext]
  refine Text.takeWhile_run h.gap fun d hd => ?_
  obtain rfl : c = d := Option.some.inj hd
  exact hc

theorem partsText_cons_ne {part : Part} {written : List Part} {tail last : Text}
    (h : part.IsLegible) (hlast : ∀ c ∈ last, Text.isSpace c = true) :
    partsText (part :: written) tail ≠ partsText [] last := by
  intro he
  obtain ⟨c, text, htext, hc⟩ := exists_itemsText_eq_cons h.items h.items_ne_nil
  have hmem : c ∈ last := by
    rw [partsText_cons, htext] at he
    change _ = last at he
    rw [← he]
    exact List.mem_append_right _ List.mem_cons_self
  rw [isGapChar, hlast c hmem] at hc
  cases hc

theorem parts_unique {written again : List Part} {tail last : Text}
    (hwritten : AreLegible written tail) (hagain : AreLegible again last)
    (h : partsText written tail = partsText again last) : written = again ∧ tail = last := by
  induction written generalizing again with
  | nil =>
    cases again with
    | nil => exact ⟨rfl, h⟩
    | cons other again =>
      exact absurd h.symm
        (partsText_cons_ne (hagain.each other List.mem_cons_self) hwritten.space)
  | cons part written ih =>
    have hpart := hwritten.each part List.mem_cons_self
    cases again with
    | nil => exact absurd h (partsText_cons_ne hpart hagain.space)
    | cons other again =>
      have hother := hagain.each other List.mem_cons_self
      have hgap : part.gap = other.gap := by
        rw [← takeWhile_partsText hpart, h, takeWhile_partsText hother]
      rw [partsText_cons, partsText_cons, hgap] at h
      obtain ⟨hitems, hafter⟩ := items_unique hpart.items hother.items (ends_partsText hwritten)
        (ends_partsText hagain) (List.append_cancel_left h)
      obtain ⟨rfl, rfl⟩ := ih hwritten.of_cons hagain.of_cons hafter
      cases part
      cases other
      cases hgap
      cases hitems
      exact ⟨rfl, rfl⟩

theorem Written.eq_of_text_eq {written again : Written} (hwritten : written.IsLegible)
    (hagain : again.IsLegible) (h : written.text = again.text) : written = again := by
  obtain ⟨first, rest, tail⟩ := written
  obtain ⟨hparts, rfl⟩ := parts_unique hwritten hagain h
  cases hparts
  rfl

end Selector
end MailTemplate
