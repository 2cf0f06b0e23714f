import MailTemplate.Proofs.Markup.Shape

/-! Reading what was written. A well-formed tag, text, comment or declaration is read back as it was
written, with the double quotes of attribute values as `&quot;`. Two things on the page have to be
kept apart for that: texts from each other, and an attribute without a value from a stray `=`. -/

namespace MailTemplate
namespace Attribute

/-- An attribute with its value as it is written. -/
def escaped (attr : Attribute) : Attribute := { attr with value := attr.value.map escape }

/-- No attribute without a value stands in front of a stray `=`. -/
def Separate : List Attribute → Prop
  | [] => True
  | attr :: rest =>
    (attr.value = none → ∀ next ∈ rest.head?, next.name ≠ ['=']) ∧ Separate rest

/-- Attributes as they are written in a tag. -/
def textAll (attributes : List Attribute) : Text :=
  attributes.flatMap fun attr => ' ' :: attr.text

@[simp] theorem textAll_nil : textAll [] = [] := rfl

@[simp] theorem textAll_cons (attr : Attribute) (rest : List Attribute) :
    textAll (attr :: rest) = ' ' :: (attr.text ++ textAll rest) := rfl

theorem quote_notMem_escape (value : Text) : '"' ∉ escape value := by
  intro h
  obtain ⟨c, -, hc⟩ := List.mem_flatMap.1 h
  by_cases hq : c = '"'
  · rw [if_pos hq] at hc
    revert hc
    decide
  · rw [if_neg hq, List.mem_singleton] at hc
    exact hq hc.symm

theorem escape_of_notMem {value : Text} (h : '"' ∉ value) : escape value = value := by
  induction value with
  | nil => rfl
  | cons c value ih =>
    rw [List.mem_cons, not_or] at h
    have hc : ¬ c = '"' := fun he => h.1 he.symm
    simp only [escape, List.flatMap_cons, hc, if_false, List.singleton_append] at ih ⊢
    rw [ih h.2]

@[simp] theorem escape_escape (value : Text) : escape (escape value) = escape value :=
  escape_of_notMem (quote_notMem_escape value)

section
variable {attr : Attribute}

theorem exists_cons_of_wellFormed (h : attr.WellFormed) :
    ∃ c name, attr.name = c :: name ∧ Text.isSpace c = false ∧ c ≠ '>' ∧ c ≠ '/' ∧
      (c = '=' → attr.name = ['=']) := by
  rcases h with h | ⟨hn, hc⟩
  · exact ⟨'=', [], h, by decide, by decide, by decide, fun _ => h⟩
  · obtain ⟨c, name, he⟩ := List.exists_cons_of_ne_nil hn
    have hf := hc c (by rw [he]; exact List.mem_cons_self)
    simp only [isNameChar, Bool.and_eq_true, Bool.not_eq_true', bne_iff_ne] at hf
    exact ⟨c, name, he, hf.1.1.1, hf.1.2, hf.2, fun heq => absurd heq hf.1.1.2⟩

theorem text_eq_name_append (attr : Attribute) : ∃ rest, attr.text = attr.name ++ rest := by
  unfold text
  cases attr.value with
  | none => exact ⟨[], (List.append_nil _).symm⟩
  | some v => exact ⟨['=', '"'] ++ escape v ++ ['"'], by simp⟩

theorem dropSpace_text_append (h : attr.WellFormed) (rest : Text) :
    Text.dropSpace (' ' :: (attr.text ++ rest)) = attr.text ++ rest := by
  obtain ⟨c, name, hn, hs, -⟩ := exists_cons_of_wellFormed h
  obtain ⟨r, hr⟩ := text_eq_name_append attr
  have hd : Text.dropSpace (attr.text ++ rest) = attr.text ++ rest := by
    rw [hr, hn]
    exact List.dropWhile_cons_of_neg (by simp [hs])
  exact (List.dropWhile_cons_of_pos (by decide)).trans hd

theorem nameAndRest_append (h : attr.WellFormed) {rest : Text}
    (hr : ∀ c ∈ rest.head?, isNameChar c = false) :
    nameAndRest (attr.name ++ rest) = (attr.name, rest) := by
  unfold nameAndRest
  rcases h with h | ⟨hn, hc⟩
  · have ht : (attr.name ++ rest).takeWhile isNameChar = [] := by
      rw [h]
      exact List.takeWhile_cons_of_neg (by decide)
    rw [ht, h]
    rfl
  · rw [Text.takeWhile_run hc hr, Text.dropWhile_run hc hr]
    split
    · next he => exact absurd he hn
    · rfl

/-- An attribute is read back; what is read after it is the same up to white space. -/
theorem scan?_text_append (h : attr.WellFormed) {rest : Text}
    (hr : ∀ c ∈ rest.head?, isNameChar c = false)
    (hs : attr.value = none → ∀ c ∈ (Text.dropSpace rest).head?, c ≠ '=') :
    ∃ after, scan? (attr.text ++ rest) = some (attr.escaped, after) ∧
      Text.dropSpace after = Text.dropSpace rest := by
  unfold text scan?
  cases hv : attr.value with
  | none =>
    refine ⟨Text.dropSpace rest, ?_, ?_⟩
    · rw [nameAndRest_append h hr]
      simp only
      split
      · next r he => exact absurd rfl (hs hv _ (by rw [he]; rfl))
      · simp [escaped, hv]
    · exact List.dropWhile_idempotent _ _
  | some v =>
    refine ⟨rest, ?_, rfl⟩
    have hname : nameAndRest (attr.name ++ ('=' :: '"' :: (escape v ++ '"' :: rest))) =
        (attr.name, '=' :: '"' :: (escape v ++ '"' :: rest)) :=
      nameAndRest_append h fun c hc => by
        rw [← Option.some.inj hc]
        decide
    have hsrc : attr.name ++ ['=', '"'] ++ escape v ++ ['"'] ++ rest =
        attr.name ++ ('=' :: '"' :: (escape v ++ '"' :: rest)) := by simp
    have hd : ∀ t, Text.dropSpace ('=' :: '"' :: t) = '=' :: '"' :: t := fun t =>
      List.dropWhile_cons_of_neg (by decide)
    have hq : ∀ t, Text.dropSpace ('"' :: t) = '"' :: t := fun t =>
      List.dropWhile_cons_of_neg (by decide)
    rw [hsrc, hname]
    simp only [hd, hq, value?, Text.cut?_singleton_append _ (quote_notMem_escape v),
      Option.map_some, escaped, hv]

end
end Attribute

section
variable {source rest : Text}

theorem attributes?_close (h : Text.dropSpace source = '>' :: rest) :
    attributes? source = some ([], false, rest) := by
  rw [attributes?]
  split <;> simp_all

theorem attributes?_selfClose (h : Text.dropSpace source = '/' :: '>' :: rest) :
    attributes? source = some ([], true, rest) := by
  rw [attributes?]
  split <;> simp_all

theorem attributes?_scan {c : Char} {tail : Text} (h : Text.dropSpace source = c :: tail)
    (h1 : c ≠ '>') (h2 : c ≠ '/') :
    attributes? source = (Attribute.scan? (c :: tail)).bind fun first =>
      (attributes? first.2).map fun later => (first.1 :: later.1, later.2) := by
  rw [attributes?]
  split
  · next he => simp [h] at he
  · next he => exact absurd (List.cons.inj (h.symm.trans he)).1 h1
  · next he => exact absurd (List.cons.inj (h.symm.trans he)).1 h2
  · next he => exact absurd (List.cons.inj (h.symm.trans he)).1 h2
  · next c' r _ _ _ he =>
    obtain ⟨rfl, rfl⟩ := List.cons.inj (h.symm.trans he)
    split <;> simp_all

theorem attributes?_congr {other : Text} (h : Text.dropSpace source = Text.dropSpace other) :
    attributes? source = attributes? other := by
  rw [attributes?, attributes?]
  rw [h]

/-- A tag whose attributes have all been written: `rest` is what follows it. -/
structure Ending (ending : Text) (selfClosing : Bool) (rest : Text) : Prop where
  read : attributes? ending = some ([], selfClosing, rest)
  outside : ∀ c ∈ ending.head?, c = ' ' ∨ c = '>'
  noValue : ∀ c ∈ (Text.dropSpace ending).head?, c ≠ '='

theorem ending_close (rest : Text) : Ending ('>' :: rest) false rest where
  read := attributes?_close (List.dropWhile_cons_of_neg (by decide))
  outside := fun c hc => .inr (Option.some.inj hc).symm
  noValue := by
    intro c hc
    rw [Text.dropSpace, List.dropWhile_cons_of_neg (by decide)] at hc
    rw [← Option.some.inj hc]
    decide

theorem ending_selfClose (rest : Text) : Ending (" />".toList ++ rest) true rest := by
  have hd : Text.dropSpace (" />".toList ++ rest) = '/' :: '>' :: rest :=
    (List.dropWhile_cons_of_pos (by decide)).trans (List.dropWhile_cons_of_neg (by decide))
  refine ⟨attributes?_selfClose hd, fun c hc => .inl (Option.some.inj hc).symm, fun c hc => ?_⟩
  rw [hd] at hc
  rw [← Option.some.inj hc]
  decide

variable {attributes : List Attribute} {ending : Text} {selfClosing : Bool}

theorem outside_textAll (he : Ending ending selfClosing rest) :
    ∀ c ∈ (Attribute.textAll attributes ++ ending).head?, c = ' ' ∨ c = '>' := by
  intro c hc
  cases attributes with
  | nil => exact he.outside c hc
  | cons attr attributes => exact .inl (Option.some.inj hc).symm

theorem isNameChar_textAll (attributes : List Attribute) (he : Ending ending selfClosing rest) :
    ∀ c ∈ (Attribute.textAll attributes ++ ending).head?, Attribute.isNameChar c = false := by
  intro c hc
  rcases outside_textAll he c hc with rfl | rfl <;> decide

theorem attributes?_textAll_cons {attr : Attribute} (hw : attr.WellFormed) :
    attributes? (Attribute.textAll (attr :: attributes) ++ ending) =
      (Attribute.scan? (attr.text ++ (Attribute.textAll attributes ++ ending))).bind
        fun first => (attributes? first.2).map fun later => (first.1 :: later.1, later.2) := by
  obtain ⟨c, name, hc, -, h1, h2, -⟩ := Attribute.exists_cons_of_wellFormed hw
  obtain ⟨r, hr⟩ := Attribute.text_eq_name_append attr
  have hd := Attribute.dropSpace_text_append hw (Attribute.textAll attributes ++ ending)
  rw [Attribute.textAll_cons, List.cons_append, List.append_assoc]
  rw [hr, hc] at hd ⊢
  exact attributes?_scan hd h1 h2

/-- What stands after an attribute without a value gives it none, unless it is a stray `=`. -/
theorem noValue_textAll (hw : ∀ attr ∈ attributes, attr.WellFormed)
    (hn : ∀ next ∈ attributes.head?, next.name ≠ ['=']) (he : Ending ending selfClosing rest) :
    ∀ c ∈ (Text.dropSpace (Attribute.textAll attributes ++ ending)).head?, c ≠ '=' := by
  intro c hc
  cases attributes with
  | nil => exact he.noValue c hc
  | cons next attributes =>
    have hx := hw next List.mem_cons_self
    obtain ⟨d, name, hd, -, -, -, hq⟩ := Attribute.exists_cons_of_wellFormed hx
    obtain ⟨r, hr⟩ := Attribute.text_eq_name_append next
    rw [Attribute.textAll_cons, List.cons_append, List.append_assoc,
      Attribute.dropSpace_text_append hx, hr, hd] at hc
    rw [← Option.some.inj hc]
    exact fun heq => hn next rfl (hq heq)

theorem attributes?_textAll (hw : ∀ attr ∈ attributes, attr.WellFormed)
    (hs : Attribute.Separate attributes) (he : Ending ending selfClosing rest) :
    attributes? (Attribute.textAll attributes ++ ending) =
      some (attributes.map Attribute.escaped, selfClosing, rest) := by
  induction attributes with
  | nil => exact he.read
  | cons attr attributes ih =>
    have hw' : ∀ a ∈ attributes, a.WellFormed := fun a hm => hw a (List.mem_cons_of_mem _ hm)
    have ha := hw attr List.mem_cons_self
    obtain ⟨after, hscan, hafter⟩ := Attribute.scan?_text_append ha
      (isNameChar_textAll attributes he)
      fun hv => noValue_textAll hw' (hs.1 hv) he
    rw [attributes?_textAll_cons ha, hscan, Option.bind_some]
    simp only [attributes?_congr hafter, ih hw' hs.2]
    rfl

theorem Attribute.value_ne_none_of_scan? {attr read : Attribute} {source after : Text}
    (hw : attr.WellFormed) (hv : attr.value = none)
    (hr : ∀ c ∈ source.head?, isNameChar c = false) {tail : Text}
    (hd : Text.dropSpace source = '=' :: tail)
    (h : scan? (attr.text ++ source) = some (read, after)) : read.value ≠ none := by
  have ht : attr.text = attr.name := by simp [text, hv]
  unfold scan? at h
  rw [ht, nameAndRest_append hw hr] at h
  simp only [hd] at h
  obtain ⟨⟨v, r⟩, -, hp⟩ := Option.map_eq_some_iff.1 h
  rw [← (Prod.mk.inj hp).1]
  exact Option.some_ne_none v

theorem separate_of_attributes? {closing : Bool} {after : Text}
    (hw : ∀ attr ∈ attributes, attr.WellFormed) (he : Ending ending selfClosing rest)
    (h : attributes? (Attribute.textAll attributes ++ ending) =
      some (attributes.map Attribute.escaped, closing, after)) :
    Attribute.Separate attributes := by
  induction attributes generalizing closing after with
  | nil => trivial
  | cons attr attributes ih =>
    have hw' : ∀ a ∈ attributes, a.WellFormed := fun a hm => hw a (List.mem_cons_of_mem _ hm)
    have ha := hw attr List.mem_cons_self
    have hout := isNameChar_textAll attributes he
    rw [attributes?_textAll_cons ha] at h
    obtain ⟨⟨read, r⟩, hscan, h⟩ := Option.bind_eq_some_iff.1 h
    obtain ⟨⟨as, sc, r'⟩, hrest, h⟩ := Option.map_eq_some_iff.1 h
    obtain ⟨⟨hread, has⟩, -⟩ : (read = attr.escaped ∧ as = attributes.map Attribute.escaped) ∧ _ := by
      simpa using h
    have hn : attr.value = none → ∀ next ∈ attributes.head?, next.name ≠ ['='] := by
      intro hv next hnext heq
      cases attributes with
      | nil => cases hnext
      | cons b attributes =>
        obtain rfl : b = next := Option.some.inj hnext
        have hb := hw' b List.mem_cons_self
        obtain ⟨t, ht⟩ := Attribute.text_eq_name_append b
        have hd : Text.dropSpace (Attribute.textAll (b :: attributes) ++ ending) =
            '=' :: (t ++ (Attribute.textAll attributes ++ ending)) := by
          rw [Attribute.textAll_cons, List.cons_append, List.append_assoc,
            Attribute.dropSpace_text_append hb, ht, heq]
          rfl
        refine Attribute.value_ne_none_of_scan? ha hv hout hd hscan ?_
        rw [hread, Attribute.escaped, hv]
        rfl
    refine ⟨hn, ?_⟩
    obtain ⟨r₂, hscan', hr₂⟩ := Attribute.scan?_text_append ha hout
      fun hv => noValue_textAll hw' (hn hv) he
    rw [hscan'] at hscan
    rw [← (Prod.mk.inj (Option.some.inj hscan)).2, attributes?_congr hr₂, has] at hrest
    exact ih hw' hrest

end
end MailTemplate
