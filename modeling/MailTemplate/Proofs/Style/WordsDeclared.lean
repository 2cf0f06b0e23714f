import MailTemplate.Proofs.Guard.Folded
import MailTemplate.Style.Sheet

/-! Words in styles. A placeholder holds colons, so a declaration is cut inside of one when it stands
before the first colon of its own; everywhere else the reader of styles keeps placeholders whole. -/

namespace MailTemplate
open Guard

/-- What a declaration can hold of placeholders: a value with whole ones, or a property that ends in
the beginning of one. -/
structure Declaration.Sound (words : Text → Prop) (declaration : Declaration) : Prop where
  property : opener ∈ declaration.property →
    ∃ front, declaration.property = front ++ [opener, 'm', 'f']
  value : opener ∉ declaration.property →
    closer ∉ declaration.property ∧ Guard.Sound words declaration.value

namespace Text

theorem splitFrom_ne_nil (separator : Char) (nesting : Nesting) (text : Text) :
    splitFrom separator nesting text ≠ [] := by
  induction text generalizing nesting with
  | nil => exact List.cons_ne_nil _ _
  | cons c text ih =>
    rw [splitFrom]
    split
    · exact List.cons_ne_nil _ _
    · rw [ne_eq, List.modifyHead_eq_nil_iff]
      exact ih _

theorem joinWith_splitFrom (separator : Char) (nesting : Nesting) (text : Text) :
    joinWith [separator] (splitFrom separator nesting text) = text := by
  induction text generalizing nesting with
  | nil => rfl
  | cons c text ih =>
    rw [splitFrom]
    split
    · next h =>
      have hrest := ih .outside
      obtain ⟨first, rest, hparts⟩ := List.exists_cons_of_ne_nil
        (splitFrom_ne_nil separator .outside text)
      rw [hparts] at hrest ⊢
      rw [joinWith, hrest, h.2]
      rfl
    · have hrest := ih (nesting.step c)
      obtain ⟨first, rest, hparts⟩ := List.exists_cons_of_ne_nil
        (splitFrom_ne_nil separator (nesting.step c) text)
      rw [hparts] at hrest ⊢
      rw [List.modifyHead_cons, ← hrest]
      cases rest <;> rfl

theorem infix_joinWith {separator part : Text} {parts : List Text} (h : part ∈ parts) :
    part <:+: joinWith separator parts := by
  induction parts with
  | nil => cases h
  | cons first rest ih =>
    cases rest with
    | nil =>
      rw [List.mem_singleton.1 h]
      exact List.infix_rfl
    | cons next rest =>
      rw [joinWith, List.append_assoc]
      rcases List.mem_cons.1 h with rfl | h
      · exact (List.prefix_append _ _).isInfix
      · exact (ih h).trans ((List.suffix_append _ _).trans (List.suffix_append _ _)).isInfix

theorem joinWith_splitOutside (separator : Char) (text : Text) :
    joinWith [separator] (splitOutside separator text) = text :=
  joinWith_splitFrom separator .outside text

end Text

section
variable {words : Text → Prop} (hw : ∀ word, words word → IsWord word) {text rest : Text}
include hw

theorem sound_of_joinWith {separator : Char} (hstops : Stops separator) (hstarts : Starts separator)
    {parts : List Text} (h : Guard.Sound words (Text.joinWith [separator] parts)) :
    ∀ part ∈ parts, Guard.Sound words part := by
  induction parts with
  | nil =>
    intro part hm
    cases hm
  | cons first rest ih =>
    intro part hm
    cases rest with
    | nil =>
      rw [List.mem_singleton.1 hm]
      exact h
    | cons next rest =>
      rw [Text.joinWith, List.append_assoc] at h
      obtain ⟨hfirst, hrest⟩ := h.split hw <| .inl fun c hc => by
        rw [← Option.some.inj hc]
        exact hstops
      obtain ⟨-, hrest⟩ := hrest.split hw <| .inr fun c hc => by
        rw [← Option.some.inj hc]
        exact hstarts
      rcases List.mem_cons.1 hm with rfl | hm
      · exact hfirst
      · exact ih hrest part hm

theorem sound_splitOutside {separator : Char} (hstops : Stops separator)
    (hstarts : Starts separator) (h : Guard.Sound words text) :
    ∀ part ∈ Text.splitOutside separator text, Guard.Sound words part := by
  refine sound_of_joinWith hw hstops hstarts ?_
  rwa [Text.joinWith_splitOutside]

theorem sound_trimEnd (h : Guard.Sound words text) : Guard.Sound words (Text.trimEnd text) :=
  h.dropEndWhile hw fun _ hc => (stops_of_isSpace hc).1

theorem sound_trim (h : Guard.Sound words text) : Guard.Sound words (Text.trim text) :=
  sound_trimEnd hw (h.dropWhile hw (.inr fun _ hc => (stops_of_isSpace hc).2)).2

theorem sound_unmarked (h : Guard.Sound words text) :
    Guard.Sound words (Declaration.unmarked text).1 := by
  unfold Declaration.unmarked
  split
  · next before hb =>
    have hlower : Text.lower text = before ++ Declaration.mark := Text.beforeEnd?_eq_some_iff.1 hb
    have hdrop : Text.lower (text.drop before.length) = Declaration.mark := by
      calc Text.lower (text.drop before.length)
          = (Text.lower text).drop before.length := by simp [Text.lower, List.map_drop]
        _ = Declaration.mark := by rw [hlower, List.drop_left]
    have hs : text.take before.length ++ text.drop before.length = text := List.take_append_drop _ _
    rw [← hs] at h
    refine sound_trimEnd hw (h.split hw (.inl fun c hc => ?_)).1
    cases hd : text.drop before.length with
    | nil =>
      rw [hd] at hc
      cases hc
    | cons d rest =>
      rw [hd] at hc hdrop
      have hmark : d.toLower = '!' := (List.cons.inj hdrop).1
      rw [← Option.some.inj hc, (Text.toLower_eq_iff (by decide)).1 hmark]
      exact ⟨by decide, by decide⟩
  · exact h

end

namespace Declaration

theorem ofText?_eq_some {text : Text} {declaration : Declaration}
    (h : ofText? text = some declaration) :
    ∃ property value, Text.cut? [':'] text = some (property, value) ∧
      declaration.property = Text.lower (Text.trim property) ∧
        declaration.value = (unmarked (Text.trim value)).1 ∧
          declaration.important = (unmarked (Text.trim value)).2 := by
  simp only [ofText?, Option.bind_eq_bind, Option.bind_eq_some_iff, Prod.exists] at h
  obtain ⟨property, value, hcut, h⟩ := h
  split at h
  · cases h
  · cases h
    exact ⟨property, value, hcut, rfl, rfl, rfl⟩

theorem mem_trim_iff {c : Char} (hc : Text.isSpace c = false) {text : Text} :
    c ∈ Text.trim text ↔ c ∈ text := by
  have hfront : ∀ text : Text, c ∈ Text.dropSpace text ↔ c ∈ text := by
    intro text
    have hspace : c ∉ Text.spaceOf text := fun hm => by
      rw [List.mem_takeWhile_imp hm] at hc
      cases hc
    have hwhole : c ∈ Text.spaceOf text ++ Text.dropSpace text ↔ c ∈ Text.dropSpace text := by
      rw [List.mem_append, or_iff_right hspace]
    rw [← hwhole, Text.spaceOf_append_dropSpace]
  have hend : ∀ text : Text, c ∈ Text.trimEnd text ↔ c ∈ text := by
    intro text
    have hreverse := hfront text.reverse
    rw [List.mem_reverse] at hreverse
    rwa [Text.trimEnd, Text.dropEndWhile, List.mem_reverse]
  rw [Text.trim, hend, hfront]

theorem trim_append_word (front : Text) :
    ∃ inner, Text.trim (front ++ [opener, 'm', 'f']) = inner ++ [opener, 'm', 'f'] := by
  have hend : ∀ inner : Text, Text.trimEnd (inner ++ [opener, 'm', 'f']) =
      inner ++ [opener, 'm', 'f'] := by
    intro inner
    rw [Text.trimEnd, Text.dropEndWhile, List.reverse_append]
    have hstop : ([opener, 'm', 'f'].reverse ++ inner.reverse).dropWhile Text.isSpace =
        [opener, 'm', 'f'].reverse ++ inner.reverse := List.dropWhile_cons_of_neg (by decide)
    rw [hstop, List.reverse_append, List.reverse_reverse, List.reverse_reverse]
  have hstop : [opener, 'm', 'f'].dropWhile Text.isSpace = [opener, 'm', 'f'] :=
    List.dropWhile_cons_of_neg (by decide)
  rw [Text.trim, Text.dropSpace, List.dropWhile_append]
  split
  · exact ⟨[], by rw [hstop]; exact hend []⟩
  · exact ⟨_, hend _⟩

end Declaration

section
variable {words : Text → Prop} (hw : ∀ word, words word → IsWord word)
  (hmf : ∀ word, words word → ∃ rest, word = opener :: 'm' :: 'f' :: ':' :: rest) {text : Text}

include hmf in
/-- What stands before the first colon ends in the beginning of a placeholder, if it holds one. -/
theorem property_of_cut? (h : Guard.Sound words text) {property value : Text}
    (hc : Text.cut? [':'] text = some (property, value)) (ho : opener ∈ property) :
    ∃ front, property = front ++ [opener, 'm', 'f'] := by
  induction h generalizing property with
  | nil =>
    simp only [Text.cut?, List.cons_ne_nil, if_false] at hc
    cases hc
  | @char c text hco _ _ ih =>
    by_cases hcolon : c = ':'
    · rw [hcolon, Text.cut?_cons_here rfl] at hc
      cases hc
      cases ho
    · have hlater : ¬ [':'] <+: c :: text := fun hp => hcolon (List.cons_prefix_cons.1 hp).1.symm
      rw [Text.cut?_cons_later hlater] at hc
      obtain ⟨⟨before, after⟩, hcut, he⟩ := Option.map_eq_some_iff.1 hc
      obtain rfl : c :: before = property := (Prod.mk.inj he).1
      obtain rfl : after = value := (Prod.mk.inj he).2
      have hbefore : opener ∈ before := by
        rcases List.mem_cons.1 ho with he | hm
        · exact absurd he.symm hco
        · exact hm
      obtain ⟨front, rfl⟩ := ih hcut hbefore
      exact ⟨c :: front, rfl⟩
  | @word word text hword _ _ =>
    obtain ⟨rest, rfl⟩ := hmf word hword
    have hcut : Text.cut? [':'] ([opener, 'm', 'f'] ++ ':' :: (rest ++ text)) =
        some ([opener, 'm', 'f'], rest ++ text) := Text.cut?_singleton_append _ (by decide)
    obtain ⟨rfl, -⟩ := Prod.mk.inj (Option.some.inj (hcut.symm.trans hc))
    exact ⟨[], rfl⟩

include hw hmf in
theorem sound_ofText? {declaration : Declaration} (h : Guard.Sound words text)
    (hd : Declaration.ofText? text = some declaration) : declaration.Sound words := by
  obtain ⟨property, value, hcut, hp, hv, -⟩ := Declaration.ofText?_eq_some hd
  constructor
  · intro ho
    rw [hp, Text.mem_lower_iff (by decide), Declaration.mem_trim_iff (by decide)] at ho
    obtain ⟨front, rfl⟩ := property_of_cut? hmf h hcut ho
    obtain ⟨inner, hinner⟩ := Declaration.trim_append_word front
    refine ⟨Text.lower inner, ?_⟩
    rw [hp, hinner, Text.lower_append]
    exact congrArg (Text.lower inner ++ ·) (by decide)
  · intro ho
    rw [hp, Text.mem_lower_iff (by decide), Declaration.mem_trim_iff (by decide)] at ho
    have hsplit := Text.eq_append_of_cut? hcut
    rw [List.append_assoc] at hsplit
    rw [hsplit] at h
    have hrest := h.of_append hw ho
    rw [List.singleton_append] at hrest
    rw [hp, hv, Text.mem_lower_iff (by decide), Declaration.mem_trim_iff (by decide)]
    exact ⟨h.closer_notMem hw ho,
      sound_unmarked hw (sound_trim hw (hrest.tail hw (by decide)))⟩

end
end MailTemplate
