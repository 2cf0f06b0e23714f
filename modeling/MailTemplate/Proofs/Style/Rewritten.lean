import MailTemplate.Proofs.Style.EscapedStyles
import MailTemplate.Proofs.Style.Items
import MailTemplate.Proofs.Style.Scanning

/-! Declarations that are written and read again. A declaration comes back as it was if it has a value
without a mark at its end and leaves nothing open; then it does not touch the declarations behind it. A
list of declarations comes back only if all of them do. -/

namespace MailTemplate

namespace Text

section
variable {text : Text}

theorem exists_trimEnd (text : Text) : ∃ space, text = trimEnd text ++ space ∧
    ∀ c ∈ space, isSpace c = true := by
  refine ⟨(text.reverse.takeWhile isSpace).reverse, ?_,
    fun c hc => List.mem_takeWhile_imp (List.mem_reverse.1 hc)⟩
  rw [trimEnd, dropEndWhile, ← List.reverse_append, List.takeWhile_append_dropWhile,
    List.reverse_reverse]

theorem isSpace_getLast?_trimEnd (text : Text) : ∀ c ∈ (trimEnd text).getLast?, isSpace c = false := by
  intro c hc
  have hhead := List.head?_dropWhile_not isSpace text.reverse
  rw [trimEnd, dropEndWhile, List.getLast?_reverse] at hc
  rwa [Option.mem_def.1 hc] at hhead

theorem trim_eq_self_iff : trim text = text ↔
    (∀ c ∈ text.head?, isSpace c = false) ∧ ∀ c ∈ text.getLast?, isSpace c = false := by
  rw [trim_eq_iff]
  exact ⟨fun h => ⟨h.starts, h.ends⟩, fun ⟨hs, he⟩ => ⟨⟨[], [], by simp, by simp, by simp⟩, hs, he⟩⟩

theorem trim_trim (text : Text) : trim (trim text) = trim text :=
  have h := trim_eq_iff.1 (rfl : trim text = trim text)
  trim_eq_self_iff.2 ⟨h.starts, h.ends⟩

theorem trim_cons_space {c : Char} (hc : isSpace c = true) (text : Text) :
    trim (c :: text) = trim text := by
  rw [trim, trim, dropSpace, List.dropWhile_cons_of_pos hc]
  rfl

theorem dropSpace_lower (text : Text) : dropSpace (lower text) = lower (dropSpace text) := by
  have hfold : isSpace ∘ Char.toLower = isSpace := funext isSpace_toLower
  rw [dropSpace, lower, List.dropWhile_map, hfold]
  rfl

theorem trimEnd_lower (text : Text) : trimEnd (lower text) = lower (trimEnd text) := by
  have hreverse : (lower text).reverse = lower text.reverse := List.map_reverse.symm
  rw [trimEnd, dropEndWhile, hreverse, ← dropSpace, dropSpace_lower]
  exact List.map_reverse.symm

theorem trim_lower (text : Text) : trim (lower text) = lower (trim text) := by
  rw [trim, dropSpace_lower, trimEnd_lower]
  rfl

end

section
variable {nesting : Nesting} {separator : Char} {text : Text}

/-- White space at its ends does not matter for what a text leaves open, except for the effect of a
backslash. -/
theorem settled_foldl_trim (hn : nesting.IsSound) (he : nesting.escaped = false) (text : Text) :
    ((trim text).foldl Nesting.step nesting).settled = (text.foldl Nesting.step nesting).settled := by
  obtain ⟨⟨before, after, htext, hbefore, hafter⟩, -, -⟩ := trim_eq_iff.1 (rfl : trim text = trim text)
  conv_rhs => rw [htext, List.foldl_append, List.foldl_append, Nesting.foldl_space hn he hbefore]
  exact (Nesting.settled_foldl (hn.foldl _) fun c hc => Nesting.isNeutral_of_isSpace (hafter c hc)).symm

theorem Uncut.trim (h : Uncut separator nesting text) (hn : nesting.IsSound)
    (he : nesting.escaped = false) : Uncut separator nesting (trim text) := by
  obtain ⟨⟨before, after, htext, hbefore, hafter⟩, -, -⟩ :=
    trim_eq_iff.1 (rfl : Text.trim text = Text.trim text)
  rw [htext, List.append_assoc, uncut_append_iff, Nesting.foldl_space hn he hbefore,
    uncut_append_iff] at h
  exact h.2.1

end

end Text

namespace Declaration

/-- What a style attribute shows of a declaration. -/
def pair (declaration : Declaration) : Text × Text := (declaration.property, declaration.value)

/-- A declaration as it is written, up to its semicolon. -/
def written (declaration : Declaration) : Text :=
  declaration.property ++ ([':', ' '] ++ declaration.value)

/-- A declaration that comes back as it was: it has a value, this does not end in a mark, and no string
and no parenthesis is left open and no backslash stands at the end. -/
structure IsStable (declaration : Declaration) : Prop where
  value_ne_nil : declaration.value ≠ []
  unmarked : (unmarked declaration.value).2 = false
  closed : declaration.written.foldl Nesting.step .outside = .outside

structure IsRead (declaration : Declaration) : Prop where
  property_ne_nil : declaration.property ≠ []
  lower_property : Text.lower declaration.property = declaration.property
  trim_property : Text.trim declaration.property = declaration.property
  colon : ':' ∉ declaration.property
  trim_value : Text.trim declaration.value = declaration.value
  uncut : Text.Uncut ';' .outside declaration.written

section
variable {text part value : Text} {declaration : Declaration}

theorem isNeutral_of_mem_mark {c : Char} (hc : c ∈ mark) : Nesting.IsNeutral c := by
  have hall : (mark.all fun c => decide (Nesting.IsNeutral c)) = true := by decide
  exact of_decide_eq_true (List.all_eq_true.1 hall c hc)

theorem exists_unmarked (value : Text) : ∃ more, value = (Declaration.unmarked value).1 ++ more ∧
    ∀ c ∈ more, Nesting.IsNeutral c := by
  rw [Declaration.unmarked]
  split
  · next before hb =>
    have hmark : Text.lower (value.drop before.length) = mark := by
      have hdrop : Text.lower (value.drop before.length) = (Text.lower value).drop before.length := by
        simp [Text.lower, List.map_drop]
      rw [hdrop, Text.beforeEnd?_eq_some_iff.1 hb, List.drop_left]
    obtain ⟨space, hspace, hblank⟩ := Text.exists_trimEnd (value.take before.length)
    refine ⟨space ++ value.drop before.length, ?_, fun c hc => ?_⟩
    · rw [← List.append_assoc, ← hspace, List.take_append_drop]
    · rcases List.mem_append.1 hc with hc | hc
      · exact Nesting.isNeutral_of_isSpace (hblank c hc)
      · have hlower : c.toLower ∈ mark := hmark ▸ List.mem_map_of_mem hc
        rcases Text.toLower_eq_or c with he | ⟨ha, -⟩
        · exact isNeutral_of_mem_mark (he ▸ hlower)
        · exact Nesting.isNeutral_of_isAlpha ha
  · exact ⟨[], (List.append_nil _).symm, by simp⟩

theorem trim_unmarked (h : Text.trim value = value) :
    Text.trim (Declaration.unmarked value).1 = (Declaration.unmarked value).1 := by
  obtain ⟨hs, he⟩ := Text.trim_eq_self_iff.1 h
  refine Text.trim_eq_self_iff.2 ⟨fun c hc => ?_, fun c hc => ?_⟩
  · obtain ⟨more, hmore, -⟩ := exists_unmarked value
    refine hs c ?_
    rw [hmore, List.head?_append, Option.mem_def.1 hc]
    rfl
  · rw [Declaration.unmarked] at hc
    split at hc
    · exact Text.isSpace_getLast?_trimEnd _ c hc
    · exact he c hc

theorem foldl_property (property : Text) : (property ++ [':']).foldl Nesting.step .outside =
    ((Text.trim property).foldl Nesting.step .outside).settled := by
  have hcolon : Nesting.IsNeutral ':' := by decide
  rw [List.foldl_append, List.foldl_cons, List.foldl_nil,
    Nesting.step_neutral (Nesting.isSound_outside.foldl _) hcolon]
  exact (Text.settled_foldl_trim Nesting.isSound_outside rfl property).symm

theorem foldl_written_property (property : Text) :
    (Text.lower property ++ [':', ' ']).foldl Nesting.step .outside =
      (property.foldl Nesting.step .outside).settled := by
  have hcolon : Nesting.IsNeutral ':' := by decide
  have hspace : Nesting.IsNeutral ' ' := by decide
  have hsound := Nesting.isSound_outside.foldl property
  rw [List.foldl_append, Nesting.foldl_step_lower Nesting.isSound_outside, List.foldl_cons,
    List.foldl_cons, List.foldl_nil, Nesting.step_neutral hsound hcolon,
    Nesting.step_neutral hsound.settled hspace]
  rfl

/-- The parts of a declaration are written in the nesting in which they were read, except for the effect
of a backslash, so the written declaration is not split, and leaves as much open. -/
theorem uncut_written {property more : Text}
    (hu : Text.Uncut ';' .outside (property ++ [':'] ++ value))
    (hp : declaration.property = Text.lower (Text.trim property))
    (hv : Text.trim value = declaration.value ++ more) (hm : ∀ c ∈ more, Nesting.IsNeutral c) :
    Text.Uncut ';' .outside declaration.written ∧
      (declaration.written.foldl Nesting.step .outside).settled =
        ((property ++ [':'] ++ value).foldl Nesting.step .outside).settled := by
  have hwritten : declaration.written =
      Text.lower (Text.trim property) ++ [':', ' '] ++ declaration.value := by
    rw [written, hp, List.append_assoc]
  have hsound := (Nesting.isSound_outside.foldl (Text.trim property)).settled
  obtain ⟨hfront, hvalue⟩ := Text.uncut_append_iff.1 hu
  rw [foldl_property] at hvalue
  constructor
  · have hproperty := (Text.uncut_append_iff.1 hfront).1.trim Nesting.isSound_outside rfl
    have hback := hvalue.trim hsound rfl
    rw [hv, Text.uncut_append_iff] at hback
    rw [hwritten, Text.uncut_append_iff, foldl_written_property, Text.uncut_append_iff,
      Text.uncut_lower Nesting.isSound_outside (by decide)]
    exact ⟨⟨hproperty, Text.uncut_cons_iff.2 ⟨fun h => absurd h.2 (by decide),
      Text.uncut_cons_iff.2 ⟨fun h => absurd h.2 (by decide), Text.uncut_nil⟩⟩⟩, hback.1⟩
  · rw [hwritten, List.foldl_append, foldl_written_property, List.foldl_append, foldl_property,
      ← Text.settled_foldl_trim hsound rfl value, hv, List.foldl_append,
      Nesting.settled_foldl (hsound.foldl _) hm]

/-- A part that is not split is read as a declaration that leaves open what the part leaves open. -/
theorem isRead_of_ofText? (hu : Text.Uncut ';' .outside part) (h : ofText? part = some declaration) :
    IsRead declaration ∧ (declaration.written.foldl Nesting.step .outside).settled =
      (part.foldl Nesting.step .outside).settled := by
  obtain ⟨property, value, hcut, hp, hv, -⟩ := ofText?_eq_some h
  have hne : Text.lower (Text.trim property) ≠ [] := by
    intro hnil
    rw [ofText?, hcut] at h
    simp [hnil] at h
  have hcolon : ':' ∉ property := by
    rw [← List.singleton_infix_iff]
    exact Text.not_infix_of_cut? (List.cons_ne_nil _ _) hcut
  obtain ⟨more, hmore, hneutral⟩ := exists_unmarked (Text.trim value)
  rw [Text.eq_append_of_cut? hcut] at hu ⊢
  obtain ⟨huncut, hsettled⟩ := uncut_written hu hp (hv ▸ hmore) hneutral
  refine ⟨?_, hsettled⟩
  exact {
    property_ne_nil := hp ▸ hne
    lower_property := by rw [hp, Text.lower_lower]
    trim_property := by rw [hp, Text.trim_lower, Text.trim_trim]
    colon := by rwa [hp, Text.mem_lower_iff (by decide), mem_trim_iff (by decide)]
    trim_value := by rw [hv, trim_unmarked (Text.trim_trim value)]
    uncut := huncut }

theorem isRead_of_mem_block (h : declaration ∈ block text) : IsRead declaration := by
  obtain ⟨part, hpart, hd⟩ := List.mem_filterMap.1 h
  exact (isRead_of_ofText? (((Text.splits_splitFrom ';' .outside text).parts rfl).1 part hpart) hd).1

theorem exists_mem_dropLast_of_filterMap {α β : Type} {f : α → Option β} {list : List α} {b : β}
    (h : b ∈ (list.filterMap f).dropLast) : ∃ a ∈ list.dropLast, f a = some b := by
  obtain rfl | ⟨front, last, rfl⟩ := list.eq_nil_or_concat'
  · cases h
  · rw [List.dropLast_concat]
    refine List.mem_filterMap.1 ?_
    rw [List.filterMap_append] at h
    cases hf : f last with
    | none =>
      rw [List.filterMap_cons_none hf, List.filterMap_nil, List.append_nil] at h
      exact List.mem_of_mem_dropLast h
    | some b' => rwa [List.filterMap_cons_some hf, List.filterMap_nil, List.dropLast_concat] at h

/-- A semicolon behind a declaration has been found outside, so only the effect of a backslash can be
left behind the declaration. -/
theorem settled_of_mem_dropLast (h : declaration ∈ (block text).dropLast) :
    (declaration.written.foldl Nesting.step .outside).settled = .outside := by
  obtain ⟨part, hpart, hd⟩ := exists_mem_dropLast_of_filterMap h
  obtain ⟨huncut, hclosed⟩ := (Text.splits_splitFrom ';' .outside text).parts rfl
  rw [(isRead_of_ofText? (huncut part (List.mem_of_mem_dropLast hpart)) hd).2, hclosed part hpart]
  rfl

theorem ofText?_cons_space (text : Text) : ofText? (' ' :: text) = ofText? text := by
  have hcolon : ¬ [':'] <+: ' ' :: text := fun hp => absurd (List.cons_prefix_cons.1 hp).1 (by decide)
  rw [ofText?, ofText?, Text.cut?_cons_later hcolon]
  cases Text.cut? [':'] text with
  | none => rfl
  | some pair => simp [Text.trim_cons_space (c := ' ') (by decide)]

theorem block_cons_space (text : Text) : block (' ' :: text) = block text := by
  have hstep : Nesting.outside.step ' ' = .outside := rfl
  rw [block, block, Text.splitOutside, Text.splitFrom_cons fun h => absurd h.2 (by decide), hstep]
  obtain ⟨first, parts, hparts⟩ := List.exists_cons_of_ne_nil
    (Text.splitFrom_ne_nil ';' .outside text)
  rw [Text.splitOutside, hparts, List.modifyHead_cons, List.filterMap_cons, List.filterMap_cons,
    List.singleton_append, ofText?_cons_space]

theorem IsRead.ofText?_append (h : IsRead declaration) (hv : declaration.value ≠ []) (more : Text) :
    ofText? (declaration.written ++ more) = some ⟨declaration.property,
      (Declaration.unmarked (Text.trim (declaration.value ++ more))).1,
        (Declaration.unmarked (Text.trim (declaration.value ++ more))).2⟩ := by
  have hcut : Text.cut? [':'] (declaration.written ++ more) =
      some (declaration.property, ' ' :: (declaration.value ++ more)) := by
    have hshape : declaration.written ++ more =
        declaration.property ++ ':' :: (' ' :: (declaration.value ++ more)) := by simp [written]
    rw [hshape]
    exact Text.cut?_singleton_append _ h.colon
  have hne : Text.trim (declaration.value ++ more) ≠ [] := by
    intro hnil
    obtain ⟨before, after, he, hbefore, hafter⟩ := (Text.trim_eq_iff.1 hnil).around
    obtain ⟨c, rest, hvalue⟩ := List.exists_cons_of_ne_nil hv
    have hc : c ∈ before ++ [] ++ after := by
      rw [← he, hvalue]
      exact List.mem_append_left _ List.mem_cons_self
    have hspace : Text.isSpace c = true := by
      rw [List.append_nil] at hc
      exact (List.mem_append.1 hc).elim (hbefore c) (hafter c)
    have hstart := (Text.trim_eq_self_iff.1 h.trim_value).1 c (by rw [hvalue]; rfl)
    rw [hspace] at hstart
    cases hstart
  rw [ofText?, hcut]
  simp [Text.trim_cons_space (c := ' ') (by decide), h.trim_property, h.lower_property,
    h.property_ne_nil, hne]

theorem count_unmarked_trim {c : Char} (hs : Text.isSpace c = false) (ha : c.isAlpha = false)
    (value : Text) : value.count c = (Declaration.unmarked (Text.trim value)).1.count c +
      if (Declaration.unmarked (Text.trim value)).2 then mark.count c else 0 := by
  have hspace : ∀ d, Text.isSpace d = true → (d == c) = false := by
    intro d hd
    rw [beq_eq_false_iff_ne]
    rintro rfl
    rw [hs] at hd
    cases hd
  rw [List.count, ← Text.countP_trim hspace, countP_unmarked hspace (Text.toLower_beq ha),
    List.countP_append]
  split <;> rfl

/-- Semicolons are no part of a mark, so a value that goes on behind one is another value. -/
theorem unmarked_trim_append_ne (value more : Text) :
    (Declaration.unmarked (Text.trim (value ++ ';' :: more))).1 ≠ value := by
  intro he
  have hcount := count_unmarked_trim (c := ';') (by decide) (by decide) (value ++ ';' :: more)
  have hmark : mark.count ';' = 0 := by decide
  rw [he, List.count_append, List.count_cons_self, hmark, ite_self] at hcount
  omega

/-- A value stays as it is exactly if it has no mark, as a mark takes an exclamation mark with it. -/
theorem unmarked_eq_self_iff (h : Text.trim value = value) :
    (Declaration.unmarked value).1 = value ↔ (Declaration.unmarked value).2 = false := by
  constructor
  · intro he
    have hcount := count_unmarked_trim (c := '!') (by decide) (by decide) value
    have hmark : mark.count '!' = 1 := by decide
    rw [h, he, hmark] at hcount
    by_contra hmarked
    rw [Bool.not_eq_false] at hmarked
    rw [if_pos hmarked] at hcount
    omega
  · intro hmarked
    rw [Declaration.unmarked] at hmarked ⊢
    split at hmarked
    · cases hmarked
    · rfl

end

open Cascade (write)

section
variable {declaration : Declaration} {declarations : List Declaration}

theorem exists_write_cons (declaration : Declaration) (declarations : List Declaration) : ∃ rest,
    write ((declaration :: declarations).map pair) = declaration.written ++ ';' :: rest ∧
      block rest = block (write (declarations.map pair)) := by
  cases declarations with
  | nil => exact ⟨[], by simp [write, Text.joinWith, written, pair], rfl⟩
  | cons next others =>
    refine ⟨' ' :: write ((next :: others).map pair), ?_, block_cons_space _⟩
    simp [write, Text.joinWith, written, pair]

theorem IsStable.block_write (hs : IsStable declaration) (hr : IsRead declaration) :
    block (write ((declaration :: declarations).map pair)) =
      ⟨declaration.property, declaration.value, false⟩ :: block (write (declarations.map pair)) := by
  obtain ⟨rest, hwrite, hrest⟩ := exists_write_cons declaration declarations
  have hread := hr.ofText?_append hs.value_ne_nil []
  rw [List.append_nil, List.append_nil, hr.trim_value, hs.unmarked,
    (unmarked_eq_self_iff hr.trim_value).2 hs.unmarked] at hread
  rw [hwrite, block, Text.splitOutside, hr.uncut.splitFrom_separator hs.closed, List.filterMap_cons, hread]
  exact congrArg _ hrest

/-- A declaration is stable if it has a value and is read back as it was. -/
theorem isStable_of_block_write (hr : IsRead declaration) (hv : declaration.value ≠ [])
    {first : Declaration} {others : List Declaration}
    (h : block (write ((declaration :: declarations).map pair)) = first :: others)
    (hp : first.pair = declaration.pair) : IsStable declaration := by
  obtain ⟨rest, hwrite, -⟩ := exists_write_cons declaration declarations
  rw [hwrite, block, Text.splitOutside] at h
  have hclosed : declaration.written.foldl Nesting.step .outside = .outside := by
    by_contra hopen
    -- the semicolon is in the same part, and in the value that is read
    obtain ⟨part, parts, hparts⟩ := List.exists_cons_of_ne_nil (Text.splitFrom_ne_nil ';'
      ((declaration.written.foldl Nesting.step .outside).step ';') rest)
    rw [hr.uncut.splitFrom_append, Text.splitFrom_cons fun he => hopen he.1, hparts,
      List.modifyHead_cons, List.modifyHead_cons, List.filterMap_cons, List.singleton_append,
      hr.ofText?_append hv] at h
    rw [← (List.cons.inj h).1] at hp
    exact unmarked_trim_append_ne _ _ (Prod.mk.inj hp).2
  have hread := hr.ofText?_append hv []
  rw [List.append_nil, List.append_nil, hr.trim_value] at hread
  rw [hr.uncut.splitFrom_separator hclosed, List.filterMap_cons, hread] at h
  rw [← (List.cons.inj h).1] at hp
  exact ⟨hv, (unmarked_eq_self_iff hr.trim_value).1 (Prod.mk.inj hp).2, hclosed⟩

/-- Declarations that have been read all have a value and come back when they are written exactly if all
of them are stable. -/
theorem block_write_eq_iff (h : ∀ declaration ∈ declarations, IsRead declaration) :
    (∀ declaration ∈ declarations, declaration.value ≠ []) ∧
      (block (write (declarations.map pair))).map pair = declarations.map pair ↔
        ∀ declaration ∈ declarations, IsStable declaration := by
  induction declarations with
  | nil => exact iff_of_true ⟨by simp, by decide⟩ (by simp)
  | cons first others ih =>
    have hfirst := h first List.mem_cons_self
    have hothers := ih fun other hm => h other (List.mem_cons_of_mem _ hm)
    constructor
    · rintro ⟨hvalues, hread⟩
      have hstable : IsStable first := by
        obtain ⟨found, more, hblock, hpair, -⟩ := List.map_eq_cons_iff.1 hread
        exact isStable_of_block_write hfirst (hvalues first List.mem_cons_self) hblock hpair
      rw [hstable.block_write hfirst, List.map_cons, List.map_cons] at hread
      have hrest := hothers.1 ⟨fun other hm => hvalues other (List.mem_cons_of_mem _ hm),
        (List.cons.inj hread).2⟩
      intro other hm
      rcases List.mem_cons.1 hm with rfl | hm
      · exact hstable
      · exact hrest other hm
    · intro hs
      have hrest := hothers.2 fun other hm => hs other (List.mem_cons_of_mem _ hm)
      have hstable := hs first List.mem_cons_self
      refine ⟨fun other hm => (hs other hm).value_ne_nil, ?_⟩
      rw [hstable.block_write hfirst, List.map_cons, hrest.2]
      rfl

/-- A block that is written and read again comes back exactly if each of its declarations is stable.
Every declaration has a property, and no declaration but the last leaves a string or a parenthesis open. -/
theorem block_write_iff (text : Text) :
    (∀ declaration ∈ block text, declaration.property ≠ []) ∧
      ((∀ declaration ∈ block text, declaration.value ≠ []) ∧
        (block (write ((block text).map pair))).map pair = (block text).map pair ↔
          ∀ declaration ∈ block text, IsStable declaration) ∧
      ∀ declaration ∈ (block text).dropLast,
        (declaration.written.foldl Nesting.step .outside).settled = .outside :=
  ⟨fun _ h => (isRead_of_mem_block h).property_ne_nil,
    block_write_eq_iff fun _ h => isRead_of_mem_block h, fun _ h => settled_of_mem_dropLast h⟩

/-- A mark alone leaves an empty value behind, which is not read again; and a blank behind a backslash is
taken off, so that the backslash is in front of the semicolon that is written. -/
theorem not_block_write :
    block "color: !important".toList = [⟨"color".toList, [], true⟩] ∧
      block (write ((block "color: !important".toList).map pair)) = [] ∧
      (block "a: b\\ ; c: d".toList).map pair =
        [("a".toList, "b\\".toList), ("c".toList, "d".toList)] ∧
      (block (write ((block "a: b\\ ; c: d".toList).map pair))).map pair =
        [("a".toList, "b\\; c: d".toList)] := by
  decide +kernel

end
end Declaration
end MailTemplate
