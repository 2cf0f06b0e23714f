import MailTemplate.Proofs.Markup.SpansKept
import MailTemplate.Proofs.Style.WordsDeclared

/-! Styles with escaped quotes. A style attribute is written with `&quot;` for its double quotes and is
split again as it stands, where an entity opens no string and ends in a semicolon. Everything else in
the reading of declarations goes along with the escape, so the declarations stay the same as long as
the text is split at the same places. -/

namespace MailTemplate
open Attribute (escape)

def Text.encode (entity text : Text) : Text :=
  text.flatMap fun c => if c = '"' then entity else [c]

/-- Whether a text that is split from the nesting `plain` and its escaped form that is split from the
nesting `escaped` are split at the same places: the semicolon of an entity must not stand outside, and
any other one outside in both or in neither. -/
def Nesting.splitsAlike : Nesting → Nesting → Text → Bool
  | _, _, [] => true
  | plain, escaped, c :: text =>
    if c = '"' then
      let behind := "&quot".toList.foldl step escaped
      behind != outside && splitsAlike (plain.step c) (behind.step ';') text
    else (c != ';' || (plain == outside) == (escaped == outside)) &&
      splitsAlike (plain.step c) (escaped.step c) text

namespace Text

section
variable {text front back rest entity mark : Text} {nesting plain escaped : Nesting}
  {separator c d : Char} {parts others : List Text} {p : Char → Bool}

theorem encode_quote (entity text : Text) :
    encode entity ('"' :: text) = entity ++ encode entity text := rfl

theorem encode_cons (h : c ≠ '"') : encode entity (c :: text) = c :: encode entity text := by
  rw [encode, List.flatMap_cons, if_neg h]
  rfl

theorem encode_append (entity front back : Text) :
    encode entity (front ++ back) = encode entity front ++ encode entity back :=
  List.flatMap_append

theorem reverse_encode (entity text : Text) :
    (encode entity text).reverse = encode entity.reverse text.reverse := by
  have hchar : List.reverse ∘ (fun c : Char => if c = '"' then entity else [c]) =
      fun c => if c = '"' then entity.reverse else [c] := by
    funext c
    rw [Function.comp_apply, apply_ite List.reverse, List.reverse_singleton]
  rw [encode, List.reverse_flatMap, hchar]
  rfl

theorem mem_of_mem_encode (h : c ∈ encode entity text) : c ∈ entity ∨ c ∈ text := by
  obtain ⟨d, hd, hc⟩ := List.mem_flatMap.1 h
  by_cases hq : d = '"'
  · rw [if_pos hq] at hc
    exact .inl hc
  · rw [if_neg hq] at hc
    exact .inr (List.mem_singleton.1 hc ▸ hd)

/-- What is dropped at the front of a text are no quotes and not the beginning of an entity. -/
theorem dropWhile_encode (hq : p '"' = false) (hd : p d = false) :
    (encode (d :: rest) text).dropWhile p = encode (d :: rest) (text.dropWhile p) := by
  induction text with
  | nil => rfl
  | cons c text ih =>
    by_cases hc : c = '"'
    · rw [hc, List.dropWhile_cons_of_neg (by simp [hq]), encode_quote, List.cons_append,
        List.dropWhile_cons_of_neg (by simp [hd])]
    · rw [encode_cons hc, List.dropWhile_cons, List.dropWhile_cons, ih]
      split
      · rfl
      · rw [encode_cons hc]

theorem after?_encode (hq : '"' ∉ mark) (hd : d ∉ mark) :
    after? mark (encode (d :: rest) text) = (after? mark text).map (encode (d :: rest)) := by
  induction mark generalizing text with
  | nil => cases text <;> rfl
  | cons m mark ih =>
    rw [List.mem_cons, not_or] at hq hd
    cases text with
    | nil => rfl
    | cons c text =>
      by_cases hc : c = '"'
      · rw [hc, encode_quote, List.cons_append, after?, after?, if_neg (Ne.symm hd.1),
          if_neg (Ne.symm hq.1)]
        rfl
      · rw [encode_cons hc, after?, after?, ih hq.2 hd.2]
        split <;> rfl

/-- A text is cut at a character that neither is a quote nor stands in an entity. -/
theorem cut?_encode (hq : c ≠ '"') (he : c ∉ entity) : cut? [c] (encode entity text) =
    (cut? [c] text).map fun (before, rest) => (encode entity before, encode entity rest) := by
  have hnot : ∀ text : Text, c ∉ text → c ∉ encode entity text := fun text hn hm =>
    (mem_of_mem_encode hm).elim he hn
  cases hcut : cut? [c] text with
  | none =>
    rw [cut?_eq_none_iff (List.cons_ne_nil _ _), List.singleton_infix_iff] at hcut
    rw [Option.map_none, cut?_eq_none_iff (List.cons_ne_nil _ _), List.singleton_infix_iff]
    exact hnot text hcut
  | some pair =>
    obtain ⟨before, rest⟩ := pair
    have hbefore : c ∉ before := by
      rw [← List.singleton_infix_iff]
      exact not_infix_of_cut? (List.cons_ne_nil _ _) hcut
    rw [eq_append_of_cut? hcut, List.append_assoc, List.singleton_append, encode_append,
      encode_cons hq, cut?_singleton_append _ (hnot before hbefore)]
    rfl

theorem splitFrom_append (h : separator ∉ front) : splitFrom separator nesting (front ++ back) =
    (splitFrom separator (front.foldl Nesting.step nesting) back).modifyHead (front ++ ·) := by
  induction front generalizing nesting with
  | nil => exact (congrFun List.modifyHead_id _).symm
  | cons c front ih =>
    rw [List.mem_cons, not_or] at h
    rw [List.cons_append, splitFrom, if_neg fun hs => h.1 hs.2.symm, ih h.2, List.modifyHead_modifyHead]
    rfl

theorem splitFrom_cons (h : ¬ (nesting = .outside ∧ c = separator)) :
    splitFrom separator nesting (c :: text) =
      (splitFrom separator (nesting.step c) text).modifyHead ([c] ++ ·) := by
  rw [splitFrom, if_neg h]
  rfl

theorem splitFrom_separator : splitFrom separator .outside (separator :: text) =
    [] :: splitFrom separator .outside text := by rw [splitFrom, if_pos ⟨rfl, rfl⟩]

theorem modifyHead_append_inj :
    parts.modifyHead (front ++ ·) = others.modifyHead (front ++ ·) ↔ parts = others := by
  cases parts <;> cases others <;> simp

theorem modifyHead_append_ne (h : parts ≠ []) : parts.modifyHead ([c] ++ ·) ≠ [] :: others := by
  cases parts with
  | nil => exact absurd rfl h
  | cons part parts => exact fun he => List.cons_ne_nil _ _ (List.cons.inj he).1

theorem map_escape_modifyHead : (parts.modifyHead (front ++ ·)).map escape =
    (parts.map escape).modifyHead (escape front ++ ·) := by
  cases parts <;> simp [Guard.escape_append]

/-- At a quote the first part goes on in both texts, if the entity does not stand outside. -/
theorem splitFrom_quote_iff : splitFrom ';' escaped (escape ('"' :: text)) =
    (splitFrom ';' plain ('"' :: text)).map escape ↔
      "&quot".toList.foldl Nesting.step escaped ≠ .outside ∧
        splitFrom ';' (("&quot".toList.foldl Nesting.step escaped).step ';') (escape text) =
          (splitFrom ';' (plain.step '"') text).map escape := by
  have hescape : escape ('"' :: text) = "&quot".toList ++ ';' :: escape text := rfl
  have hentity : escape ['"'] = "&quot".toList ++ [';'] := rfl
  have hother : ¬ (plain = .outside ∧ '"' = ';') := fun h => absurd h.2 (by decide)
  rw [hescape, splitFrom_append (by decide), splitFrom_cons hother, map_escape_modifyHead, hentity]
  by_cases hb : "&quot".toList.foldl Nesting.step escaped = .outside
  · obtain ⟨first, parts, hparts⟩ := List.exists_cons_of_ne_nil
      (splitFrom_ne_nil ';' (plain.step '"') text)
    rw [hb, splitFrom_separator, hparts]
    refine iff_of_false (fun he => ?_) (fun h => h.1 rfl)
    have hlength := congrArg List.length (List.cons.inj he).1
    simp at hlength
  · have hjoin : ("&quot".toList ++ · : Text → Text) ∘ ([';'] ++ ·) =
        (("&quot".toList ++ [';']) ++ ·) := by
      funext part
      simp
    rw [splitFrom_cons fun h => hb h.1, List.modifyHead_modifyHead, hjoin, modifyHead_append_inj,
      and_iff_right hb]

/-- At any other character both texts are split, or in both the first part goes on. -/
theorem splitFrom_char_iff (hq : c ≠ '"') : splitFrom ';' escaped (escape (c :: text)) =
    (splitFrom ';' plain (c :: text)).map escape ↔
      (c = ';' → (plain = .outside ↔ escaped = .outside)) ∧
        splitFrom ';' (escaped.step c) (escape text) =
          (splitFrom ';' (plain.step c) text).map escape := by
  have hescape : escape (c :: text) = c :: escape text := encode_cons hq
  have hchar : escape [c] = [c] := encode_cons hq
  rw [hescape]
  by_cases hp : plain = .outside ∧ c = ';'
  · obtain ⟨rfl, rfl⟩ := hp
    by_cases he : escaped = .outside
    · rw [he, splitFrom_separator, splitFrom_separator, List.map_cons]
      exact ⟨fun h => ⟨fun _ => Iff.rfl, (List.cons.inj h).2⟩, fun h => congrArg ([] :: ·) h.2⟩
    · rw [splitFrom_separator, splitFrom_cons fun h => he h.1]
      refine iff_of_false (modifyHead_append_ne (splitFrom_ne_nil _ _ _)) fun h => ?_
      exact he ((h.1 rfl).1 rfl)
  · rw [splitFrom_cons hp, map_escape_modifyHead, hchar]
    by_cases he : escaped = .outside ∧ c = ';'
    · obtain ⟨rfl, rfl⟩ := he
      have hnil : (splitFrom ';' (plain.step ';') text).map escape ≠ [] :=
        mt List.map_eq_nil_iff.1 (splitFrom_ne_nil _ _ _)
      rw [splitFrom_separator]
      exact iff_of_false (modifyHead_append_ne hnil).symm fun h => hp ⟨(h.1 rfl).2 rfl, rfl⟩
    · rw [splitFrom_cons he, modifyHead_append_inj]
      refine (and_iff_right fun hs => ?_).symm
      exact iff_of_false (fun h => hp ⟨h, hs⟩) fun h => he ⟨h, hs⟩

/-- The parts of the escaped text are the escaped parts exactly if both are split at the same places. -/
theorem splitFrom_escape_iff : splitFrom ';' escaped (escape text) =
    (splitFrom ';' plain text).map escape ↔ plain.splitsAlike escaped text = true := by
  induction text generalizing plain escaped with
  | nil => exact iff_of_true rfl rfl
  | cons c text ih =>
    rw [Nesting.splitsAlike]
    by_cases hq : c = '"'
    · rw [hq, splitFrom_quote_iff, ih, if_pos rfl, Bool.and_eq_true, bne_iff_ne]
    · rw [splitFrom_char_iff hq, ih, if_neg hq, Bool.and_eq_true]
      refine and_congr_left fun _ => ?_
      rw [Bool.or_eq_true, bne_iff_ne, beq_iff_eq, Bool.eq_iff_iff, beq_iff_eq, beq_iff_eq]
      exact imp_iff_not_or

theorem lower_escape (text : Text) : lower (escape text) = escape (lower text) := by
  induction text with
  | nil => rfl
  | cons c text ih =>
    by_cases hq : c = '"'
    · have hentity : lower "&quot;".toList = "&quot;".toList := by decide
      have hescape : escape (c :: text) = "&quot;".toList ++ escape text := by rw [hq]; rfl
      rw [hescape, lower_append, hentity, ih, hq]
      rfl
    · have hlower : c.toLower ≠ '"' := mt (toLower_eq_iff (by decide)).1 hq
      have hescape : escape (c :: text) = c :: escape text := encode_cons hq
      have hescape' : escape (c.toLower :: lower text) = c.toLower :: escape (lower text) :=
        encode_cons hlower
      rw [hescape, lower_cons, lower_cons, hescape', ih]

theorem dropSpace_escape (text : Text) : dropSpace (escape text) = escape (dropSpace text) :=
  dropWhile_encode (by decide) (by decide)

theorem trimEnd_escape (text : Text) : trimEnd (escape text) = escape (trimEnd text) := by
  have hdrop : (encode ";touq&".toList text.reverse).dropWhile isSpace =
      encode ";touq&".toList (text.reverse.dropWhile isSpace) :=
    dropWhile_encode (by decide) (by decide)
  have hreverse : (escape text).reverse = encode ";touq&".toList text.reverse :=
    reverse_encode "&quot;".toList text
  rw [trimEnd, dropEndWhile, hreverse, hdrop, reverse_encode]
  rfl

theorem trim_escape (text : Text) : trim (escape text) = escape (trim text) := by
  rw [trim, dropSpace_escape, trimEnd_escape]
  rfl

theorem escape_eq_nil_iff : escape text = [] ↔ text = [] := by
  cases text with
  | nil => exact iff_of_true rfl rfl
  | cons c text =>
    refine iff_of_false (fun h => ?_) (List.cons_ne_nil _ _)
    by_cases hq : c = '"'
    · rw [hq] at h
      cases h
    · have hescape : escape (c :: text) = c :: escape text := encode_cons hq
      rw [hescape] at h
      cases h

theorem beforeEnd?_mark_escape (text : Text) : beforeEnd? Declaration.mark (escape text) =
    (beforeEnd? Declaration.mark text).map escape := by
  have hreverse : (escape text).reverse = encode ";touq&".toList text.reverse :=
    reverse_encode "&quot;".toList text
  have hafter : after? Declaration.mark.reverse (encode ";touq&".toList text.reverse) =
      (after? Declaration.mark.reverse text.reverse).map (encode ";touq&".toList) :=
    after?_encode (by decide) (by decide)
  rw [beforeEnd?, beforeEnd?, hreverse, hafter, Option.map_map, Option.map_map]
  refine Option.map_congr fun before _ => ?_
  exact reverse_encode ";touq&".toList before

end
end Text

namespace Declaration

/-- The declaration with its double quotes as they are written. -/
def escaped (declaration : Declaration) : Declaration :=
  ⟨escape declaration.property, escape declaration.value, declaration.important⟩

theorem unmarked_escape (value : Text) :
    unmarked (escape value) = (escape (unmarked value).1, (unmarked value).2) := by
  rw [unmarked, unmarked, Text.lower_escape, Text.beforeEnd?_mark_escape]
  cases hb : Text.beforeEnd? mark (Text.lower value) with
  | none => rfl
  | some before =>
    have hlower : Text.lower (value.take before.length) = before := by
      have htake : Text.lower (value.take before.length) = (Text.lower value).take before.length := by
        simp [Text.lower, List.map_take]
      rw [htake, Text.beforeEnd?_eq_some_iff.1 hb, List.take_left]
    have hlength : (escape before).length = (escape (value.take before.length)).length := by
      rw [← Text.length_lower (escape (value.take before.length)), Text.lower_escape, hlower]
    have hvalue : escape value =
        escape (value.take before.length) ++ escape (value.drop before.length) := by
      rw [← Guard.escape_append, List.take_append_drop]
    simp only [Option.map_some, hlength]
    rw [hvalue, List.take_left, Text.trimEnd_escape]

theorem ofText?_escape (text : Text) : ofText? (escape text) = (ofText? text).map escaped := by
  have hcut : Text.cut? [':'] (escape text) = (Text.cut? [':'] text).map
      fun (before, rest) => (escape before, escape rest) :=
    Text.cut?_encode (by decide) (by decide)
  rw [ofText?, ofText?, hcut]
  cases Text.cut? [':'] text with
  | none => rfl
  | some pair =>
    obtain ⟨property, value⟩ := pair
    simp only [Option.map_some, Option.bind_eq_bind, Option.bind_some, Text.trim_escape,
      Text.lower_escape, Text.escape_eq_nil_iff, unmarked_escape]
    split <;> rfl

/-- A style that is split at the same places has the same declarations behind the escape. -/
theorem block_escape {value : Text}
    (h : Nesting.splitsAlike .outside .outside value = true) :
    block (escape value) = (block value).map escaped := by
  have hparts : Text.splitOutside ';' (escape value) = (Text.splitOutside ';' value).map escape :=
    Text.splitFrom_escape_iff.2 h
  have hread : ofText? ∘ escape = Option.map escaped ∘ ofText? := funext ofText?_escape
  rw [block, block, hparts, List.filterMap_map, hread, List.map_filterMap]
  rfl

end Declaration
end MailTemplate
