import MailTemplate.Proofs.Markup.Printed
import MailTemplate.Proofs.Style.EscapedParts

/-! Escaped styles read again. An escaped style has the escaped declarations if it is split at the same
places. If every part of the style declares something or is blank, it has them only then: reading a
declaration loses nothing but white space, so the characters can be counted, and a part that ends
somewhere else makes another declaration. -/

namespace MailTemplate
open Attribute (escape)

namespace Text

/-- A text that has something in front of the first semicolon, if there is one, or is blank. -/
def BeginsSound (text : Text) : Prop := (dropSpace text).head? ≠ some ';'

section
variable {text rest : Text} {c : Char} {nesting : Nesting} {f : Char → Bool}

theorem beginsSound_nil : BeginsSound [] := fun h => by cases h

theorem BeginsSound.cons_space (hc : isSpace c = true) (h : BeginsSound text) :
    BeginsSound (c :: text) := by
  rwa [BeginsSound, dropSpace, List.dropWhile_cons_of_pos hc]

theorem beginsSound_cons (hc : isSpace c = false) (hs : c ≠ ';') : BeginsSound (c :: text) := by
  rw [BeginsSound, dropSpace, List.dropWhile_cons_of_neg (by simp [hc])]
  exact fun h => hs (Option.some.inj h)

theorem BeginsSound.not_blank_append (h : BeginsSound (text ++ ';' :: rest)) :
    text.all isSpace = false := by
  rw [Bool.eq_false_iff]
  intro hblank
  refine h ?_
  rw [dropSpace, List.dropWhile_append_of_pos (List.all_eq_true.1 hblank),
    List.dropWhile_cons_of_neg (by decide)]
  rfl

theorem BeginsSound.escape (h : BeginsSound text) : BeginsSound (escape text) := by
  rw [BeginsSound, dropSpace_escape]
  rw [BeginsSound] at h
  cases hd : dropSpace text with
  | nil => exact fun he => by cases he
  | cons c rest =>
    by_cases hq : c = '"'
    · rw [hq]
      exact fun he => by cases he
    · have hescape : Attribute.escape (c :: rest) = c :: Attribute.escape rest := encode_cons hq
      rw [hescape]
      rwa [hd] at h

theorem step_outside_of_isSpace (hc : isSpace c = true) : Nesting.outside.step c = .outside := by
  have hne : ∀ d : Char, isSpace d = false → c ≠ d := by
    rintro d hd rfl
    rw [hd] at hc
    cases hc
  simp [Nesting.step, Nesting.outside, hne '\\' (by decide), hne '"' (by decide),
    hne '\'' (by decide), hne '(' (by decide), hne ')' (by decide)]

/-- A part of a split text begins outside, where a semicolon would split it at once. -/
theorem beginsSound_of_mem_splitFrom :
    (∀ part ∈ (splitFrom ';' nesting text).tail, BeginsSound part) ∧
      (nesting = .outside → ∀ part ∈ splitFrom ';' nesting text, BeginsSound part) := by
  induction text generalizing nesting with
  | nil =>
    refine ⟨fun part hm => (by cases hm), fun _ part hm => ?_⟩
    rw [List.mem_singleton.1 hm]
    exact beginsSound_nil
  | cons c text ih =>
    by_cases hs : nesting = .outside ∧ c = ';'
    · obtain ⟨rfl, rfl⟩ := hs
      rw [splitFrom_separator]
      refine ⟨ih.2 rfl, fun _ part hm => ?_⟩
      rcases List.mem_cons.1 hm with rfl | hm
      · exact beginsSound_nil
      · exact ih.2 rfl part hm
    · obtain ⟨first, parts, hparts⟩ := List.exists_cons_of_ne_nil
        (splitFrom_ne_nil ';' (nesting.step c) text)
      obtain ⟨hlater, hall⟩ : (∀ part ∈ (splitFrom ';' (nesting.step c) text).tail,
          BeginsSound part) ∧ (nesting.step c = .outside →
            ∀ part ∈ splitFrom ';' (nesting.step c) text, BeginsSound part) := ih
      rw [splitFrom_cons hs, hparts, List.modifyHead_cons]
      rw [hparts] at hlater hall
      refine ⟨hlater, fun hout part hm => ?_⟩
      rcases List.mem_cons.1 hm with rfl | hm
      · cases hc : isSpace c with
        | true =>
          refine BeginsSound.cons_space hc (hall ?_ first List.mem_cons_self)
          rw [hout, step_outside_of_isSpace hc]
        | false => exact beginsSound_cons hc fun he => hs ⟨hout, he⟩
      · exact hlater part hm

theorem flatMap_splitFrom (nesting : Nesting) (text : Text) :
    (splitFrom ';' nesting text).flatMap (· ++ [';']) = text ++ [';'] := by
  induction text generalizing nesting with
  | nil => rfl
  | cons c text ih =>
    by_cases hs : nesting = .outside ∧ c = ';'
    · obtain ⟨rfl, rfl⟩ := hs
      rw [splitFrom_separator, List.flatMap_cons, ih]
      rfl
    · obtain ⟨first, parts, hparts⟩ := List.exists_cons_of_ne_nil
        (splitFrom_ne_nil ';' (nesting.step c) text)
      have hrest := ih (nesting.step c)
      rw [hparts, List.flatMap_cons] at hrest
      rw [splitFrom_cons hs, hparts, List.modifyHead_cons, List.flatMap_cons, List.append_assoc [c],
        List.append_assoc [c], hrest]
      rfl

theorem flatMap_map_escape (parts : List Text) :
    (parts.map escape).flatMap (· ++ [';']) = escape (parts.flatMap (· ++ [';'])) := by
  induction parts with
  | nil => rfl
  | cons part parts ih =>
    rw [List.map_cons, List.flatMap_cons, List.flatMap_cons, ih, Guard.escape_append,
      Guard.escape_append]
    rfl

section
variable (hspace : ∀ c, isSpace c = true → f c = false)
include hspace

theorem countP_dropSpace (text : Text) : (dropSpace text).countP f = text.countP f := by
  have hzero : (spaceOf text).countP f = 0 := by
    refine List.countP_eq_zero.2 fun c hm => ?_
    rw [hspace c (List.mem_takeWhile_imp hm)]
    exact Bool.false_ne_true
  conv_rhs => rw [← spaceOf_append_dropSpace text, List.countP_append, hzero, Nat.zero_add]

theorem countP_trimEnd (text : Text) : (trimEnd text).countP f = text.countP f := by
  rw [trimEnd, dropEndWhile, List.countP_reverse, ← dropSpace, countP_dropSpace hspace,
    List.countP_reverse]

theorem countP_trim (text : Text) : (trim text).countP f = text.countP f := by
  rw [trim, countP_trimEnd hspace, countP_dropSpace hspace]

end

theorem isSpace_toLower (c : Char) : isSpace c.toLower = isSpace c :=
  apply_toLower (fun _ hc => isSpace_of_isAlpha hc) c

def counts (c : Char) : Bool := !(isSpace c || c == ';')

theorem counts_eq_false_of_isSpace (c : Char) (h : isSpace c = true) : counts c = false := by
  simp [counts, h]

theorem counts_toLower (c : Char) : counts c.toLower = counts c := by
  simp only [counts, isSpace_toLower, toLower_beq (d := ';') (by decide)]

theorem countP_lower (hlower : ∀ c : Char, f c.toLower = f c) (text : Text) :
    (lower text).countP f = text.countP f := by
  rw [lower, List.countP_map]
  exact List.countP_congr fun c _ => by rw [Function.comp_apply, hlower]

end
end Text

theorem Element.attr?_escaped (element : Element) (name : Text) :
    element.escaped.attr? name = (element.attr? name).map escape := by
  have hnamed : Attribute.isNamed name ∘ Attribute.escaped = Attribute.isNamed name := rfl
  have hvalue : (fun attr : Attribute => attr.value.getD []) ∘ Attribute.escaped =
      escape ∘ fun attr : Attribute => attr.value.getD [] := by
    funext attr
    obtain ⟨name, value⟩ := attr
    cases value <;> rfl
  rw [Element.attr?, Element.attr?, Element.escaped, List.find?_map, hnamed, Option.map_map,
    Option.map_map, hvalue]

namespace Declaration

/-- A declaration without white space around its parts. -/
def shown (declaration : Declaration) : Text :=
  declaration.property ++ ':' :: (declaration.value ++ if declaration.important then mark else [])

section
variable {f : Char → Bool} (hspace : ∀ c, Text.isSpace c = true → f c = false)
  (hlower : ∀ c : Char, f c.toLower = f c) {text value : Text} {declaration : Declaration}
include hspace hlower

theorem countP_unmarked (value : Text) : value.countP f =
    ((unmarked value).1 ++ if (unmarked value).2 then mark else []).countP f := by
  rw [unmarked]
  cases hb : Text.beforeEnd? mark (Text.lower value) with
  | none => simp
  | some before =>
    have hdrop : Text.lower (value.drop before.length) = mark := by
      have hmap : Text.lower (value.drop before.length) = (Text.lower value).drop before.length := by
        simp [Text.lower, List.map_drop]
      rw [hmap, Text.beforeEnd?_eq_some_iff.1 hb, List.drop_left]
    calc value.countP f
        = (value.take before.length ++ value.drop before.length).countP f := by
          rw [List.take_append_drop]
      _ = (value.take before.length).countP f + mark.countP f := by
          rw [List.countP_append, ← hdrop, Text.countP_lower hlower]
      _ = (Text.trimEnd (value.take before.length) ++ mark).countP f := by
          rw [List.countP_append, Text.countP_trimEnd hspace]

theorem countP_of_ofText? (h : ofText? text = some declaration) :
    text.countP f = declaration.shown.countP f := by
  obtain ⟨property, value, hcut, hproperty, hvalue, himportant⟩ := ofText?_eq_some h
  have hunmarked := countP_unmarked hspace hlower (Text.trim value)
  rw [← hvalue, ← himportant, Text.countP_trim hspace] at hunmarked
  have hname : declaration.property.countP f = property.countP f := by
    rw [hproperty, Text.countP_lower hlower, Text.countP_trim hspace]
  rw [Text.eq_append_of_cut? hcut, List.append_assoc, List.singleton_append, List.countP_append,
    List.countP_cons, hunmarked, ← hname, ← List.countP_cons, ← List.countP_append]
  rfl

/-- The characters of some parts are those of their declarations and those of the other parts. -/
theorem countP_parts (hsemicolon : f ';' = false) (parts : List Text) :
    (parts.flatMap (· ++ [';'])).countP f =
      ((parts.filterMap ofText?).map (·.shown.countP f)).sum +
        ((parts.filter fun part => (ofText? part).isNone).map (List.countP f)).sum := by
  induction parts with
  | nil => rfl
  | cons part parts ih =>
    have hpart : (part ++ [';']).countP f = part.countP f := by
      simp [hsemicolon]
    rw [List.flatMap_cons, List.countP_append, hpart, ih]
    cases hd : ofText? part with
    | none =>
      rw [List.filterMap_cons_none hd, List.filter_cons_of_pos (by simp [hd]), List.map_cons,
        List.sum_cons]
      omega
    | some declaration =>
      rw [List.filterMap_cons_some hd, List.filter_cons_of_neg (by simp [hd]), List.map_cons,
        List.sum_cons, countP_of_ofText? hspace hlower hd]
      omega

end

/-- A part that declares something or is blank. -/
def IsTidy (part : Text) : Prop := (ofText? part).isSome = true ∨ part.all Text.isSpace = true

instance (part : Text) : Decidable (IsTidy part) :=
  inferInstanceAs (Decidable ((ofText? part).isSome = true ∨ part.all Text.isSpace = true))

section
variable {parts others : List Text} {part more : Text}

theorem IsTidy.escape (h : IsTidy part) : IsTidy (escape part) := by
  refine h.imp (fun hsome => ?_) fun hblank => ?_
  · rw [ofText?_escape, Option.isSome_map]
    exact hsome
  · have hquote : '"' ∉ part := fun hm => absurd (List.all_eq_true.1 hblank _ hm) (by decide)
    rw [Attribute.escape_of_notMem hquote]
    exact hblank

/-- A part of white space and semicolons that does not begin with a semicolon is blank. -/
theorem blank_of_countP (h : part.BeginsSound)
    (hc : part.countP Text.counts = 0) :
    part.all Text.isSpace = true := by
  rw [List.countP_eq_zero] at hc
  have hsplit : Text.spaceOf part ++ Text.dropSpace part = part :=
    Text.spaceOf_append_dropSpace part
  cases hd : Text.dropSpace part with
  | nil =>
    rw [hd, List.append_nil] at hsplit
    rw [← hsplit]
    exact List.all_eq_true.2 fun c hm => List.mem_takeWhile_imp hm
  | cons c rest =>
    have hin : c ∈ part := by
      rw [← hsplit, hd]
      exact List.mem_append_right _ List.mem_cons_self
    have hsemicolon : c ≠ ';' := by
      rintro rfl
      exact h (by rw [hd]; rfl)
    exact absurd (hc c hin) (by simp [Text.counts, Text.isSpace_of_dropSpace hd, hsemicolon])

theorem sum_countP_of_isTidy (h : ∀ part ∈ parts, IsTidy part) :
    ((parts.filter fun part => (ofText? part).isNone).map (List.countP Text.counts)).sum = 0 := by
  rw [List.sum_eq_zero_iff]
  intro count hm
  obtain ⟨part, hpart, rfl⟩ := List.mem_map.1 hm
  obtain ⟨hin, hnone⟩ := List.mem_filter.1 hpart
  have hall : part.all Text.isSpace = true := (h part hin).resolve_left fun hsome => by
    rw [Option.isNone_iff_eq_none.1 hnone] at hsome
    cases hsome
  refine List.countP_eq_zero.2 fun c hc => ?_
  rw [Text.counts_eq_false_of_isSpace c (List.all_eq_true.1 hall c hc)]
  exact Bool.false_ne_true

/-- Parts that make the same declarations as tidy ones out of the same characters are tidy as well. -/
theorem isTidy_of_same (hsame : parts.flatMap (· ++ [';']) = others.flatMap (· ++ [';']))
    (hd : parts.filterMap ofText? = others.filterMap ofText?) (h : ∀ part ∈ others, IsTidy part)
    (hs : ∀ part ∈ parts, Text.BeginsSound part) : ∀ part ∈ parts, IsTidy part := by
  have hcounted := countP_parts Text.counts_eq_false_of_isSpace Text.counts_toLower (by decide)
  have hcount := congrArg (List.countP Text.counts) hsame
  rw [hcounted, hcounted, hd, sum_countP_of_isTidy h, Nat.add_left_cancel_iff,
    List.sum_eq_zero_iff] at hcount
  intro part hm
  cases hpart : ofText? part with
  | some declaration => exact .inl (by rw [hpart]; rfl)
  | none =>
    refine .inr (blank_of_countP (hs part hm) (hcount _ ?_))
    exact List.mem_map_of_mem (List.mem_filter.2 ⟨hm, by rw [hpart]; rfl⟩)

theorem ne_of_append (h : IsTidy part) (hs : Text.BeginsSound (part ++ ';' :: more))
    (ho : IsTidy (part ++ ';' :: more)) : ∃ declaration other, ofText? part = some declaration ∧
      ofText? (part ++ ';' :: more) = some other ∧ declaration ≠ other := by
  have hpart : (ofText? part).isSome = true :=
    h.resolve_right fun hb => by rw [hs.not_blank_append] at hb; cases hb
  have hwhole : (ofText? (part ++ ';' :: more)).isSome = true := by
    refine ho.resolve_right fun hb => ?_
    rw [List.all_append, hs.not_blank_append] at hb
    cases hb
  obtain ⟨declaration, hd⟩ := Option.isSome_iff_exists.1 hpart
  obtain ⟨other, hd'⟩ := Option.isSome_iff_exists.1 hwhole
  refine ⟨declaration, other, hd, hd', ?_⟩
  rintro rfl
  let f : Char → Bool := fun c => !Text.isSpace c
  have hspace : ∀ c, Text.isSpace c = true → f c = false := fun c hc => by simp [f, hc]
  have hlower : ∀ c : Char, f c.toLower = f c := fun c => congrArg not (Text.isSpace_toLower c)
  have hcount := (countP_of_ofText? hspace hlower hd).trans
    (countP_of_ofText? hspace hlower hd').symm
  have hsemicolon : f ';' = true := by decide
  rw [List.countP_append, List.countP_cons, hsemicolon, if_pos rfl] at hcount
  omega

theorem eq_of_same (hsame : parts.flatMap (· ++ [';']) = others.flatMap (· ++ [';']))
    (hd : parts.filterMap ofText? = others.filterMap ofText?)
    (h : ∀ part ∈ parts, IsTidy part ∧ Text.BeginsSound part)
    (ho : ∀ part ∈ others, IsTidy part ∧ Text.BeginsSound part) : parts = others := by
  induction parts generalizing others with
  | nil =>
    cases others with
    | nil => rfl
    | cons other others => simp at hsame
  | cons part parts ih =>
    cases others with
    | nil => simp at hsame
    | cons other others =>
      obtain ⟨htidy, hsound⟩ := h part List.mem_cons_self
      obtain ⟨hotidy, hosound⟩ := ho other List.mem_cons_self
      rw [List.flatMap_cons, List.flatMap_cons, List.append_assoc, List.append_assoc,
        List.singleton_append, List.singleton_append] at hsame
      have hfirst : ∀ {d d' : Declaration}, ofText? part = some d → ofText? other = some d' →
          d = d' := by
        intro d d' hp hp'
        rw [List.filterMap_cons_some hp, List.filterMap_cons_some hp'] at hd
        exact (List.cons.inj hd).1
      have heq : part = other := by
        rcases List.append_eq_append_iff.1 hsame with ⟨common, rfl, hc⟩ | ⟨common, rfl, hc⟩
        · cases common with
          | nil => exact (List.append_nil _).symm
          | cons c common =>
            obtain rfl := (List.cons.inj hc).1
            obtain ⟨d, d', hp, hp', hne⟩ := ne_of_append htidy hosound hotidy
            exact absurd (hfirst hp hp') hne
        · cases common with
          | nil => exact List.append_nil _
          | cons c common =>
            obtain rfl := (List.cons.inj hc).1
            obtain ⟨d, d', hp, hp', hne⟩ := ne_of_append hotidy hsound htidy
            exact absurd (hfirst hp' hp).symm hne
      subst heq
      have hrest := (List.cons.inj (List.append_cancel_left hsame)).2
      refine congrArg (part :: ·) (ih hrest ?_ (fun p hm => h p (List.mem_cons_of_mem _ hm))
        fun p hm => ho p (List.mem_cons_of_mem _ hm))
      cases hp : ofText? part with
      | none => rwa [List.filterMap_cons_none hp, List.filterMap_cons_none hp] at hd
      | some d =>
        rw [List.filterMap_cons_some hp, List.filterMap_cons_some hp] at hd
        exact (List.cons.inj hd).2

/-- Where every part of a style declares something or is blank, the escaped style has the escaped
declarations only if it is split at the same places. -/
theorem splitsAlike_of_block_escape {value : Text}
    (ht : ∀ part ∈ Text.splitOutside ';' value, IsTidy part)
    (h : block (escape value) = (block value).map escaped) :
    Nesting.splitsAlike .outside .outside value = true := by
  have hread : ofText? ∘ escape = Option.map escaped ∘ ofText? := funext ofText?_escape
  have hd : (Text.splitOutside ';' (escape value)).filterMap ofText? =
      ((Text.splitOutside ';' value).map escape).filterMap ofText? := by
    rw [List.filterMap_map, hread]
    exact h.trans List.map_filterMap
  have hsame : (Text.splitOutside ';' (escape value)).flatMap (· ++ [';']) =
      ((Text.splitOutside ';' value).map escape).flatMap (· ++ [';']) := by
    rw [Text.flatMap_map_escape, Text.splitOutside, Text.splitOutside, Text.flatMap_splitFrom,
      Text.flatMap_splitFrom, Guard.escape_append]
    rfl
  have hparts : ∀ part ∈ Text.splitOutside ';' (escape value), part.BeginsSound :=
    Text.beginsSound_of_mem_splitFrom.2 rfl
  have hescaped : ∀ part ∈ (Text.splitOutside ';' value).map escape,
      IsTidy part ∧ part.BeginsSound := by
    intro part hm
    obtain ⟨part, hpart, rfl⟩ := List.mem_map.1 hm
    exact ⟨(ht part hpart).escape, (Text.beginsSound_of_mem_splitFrom.2 rfl part hpart).escape⟩
  have htidy := isTidy_of_same hsame hd (fun part hm => (hescaped part hm).1) hparts
  have heq := eq_of_same hsame hd (fun part hm => ⟨htidy part hm, hparts part hm⟩) hescaped
  exact Text.splitFrom_escape_iff.1 heq

end

/-- An escaped style has the escaped declarations of the style, if both are split at the same places; a
style of which every part declares something or is blank has them only then. The escaped style is what
is read, when the start tag of an element with the style has been written. -/
theorem block_escape_of_splitsAlike (value : Text) :
    (Nesting.splitsAlike .outside .outside value = true →
      block (escape value) = (block value).map escaped) ∧
    ((∀ part ∈ Text.splitOutside ';' value, IsTidy part) →
      block (escape value) = (block value).map escaped →
        Nesting.splitsAlike .outside .outside value = true) ∧
    ∀ (element : Element) (ending rest : Text), element.WellFormed →
      Attribute.Separate element.attributes → Ending ending element.selfClosing rest →
        element.attr? "style".toList = some value →
          Token.scan (element.opening ++ ending) = .ok (Token.ofStart element.escaped rest) ∧
            element.escaped.attr? "style".toList = some (escape value) := by
  refine ⟨block_escape, splitsAlike_of_block_escape, fun element ending rest hw hs he hv => ⟨?_, ?_⟩⟩
  · exact Token.scan_opening_of_separate hw hs he
  · rw [Element.attr?_escaped, hv]
    rfl

theorem block_escape_address :
    let value := "background: url(\"a;b.png\"); color: red".toList
    let element : Element := ⟨['p'], [⟨"style".toList, some value⟩], false⟩
    block (escape value) = [⟨"background".toList, "url(&quot;a;b.png&quot;)".toList, false⟩,
      ⟨"color".toList, "red".toList, false⟩] ∧
    Token.scan "<p style=\"background: url(&quot;a;b.png&quot;); color: red\">".toList =
      .ok (.start element.escaped, []) ∧
    element.escaped.attr? "style".toList = some (escape value) := by
  intro value element
  obtain ⟨hblock, -, hread⟩ := block_escape_of_splitsAlike value
  have hw : element.WellFormed := by
    refine ⟨⟨'p', [], rfl, by decide⟩, fun c hc => ?_, rfl, fun attr hm => .inr ⟨?_, fun c hc => ?_⟩⟩
    · rw [List.mem_singleton.1 hc]
      decide
    · rw [List.mem_singleton.1 hm]
      decide
    · rw [List.mem_singleton.1 hm] at hc
      exact List.all_eq_true.1 (show "style".toList.all Attribute.isNameChar = true by decide) c hc
  have hs : Attribute.Separate element.attributes := ⟨fun h => (by cases h), trivial⟩
  obtain ⟨hscan, hvalue⟩ := hread element ['>'] [] hw hs (ending_close []) rfl
  exact ⟨(hblock (by decide +kernel)).trans (by decide +kernel), hscan.trans (by decide +kernel), hvalue⟩

/-- A list of fonts is cut at the quotes when it is read again, and the rest of it is lost. -/
theorem block_escape_fonts :
    let value := "font-family: \"A B\", serif; color: red".toList
    ∃ doc again, Document.parse ("<p style='".toList ++ value ++ "'>x</p>".toList) = .ok doc ∧
      Document.parse doc.serialize = .ok again ∧
      (doc.element? 1).bind (·.attr? "style".toList) = some value ∧
      (again.element? 1).bind (·.attr? "style".toList) = some (escape value) ∧
      block value = [⟨"font-family".toList, "\"A B\", serif".toList, false⟩,
        ⟨"color".toList, "red".toList, false⟩] ∧
      block (escape value) = [⟨"font-family".toList, "&quot".toList, false⟩,
        ⟨"color".toList, "red".toList, false⟩] ∧
      block (escape value) ≠ (block value).map escaped := by
  intro value
  let doc := Document.ofForest
    (.element ⟨['p'], [⟨"style".toList, some value⟩], false⟩ (.leaf (.text ['x']) .nil) .nil)
  let again := Document.ofForest
    (.element ⟨['p'], [⟨"style".toList, some (escape value)⟩], false⟩ (.leaf (.text ['x']) .nil) .nil)
  exact ⟨doc, again, by decide +kernel, by decide +kernel, by decide +kernel, by decide +kernel,
    by decide +kernel, by decide +kernel, by decide +kernel⟩

end Declaration
end MailTemplate
