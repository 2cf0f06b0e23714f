import MailTemplate.Proofs.Style.Precedence

/-! Shorthand properties. A property such as `margin` covers several longhands, and of the
declarations that cover a longhand the last one counts. A merged property stands where it was declared
first, with the value that it was declared with last, so what counts for a longhand can change. It
does not exactly if no property is declared both before and after all declarations of another one. -/

namespace MailTemplate
namespace Cascade

/-- The pair is the last one of a list whose property is covered. -/
def Decides (covers : Text → Prop) (pairs : Merged) (pair : Text × Text) : Prop :=
  ∃ front back, pairs = front ++ pair :: back ∧ covers pair.1 ∧ ∀ later ∈ back, ¬ covers later.1

/-- All places of the inner property stand between two places of the outer one. -/
def Surrounds (properties : List Text) (outer inner : Text) : Prop :=
  ∃ before middle after, properties = before ++ middle ++ after ∧
    outer ∈ before ∧ inner ∉ before ∧ inner ∈ middle ∧ outer ∈ after ∧ inner ∉ after

section
variable {properties before rest : List Text} {outer inner : Text}

theorem takeWhile_append_cons (h : inner ∉ before) :
    (before ++ inner :: rest).takeWhile (· != inner) = before := by
  have hall : ∀ property ∈ before, (property != inner) = true := by
    intro property hm
    exact bne_iff_ne.2 fun he => h (he ▸ hm)
  rw [List.takeWhile_append_of_pos hall, List.takeWhile_cons_of_neg (by simp), List.append_nil]

/-- Whether a property surrounds another one is seen before the first and after the last place of the
inner one. -/
theorem surrounds_iff : Surrounds properties outer inner ↔ inner ∈ properties ∧
    outer ∈ properties.takeWhile (· != inner) ∧
      outer ∈ properties.reverse.takeWhile (· != inner) := by
  constructor
  · rintro ⟨before, middle, after, rfl, houter, hinner, hmiddle, hafter, hbehind⟩
    refine ⟨List.mem_append_left _ (List.mem_append_right _ hmiddle), ?_, ?_⟩
    · obtain ⟨first, rest, rfl, hfirst⟩ := List.eq_append_cons_of_mem hmiddle
      have hnot : inner ∉ before ++ first := by simp [hinner, hfirst]
      rw [← List.append_assoc, List.append_assoc, List.cons_append, takeWhile_append_cons hnot]
      exact List.mem_append_left _ houter
    · obtain ⟨last, rest, hrest, hlast⟩ := List.eq_append_cons_of_mem (List.mem_reverse.2 hmiddle)
      have hnot : inner ∉ after.reverse ++ last := by simp [hbehind, hlast]
      have hreverse : (before ++ middle ++ after).reverse =
          (after.reverse ++ last) ++ inner :: (rest ++ before.reverse) := by simp [hrest]
      rw [hreverse, takeWhile_append_cons hnot]
      exact List.mem_append_left _ (List.mem_reverse.2 hafter)
  · rintro ⟨hm, houter, hafter⟩
    obtain ⟨before, rest, rfl, hinner⟩ := List.eq_append_cons_of_mem hm
    have hlast : inner ∈ (inner :: rest).reverse := by simp
    obtain ⟨after, middle, hrest, hbehind⟩ := List.eq_append_cons_of_mem hlast
    have hsplit : inner :: rest = (middle.reverse ++ [inner]) ++ after.reverse := by
      rw [← List.reverse_reverse (inner :: rest), hrest]
      simp
    rw [takeWhile_append_cons hinner] at houter
    rw [List.reverse_append, hrest, List.append_assoc, List.cons_append,
      takeWhile_append_cons hbehind] at hafter
    refine ⟨before, middle.reverse ++ [inner], after.reverse, ?_, houter, hinner, by simp, ?_, ?_⟩
    · rw [hsplit, List.append_assoc before]
    · exact List.mem_reverse.2 hafter
    · simpa using hbehind

instance : Decidable (Surrounds properties outer inner) := decidable_of_iff' _ surrounds_iff

/-- An outer property that is declared before the first and after the last place of an inner one. -/
theorem surrounds_of_first_of_last {after front back : List Text}
    (hfirst : properties = before ++ inner :: after) (houter : outer ∈ before)
    (hinner : inner ∉ before) (hlast : properties = front ++ outer :: back)
    (hbehind : inner ∉ outer :: back) : Surrounds properties outer inner := by
  refine surrounds_iff.2 ⟨?_, ?_, ?_⟩
  · rw [hfirst]
    exact List.mem_append_right _ List.mem_cons_self
  · rwa [hfirst, takeWhile_append_cons hinner]
  · have hall : ∀ property ∈ (outer :: back).reverse, (property != inner) = true := by
      intro property hm
      exact bne_iff_ne.2 fun he => hbehind (he ▸ List.mem_reverse.1 hm)
    rw [hlast, List.reverse_append, List.takeWhile_append_of_pos hall]
    exact List.mem_append_left _ (List.mem_reverse.2 List.mem_cons_self)

theorem Surrounds.mem (h : Surrounds properties outer inner) :
    outer ∈ properties ∧ inner ∈ properties := by
  obtain ⟨before, middle, after, rfl, houter, -, hmiddle, -⟩ := h
  simp [houter, hmiddle]

end

section
variable {covers : Text → Prop} {merged : Merged} {pair : Text × Text} {property : Text}
  {declaration : Declaration} {declarations : List Declaration}

theorem exists_decides (h : ∃ pair ∈ merged, covers pair.1) : ∃ pair, Decides covers merged pair := by
  induction merged using List.reverseRecOn with
  | nil =>
    obtain ⟨pair, hm, -⟩ := h
    cases hm
  | append_singleton others last ih =>
    by_cases hlast : covers last.1
    · exact ⟨last, others, [], rfl, hlast, fun _ hm => by cases hm⟩
    · obtain ⟨found, hm, hcovers⟩ := h
      have hothers : found ∈ others := by
        rcases List.mem_append.1 hm with hm | hm
        · exact hm
        · exact absurd (List.mem_singleton.1 hm ▸ hcovers) hlast
      obtain ⟨pair, front, back, rfl, hpair, hback⟩ := ih ⟨found, hothers, hcovers⟩
      refine ⟨pair, front, back ++ [last], by simp, hpair, fun later hl => ?_⟩
      rcases List.mem_append.1 hl with hl | hl
      · exact hback later hl
      · rwa [List.mem_singleton.1 hl]

theorem Decides.unique {other : Text × Text} (h : Decides covers merged pair)
    (ho : Decides covers merged other) : pair = other := by
  obtain ⟨front, back, hsplit, hcovers, hback⟩ := h
  obtain ⟨front', back', rfl, hcovers', hback'⟩ := ho
  rcases List.append_eq_append_iff.1 hsplit with ⟨common, -, he⟩ | ⟨common, -, he⟩
  · cases common with
    | nil => exact (List.cons.inj he).1.symm
    | cons head tail =>
      rw [(List.cons.inj he).2] at hback'
      exact absurd hcovers (hback' pair (List.mem_append_right _ List.mem_cons_self))
  · cases common with
    | nil => exact (List.cons.inj he).1
    | cons head tail =>
      rw [(List.cons.inj he).2] at hback
      exact absurd hcovers' (hback other (List.mem_append_right _ List.mem_cons_self))

/-- A new property comes last; one that is there keeps its place. -/
theorem map_fst_put_eq : (put merged declaration).map (·.1) =
    if declaration.property ∈ merged.map (·.1) then merged.map (·.1)
    else merged.map (·.1) ++ [declaration.property] := by
  induction merged with
  | nil => rfl
  | cons first rest ih =>
    obtain ⟨other, value⟩ := first
    rw [put]
    by_cases hp : other = declaration.property
    · simp [hp]
    · have hp' : declaration.property ≠ other := fun he => hp he.symm
      rw [if_neg hp, List.map_cons, ih]
      split
      · next hm => simp [hm]
      · next hm => simp [hm, hp']

theorem exists_first_of_foldl_put {front back : List Text}
    (h : (declarations.foldl put []).map (·.1) = front ++ property :: back) :
    ∃ before after, declarations.map (·.property) = before ++ property :: after ∧
      property ∉ before ∧ ∀ other, other ∈ front ↔ other ∈ before := by
  induction declarations using List.reverseRecOn generalizing back with
  | nil => cases front <;> cases h
  | append_singleton others last ih =>
    have hlast : ∀ {before after : List Text},
        others.map (·.property) = before ++ property :: after →
          (others ++ [last]).map (·.property) = before ++ property :: (after ++ [last.property]) := by
      intro before after hsplit
      rw [List.map_append, hsplit, List.append_assoc]
      rfl
    rw [List.foldl_append, List.foldl_cons, List.foldl_nil, map_fst_put_eq] at h
    split at h
    · obtain ⟨before, after, hsplit, hrest⟩ := ih h
      exact ⟨before, _, hlast hsplit, hrest⟩
    · next hnew =>
      rcases List.eq_nil_or_concat back with rfl | ⟨back, final, rfl⟩
      · obtain ⟨hfront, hproperty⟩ := List.append_inj' h rfl
        cases hproperty
        have hsame : ∀ other, other ∈ front ↔ other ∈ others.map (·.property) := by
          intro other
          rw [← hfront, map_fst_foldl_put]
          exact or_iff_right List.not_mem_nil
        refine ⟨others.map (·.property), [], List.map_append, ?_, hsame⟩
        rwa [← hsame, ← hfront]
      · rw [List.concat_eq_append, ← List.cons_append, ← List.append_assoc] at h
        obtain ⟨before, after, hsplit, hrest⟩ := ih (List.append_inj' h rfl).1
        exact ⟨before, _, hlast hsplit, hrest⟩

theorem mem_put_self (merged : Merged) (declaration : Declaration) :
    (declaration.property, declaration.value) ∈ put merged declaration := by
  induction merged with
  | nil => exact List.mem_singleton.2 rfl
  | cons first rest ih =>
    rw [put]
    split
    · next hp => exact List.mem_cons.2 (.inl (by rw [hp]))
    · exact List.mem_cons_of_mem _ ih

theorem mem_put_of_ne (h : pair ∈ merged) (hp : declaration.property ≠ pair.1) :
    pair ∈ put merged declaration := by
  induction merged with
  | nil => cases h
  | cons first rest ih =>
    rw [put]
    rcases List.mem_cons.1 h with rfl | hm
    · rw [if_neg hp.symm]
      exact List.mem_cons_self
    · split
      · exact List.mem_cons_of_mem _ hm
      · exact List.mem_cons_of_mem _ (ih hm)

theorem mem_foldl_put_of_ne (h : pair ∈ merged)
    (hp : ∀ declaration ∈ declarations, declaration.property ≠ pair.1) :
    pair ∈ declarations.foldl put merged := by
  induction declarations generalizing merged with
  | nil => exact h
  | cons first rest ih =>
    have hput := mem_put_of_ne h (hp first List.mem_cons_self)
    exact ih hput fun declaration hm => hp declaration (List.mem_cons_of_mem _ hm)

theorem Decides.foldl_put
    (h : Decides covers (declarations.map fun d => (d.property, d.value)) pair)
    (hn : ¬ ∃ outer inner, Surrounds (declarations.map (·.property)) outer inner) :
    Decides covers (declarations.foldl put []) pair := by
  obtain ⟨front, back, hsplit, hcovers, hback⟩ := h
  obtain ⟨first, rest, rfl, rfl, hrest⟩ := List.map_eq_append_iff.1 hsplit
  obtain ⟨last, later, rfl, rfl, rfl⟩ := List.map_eq_cons_iff.1 hrest
  have hlater : ∀ d ∈ later, ¬ covers d.property := fun d hd => hback _ (List.mem_map.2 ⟨d, hd, rfl⟩)
  have hmem : (last.property, last.value) ∈ (first ++ last :: later).foldl put [] := by
    rw [List.foldl_append, List.foldl_cons]
    refine mem_foldl_put_of_ne (mem_put_self _ last) fun d hd he => hlater d hd ?_
    rwa [he]
  obtain ⟨front, back, hmerged⟩ := List.append_of_mem hmem
  refine ⟨front, back, hmerged, hcovers, fun ⟨inner, value⟩ hm hinner => hn ?_⟩
  -- The property that stands behind is surrounded by the one whose declaration is the last.
  obtain ⟨between, others, rfl⟩ := List.append_of_mem hm
  have hkeys : ((first ++ last :: later).foldl put []).map (·.1) =
      (front.map (·.1) ++ last.property :: between.map (·.1)) ++ inner :: others.map (·.1) := by
    rw [hmerged]
    simp
  obtain ⟨before, after, hfirst, hinnerFirst, hiff⟩ := exists_first_of_foldl_put hkeys
  have houter : last.property ∈ before :=
    (hiff _).1 (List.mem_append_right _ List.mem_cons_self)
  have hbehind : inner ∉ last.property :: later.map (·.property) := by
    intro hin
    rcases List.mem_cons.1 hin with rfl | hin
    · exact hinnerFirst houter
    · obtain ⟨d, hd, rfl⟩ := List.mem_map.1 hin
      exact hlater d hd hinner
  have hlast : (first ++ last :: later).map (·.property) =
      first.map (·.property) ++ last.property :: later.map (·.property) := by
    rw [List.map_append, List.map_cons]
  exact ⟨_, _, surrounds_of_first_of_last hfirst houter hinnerFirst hlast hbehind⟩

/-- For two properties of which one surrounds the other, the pair that counts is another one after
merging. -/
theorem Surrounds.not_decides {outer inner : Text}
    (h : Surrounds (declarations.map (·.property)) outer inner)
    (hd : Decides (fun property => property = outer ∨ property = inner)
      (declarations.map fun d => (d.property, d.value)) pair) :
    ¬ Decides (fun property => property = outer ∨ property = inner)
      (declarations.foldl put []) pair := by
  obtain ⟨hin, hbefore, hafter⟩ := surrounds_iff.1 h
  have hne : outer ≠ inner := by
    have hkept := List.mem_takeWhile_imp hbefore
    rwa [bne_iff_ne] at hkept
  have hpair : pair.1 = outer := by
    obtain ⟨front, back, hpairs, hcovers, hback⟩ := hd
    have hproperties : declarations.map (·.property) =
        front.map (·.1) ++ pair.1 :: back.map (·.1) := by
      have hfst := congrArg (List.map (·.1)) hpairs
      simpa [Function.comp_def] using hfst
    have hlater : ∀ property, property = outer ∨ property = inner → property ∉ back.map (·.1) := by
      intro property hcovered hm
      obtain ⟨later, hl, rfl⟩ := List.mem_map.1 hm
      exact hback later hl hcovered
    refine hcovers.resolve_right fun he => ?_
    have hinnerBack : inner ∉ (back.map (·.1)).reverse :=
      mt List.mem_reverse.1 (hlater inner (.inr rfl))
    rw [hproperties, he, List.reverse_append, List.reverse_cons, List.append_assoc,
      List.singleton_append, takeWhile_append_cons hinnerBack, List.mem_reverse] at hafter
    exact hlater outer (.inl rfl) hafter
  rintro ⟨front, back, hmerged, -, hback⟩
  have hkeys : (declarations.foldl put []).map (·.1) = front.map (·.1) ++ outer :: back.map (·.1) := by
    rw [hmerged, List.map_append, List.map_cons, hpair]
  obtain ⟨first, rest, hfirst, houterFirst, hiff⟩ := exists_first_of_foldl_put hkeys
  have hinnerFirst : inner ∈ first := by
    have hmem : inner ∈ (declarations.foldl put []).map (·.1) := by
      rw [map_fst_foldl_put]
      exact .inr hin
    rw [hkeys, List.mem_append, List.mem_cons] at hmem
    rcases hmem with hm | he | hm
    · exact (hiff inner).1 hm
    · exact absurd he.symm hne
    · obtain ⟨later, hl, rfl⟩ := List.mem_map.1 hm
      exact absurd (.inr rfl) (hback later hl)
  -- The outer property is declared before the inner one, and the other way round.
  obtain ⟨before, between, rfl, hinnerBefore⟩ := List.eq_append_cons_of_mem hinnerFirst
  rw [hfirst, List.append_assoc, List.cons_append, takeWhile_append_cons hinnerBefore] at hbefore
  exact houterFirst (List.mem_append_left _ hbefore)

section
variable {doc : Document} {rules : List Rule} {node : NodeId} {element : Element} {value : Text}

/-- The declarations that a style is written with decide every longhand as the cascade does, whatever
the longhands of a property are, exactly if in the cascade no property surrounds another one. -/
theorem computed_decides_iff (he : doc.element? node = some element)
    (hplain : ∀ text, element.attr? "style".toList = some text → Guard.opener ∉ text)
    (hv : computed doc rules node = some value) :
    let own := Declaration.block ((element.attr? "style".toList).getD [])
    let cascade := order (matching doc node rules) own
    let written := cascade.foldl put []
    value = write written ∧
      ((∀ (Longhand : Type) (longhands : Text → Set Longhand) (longhand : Longhand),
        (∃ declaration ∈ cascade, longhand ∈ longhands declaration.property) →
          ∃ pair, Decides (longhand ∈ longhands ·) (cascade.map fun d => (d.property, d.value)) pair ∧
            Decides (longhand ∈ longhands ·) written pair) ↔
        ¬ ∃ outer inner, Surrounds (cascade.map (·.property)) outer inner) := by
  intro own cascade written
  refine ⟨?_, fun hall => ?_, fun hn Longhand longhands longhand hcovered => ?_⟩
  · obtain ⟨found, hfound, hstyle⟩ := computed_eq_some hv
    cases he.symm.trans hfound
    rw [hstyle, style_of_notMem hplain]
  · rintro ⟨outer, inner, hsurrounds⟩
    -- One longhand that the two properties cover and no other one does.
    have hcovered : ∃ declaration ∈ cascade, () ∈ {_u : Unit | declaration.property = outer ∨
        declaration.property = inner} := by
      obtain ⟨before, middle, after, hsplit, houter, -⟩ := hsurrounds
      have hin : outer ∈ cascade.map (·.property) := by
        rw [hsplit]
        exact List.mem_append_left _ (List.mem_append_left _ houter)
      obtain ⟨declaration, hd, rfl⟩ := List.mem_map.1 hin
      exact ⟨declaration, hd, .inl rfl⟩
    obtain ⟨pair, hcascade, hwritten⟩ :=
      hall Unit (fun property => {_u | property = outer ∨ property = inner}) () hcovered
    exact hsurrounds.not_decides hcascade hwritten
  · obtain ⟨declaration, hd, hlonghand⟩ := hcovered
    have hpairs : ∃ pair ∈ cascade.map fun d => (d.property, d.value), longhand ∈ longhands pair.1 :=
      ⟨_, List.mem_map.2 ⟨declaration, hd, rfl⟩, hlonghand⟩
    obtain ⟨pair, hpair⟩ : ∃ pair, Decides (longhand ∈ longhands ·)
        (cascade.map fun d => (d.property, d.value)) pair := exists_decides hpairs
    exact ⟨pair, hpair, hpair.foldl_put hn⟩

/-- A margin at one side is declared by a rule and by the element itself, after the margin at all sides. -/
theorem computed_decides_side :
    let css := "p { margin: 1px; margin-top: 5px }"
    let source := "<p style=\"margin-top: 0; color: red\">a</p>"
    ∃ rules doc, Sheet.parse css.toList = .ok rules ∧ Document.parse source.toList = .ok doc ∧
      computed doc rules 1 = some "margin: 1px; margin-top: 0; color: red;".toList ∧
        ∀ (Longhand : Type) (longhands : Text → Set Longhand) (longhand : Longhand),
          longhand ∈ longhands "margin".toList → ∃ pair,
            Decides (longhand ∈ longhands ·) [("margin".toList, "1px".toList),
              ("margin-top".toList, "5px".toList), ("margin-top".toList, ['0']),
              ("color".toList, "red".toList)] pair ∧
            Decides (longhand ∈ longhands ·) [("margin".toList, "1px".toList),
              ("margin-top".toList, ['0']), ("color".toList, "red".toList)] pair := by
  intro css source
  let element : Element := ⟨['p'], [⟨"style".toList, some "margin-top: 0; color: red".toList⟩], false⟩
  let doc := Document.ofForest (.element element (.leaf (.text ['a']) .nil) .nil)
  let rule : Rule := ⟨[.compound ⟨some ['p'], none, [], []⟩],
    [⟨"margin".toList, "1px".toList, false⟩, ⟨"margin-top".toList, "5px".toList, false⟩]⟩
  have hvalue : computed doc [rule] 1 = some "margin: 1px; margin-top: 0; color: red;".toList := by
    decide +kernel
  have hplain : ∀ text, element.attr? "style".toList = some text → Guard.opener ∉ text := by
    rintro text h
    cases h
    decide
  have hcascade : order (matching doc 1 [rule])
      (Declaration.block ((element.attr? "style".toList).getD [])) =
        [⟨"margin".toList, "1px".toList, false⟩, ⟨"margin-top".toList, "5px".toList, false⟩,
          ⟨"margin-top".toList, ['0'], false⟩, ⟨"color".toList, "red".toList, false⟩] := by
    decide +kernel
  obtain ⟨-, hdecides⟩ := computed_decides_iff (show doc.element? 1 = some element from rfl) hplain hvalue
  rw [hcascade] at hdecides
  refine ⟨[rule], doc, by decide +kernel, by decide +kernel, hvalue,
    fun Longhand longhands longhand hlonghand => ?_⟩
  refine hdecides.2 ?_ Longhand longhands longhand ⟨_, List.mem_cons_self, hlonghand⟩
  let properties := ["margin".toList, "margin-top".toList, "margin-top".toList, "color".toList]
  have hnone : ∀ outer ∈ properties, ∀ inner ∈ properties, ¬ Surrounds properties outer inner := by
    decide
  rintro ⟨outer, inner, hsurrounds⟩
  exact hnone outer hsurrounds.mem.1 inner hsurrounds.mem.2 hsurrounds

/-- The margin of the element itself is the last one of the cascade. It is written in the place of the
margin of the rule, before the margin at the top, which counts there instead. -/
theorem not_decides_margin :
    let css := "p { margin: 1px; margin-top: 5px }"
    let own := "margin: 0".toList
    let source := "<p style=\"".toList ++ own ++ "\">a</p>".toList
    let longhands : Text → Set Text := fun property =>
      {longhand | longhand = property ∨ property = "margin".toList ∧ longhand = "margin-top".toList}
    ∃ rules doc element, Sheet.parse css.toList = .ok rules ∧ Document.parse source = .ok doc ∧
      doc.element? 1 = some element ∧ element.attr? "style".toList = some own ∧ Guard.opener ∉ own ∧
      computed doc rules 1 = some "margin: 0; margin-top: 5px;".toList ∧
      let cascade := order (matching doc 1 rules) (Declaration.block own)
      (∃ declaration ∈ cascade, "margin-top".toList ∈ longhands declaration.property) ∧
        ¬ ∃ pair, Decides ("margin-top".toList ∈ longhands ·)
            (cascade.map fun d => (d.property, d.value)) pair ∧
          Decides ("margin-top".toList ∈ longhands ·) (cascade.foldl put []) pair := by
  intro css own source longhands
  let element : Element := ⟨['p'], [⟨"style".toList, some own⟩], false⟩
  let doc := Document.ofForest (.element element (.leaf (.text ['a']) .nil) .nil)
  let rule : Rule := ⟨[.compound ⟨some ['p'], none, [], []⟩],
    [⟨"margin".toList, "1px".toList, false⟩, ⟨"margin-top".toList, "5px".toList, false⟩]⟩
  have hcascade : order (matching doc 1 [rule]) (Declaration.block own) =
      [⟨"margin".toList, "1px".toList, false⟩, ⟨"margin-top".toList, "5px".toList, false⟩,
        ⟨"margin".toList, ['0'], false⟩] := by decide +kernel
  refine ⟨[rule], doc, element, by decide +kernel, by decide +kernel, rfl, rfl, by decide,
    by decide +kernel, ?_⟩
  rw [hcascade]
  refine ⟨⟨_, List.mem_cons_self, .inr ⟨rfl, rfl⟩⟩, ?_⟩
  have hmargin : Decides ("margin-top".toList ∈ longhands ·) [("margin".toList, "1px".toList),
      ("margin-top".toList, "5px".toList), ("margin".toList, ['0'])] ("margin".toList, ['0']) :=
    ⟨[_, _], [], rfl, .inr ⟨rfl, rfl⟩, fun _ hm => by cases hm⟩
  have htop : Decides ("margin-top".toList ∈ longhands ·) [("margin".toList, ['0']),
      ("margin-top".toList, "5px".toList)] ("margin-top".toList, "5px".toList) :=
    ⟨[_], [], rfl, .inl rfl, fun _ hm => by cases hm⟩
  rintro ⟨pair, hpair, hpair'⟩
  exact absurd ((hpair.unique hmargin).symm.trans (hpair'.unique htop)) (by decide)

end
end
end Cascade
end MailTemplate
