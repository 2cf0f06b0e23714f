import MailTemplate.Proofs.Style.Grammar
import MailTemplate.Proofs.Style.Placement

/-! What a written selector asks for and how specific it is. The conditions of a compound are kept by
kind, with one place for an id, so all that is written counts as long as no compound names two ids.
More texts are read than the supported selectors; those are told apart by the way in which they are
written. -/

namespace MailTemplate
namespace Selector

namespace Item

def type? : Item → Option Text
  | hasType name => some name
  | _ => none

def id? : Item → Option Text
  | hasId name => some name
  | _ => none

def class? : Item → Option Text
  | hasClass name => some name
  | _ => none

def attribute? : Item → Option (Text × Option Text)
  | hasAttribute _ name => some (name, none)
  | hasValue _ name _ value => some (name, some value)
  | _ => none

/-- What an item asks of an element. -/
def Holds (element : Element) : Item → Prop
  | any => True
  | hasType name => Text.lower element.name = Text.lower name
  | hasClass name => name ∈ element.classes
  | hasId name => element.id? = some name
  | hasAttribute _ name => (element.attr? name).isSome = true
  | hasValue _ name _ value => element.attr? name = some value

/-- A value is bare or between two equal quotation marks, and has none inside. -/
def IsProper : Item → Prop
  | hasValue _ _ right value => (∀ c ∈ value, Text.isQuote c = false) ∧
    (Text.Strips Text.isSpace right value ∨ ∃ quote, Text.isQuote quote = true ∧
      Text.Strips Text.isSpace right (quote :: (value ++ [quote])))
  | _ => True

theorem exists_isQuote_iff {p : Char → Prop} :
    (∃ quote, Text.isQuote quote = true ∧ p quote) ↔ p '"' ∨ p '\'' := by
  simp [Text.isQuote, or_and_right, exists_or]

instance : (item : Item) → Decidable item.IsProper
  | hasValue _ _ right value =>
    @instDecidableAnd _ _ (List.decidableBAll _ _)
      (decidable_of_iff (Text.Strips Text.isSpace right value ∨
        (Text.Strips Text.isSpace right ('"' :: (value ++ ['"'])) ∨
          Text.Strips Text.isSpace right ('\'' :: (value ++ ['\'']))))
        (or_congr_right (exists_isQuote_iff
          (p := fun quote => Text.Strips Text.isSpace right (quote :: (value ++ [quote])))).symm))
  | any | hasType _ | hasClass _ | hasId _ | hasAttribute _ _ => inferInstanceAs (Decidable True)

end Item

namespace Part

def types (part : Part) : List Text := part.items.filterMap Item.type?

def ids (part : Part) : List Text := part.items.filterMap Item.id?

def classes (part : Part) : List Text := part.items.filterMap Item.class?

def attributes (part : Part) : List (Text × Option Text) := part.items.filterMap Item.attribute?

def Holds (part : Part) (element : Element) : Prop := ∀ item ∈ part.items, item.Holds element

/-- All items hold for an element, but of several ids the last one alone. -/
structure HoldsLast (part : Part) (element : Element) : Prop where
  id : ∀ id ∈ part.ids.getLast?, element.id? = some id
  others : ∀ item ∈ part.items, item.id? = none → item.Holds element

/-- The mark of a child is written once, and `*` only where a type name could stand. -/
structure IsProper (part : Part) : Prop where
  mark : part.gap.count '>' ≤ 1
  any : Item.any ∉ part.items.tail
  items : ∀ item ∈ part.items, item.IsProper

instance (part : Part) : Decidable part.IsProper :=
  decidable_of_iff (part.gap.count '>' ≤ 1 ∧ Item.any ∉ part.items.tail ∧
    ∀ item ∈ part.items, item.IsProper)
    ⟨fun h => ⟨h.1, h.2.1, h.2.2⟩, fun h => ⟨h.mark, h.any, h.items⟩⟩

end Part

namespace Written

/-- A selector begins with a compound, and its parts are proper. -/
structure IsProper (written : Written) : Prop where
  first : '>' ∉ written.first.gap
  parts : ∀ part ∈ written.parts, part.IsProper

instance (written : Written) : Decidable written.IsProper :=
  decidable_of_iff ('>' ∉ written.first.gap ∧ ∀ part ∈ written.parts, part.IsProper)
    ⟨fun h => ⟨h.1, h.2⟩, fun h => ⟨h.first, h.parts⟩⟩

def specificity (written : Written) : Specificity where
  ids := (written.parts.map fun part => part.ids.length).sum
  classes := (written.parts.map fun part => part.classes.length + part.attributes.length).sum
  types := (written.parts.map fun part => part.types.length).sum

/-- The compounds can be placed on elements that satisfy what they say, the last one on the node. -/
def Matches (written : Written) (asks : Part → Element → Prop) (doc : Document) (node : NodeId) :
    Prop :=
  ∃ nodes, doc.Places (written.parts.map asks) (written.rest.map Part.combinator) nodes ∧
    nodes.getLast? = some node

end Written

def IsSupported (text : Text) : Prop :=
  ∃ written : Written, written.IsLegible ∧ written.IsProper ∧ written.text = text

section
variable {items : List Item} {compound : Compound}

def read (compound : Compound) (items : List Item) : Compound :=
  (items.map Item.condition).foldl Compound.add compound

@[simp] theorem read_nil : read compound [] = compound := rfl

@[simp] theorem read_cons {item : Item} :
    read compound (item :: items) = read (compound.add item.condition) items := rfl

theorem read_type? : (read compound items).type? =
    (((items.filterMap Item.type?).getLast?).map Text.lower).or compound.type? := by
  induction items generalizing compound with
  | nil => rfl
  | cons item items ih =>
    rw [read_cons, ih]
    cases item with
    | hasType name =>
      rw [List.filterMap_cons_some (show (Item.hasType name).type? = some name from rfl),
        List.getLast?_cons]
      cases (items.filterMap Item.type?).getLast? <;> rfl
    | any | hasClass _ | hasId _ | hasAttribute _ _ | hasValue _ _ _ _ => rfl

theorem read_id? : (read compound items).id? =
    ((items.filterMap Item.id?).getLast?).or compound.id? := by
  induction items generalizing compound with
  | nil => rfl
  | cons item items ih =>
    rw [read_cons, ih]
    cases item with
    | hasId name =>
      rw [List.filterMap_cons_some (show (Item.hasId name).id? = some name from rfl),
        List.getLast?_cons]
      cases (items.filterMap Item.id?).getLast? <;> rfl
    | any | hasType _ | hasClass _ | hasAttribute _ _ | hasValue _ _ _ _ => rfl

theorem read_classes :
    (read compound items).classes = compound.classes ++ items.filterMap Item.class? := by
  induction items generalizing compound with
  | nil => exact (List.append_nil _).symm
  | cons item items ih =>
    rw [read_cons, ih]
    cases item with
    | hasClass name => exact List.append_assoc _ _ _
    | any | hasType _ | hasId _ | hasAttribute _ _ | hasValue _ _ _ _ => rfl

theorem read_attributes :
    (read compound items).attributes = compound.attributes ++ items.filterMap Item.attribute? := by
  induction items generalizing compound with
  | nil => exact (List.append_nil _).symm
  | cons item items ih =>
    rw [read_cons, ih]
    cases item with
    | hasAttribute _ _ | hasValue _ _ _ _ => exact List.append_assoc _ _ _
    | any | hasType _ | hasId _ | hasClass _ => rfl

end

section
variable {part : Part} {element : Element}

theorem Part.compound_eq (part : Part) : part.compound =
    ⟨part.types.getLast?.map Text.lower, part.ids.getLast?, part.classes, part.attributes⟩ := by
  have hread : part.compound = read .empty part.items := rfl
  calc part.compound = ⟨(read .empty part.items).type?, (read .empty part.items).id?,
        (read .empty part.items).classes, (read .empty part.items).attributes⟩ := hread
    _ = _ := by
      rw [read_type?, read_id?, read_classes, read_attributes]
      simp only [Compound.empty, Option.or_none, List.nil_append]
      rfl

/-- An element has an attribute, with the value that is asked for if there is one. -/
def HasAttribute (element : Element) (asked : Text × Option Text) : Prop :=
  ∃ actual, element.attr? asked.1 = some actual ∧ ∀ value ∈ asked.2, actual = value

theorem forall_others_iff : (∀ item ∈ part.items, item.id? = none → item.Holds element) ↔
    (∀ name ∈ part.types, Text.lower element.name = Text.lower name) ∧
    (∀ name ∈ part.classes, name ∈ element.classes) ∧
    ∀ asked ∈ part.attributes, HasAttribute element asked := by
  simp only [Part.types, Part.classes, Part.attributes, List.mem_filterMap, forall_exists_index,
    and_imp]
  constructor
  · intro h
    refine ⟨fun name item hm hitem => ?_, fun name item hm hitem => ?_, fun asked item hm hitem => ?_⟩
    all_goals have holds := h item hm
    all_goals cases item <;> cases hitem
    · exact holds rfl
    · exact holds rfl
    · obtain ⟨actual, hactual⟩ := Option.isSome_iff_exists.1 (holds rfl)
      exact ⟨actual, hactual, fun value hvalue => absurd hvalue (Option.not_mem_none value)⟩
    · exact ⟨_, holds rfl, fun value hvalue => Option.some.inj hvalue⟩
  · rintro ⟨htypes, hclasses, hattributes⟩ item hm hid
    cases item with
    | any => trivial
    | hasType name => exact htypes name _ hm rfl
    | hasClass name => exact hclasses name _ hm rfl
    | hasId name => cases hid
    | hasAttribute inner name =>
      obtain ⟨actual, hactual, -⟩ := hattributes _ _ hm rfl
      exact Option.isSome_iff_exists.2 ⟨actual, hactual⟩
    | hasValue left name right value =>
      obtain ⟨actual, hactual, hvalue⟩ := hattributes _ _ hm rfl
      rw [← hvalue value rfl]
      exact hactual

theorem length_types_le_one (h : part.IsLegible) : part.types.length ≤ 1 := by
  obtain ⟨item, items, hitems⟩ := List.exists_cons_of_ne_nil h.items_ne_nil
  have hnone : items.filterMap Item.type? = [] := by
    have htypes := h.items.types
    rw [hitems, List.tail_cons] at htypes
    refine List.filterMap_eq_nil_iff.2 fun item hm => ?_
    have htype := htypes item hm
    cases item with
    | hasType name => cases htype
    | any | hasClass _ | hasId _ | hasAttribute _ _ | hasValue _ _ _ _ => rfl
  rw [Part.types, hitems, List.filterMap_cons, hnone]
  cases item.type? <;> simp

theorem forall_getLast?_iff {names : List Text} {p : Text → Prop}
    (h : ∀ a ∈ names, ∀ b ∈ names, a = b) :
    (∀ name ∈ names.getLast?, p name) ↔ ∀ name ∈ names, p name := by
  constructor
  · intro hlast name hm
    obtain ⟨last, hget⟩ : ∃ last, names.getLast? = some last :=
      ⟨_, List.getLast?_eq_some_getLast (List.ne_nil_of_mem hm)⟩
    rw [h name hm last (List.mem_of_getLast? hget)]
    exact hlast last hget
  · exact fun hall name hm => hall name (List.mem_of_getLast? hm)

/-- The conditions that are read hold where the items do, the last id for all of them. -/
theorem holds_compound_iff (h : part.IsLegible) :
    part.compound.holds element = true ↔ part.HoldsLast element := by
  have htypes : ∀ a ∈ part.types, ∀ b ∈ part.types, a = b := by
    have hone := length_types_le_one h
    intro a ha b hb
    obtain ⟨i, hi, rfl⟩ := List.mem_iff_getElem.1 ha
    obtain ⟨j, hj, rfl⟩ := List.mem_iff_getElem.1 hb
    obtain rfl : i = j := by omega
    rfl
  have hread : part.compound.holds element = true ↔
      (∀ name ∈ part.types.getLast?, Text.lower element.name = Text.lower name) ∧
      (∀ id ∈ part.ids.getLast?, element.id? = some id) ∧
      (∀ name ∈ part.classes, name ∈ element.classes) ∧
      ∀ asked ∈ part.attributes, HasAttribute element asked := by
    rw [Part.compound_eq, Compound.holds, Bool.and_eq_true, Bool.and_eq_true, Bool.and_eq_true,
      and_assoc, and_assoc]
    refine and_congr ?_ (and_congr ?_ (and_congr ?_ ?_))
    · simp [Option.all_eq_true, Text.equalIgnoringCase, Text.lower_lower]
    · simp [Option.all_eq_true]
    · simp
    · simp [HasAttribute, Option.any_eq_true, Option.all_eq_true]
  rw [hread, forall_getLast?_iff htypes, and_left_comm, ← forall_others_iff]
  exact ⟨fun h => ⟨h.1, h.2⟩, fun h => ⟨h.id, h.others⟩⟩

theorem holdsLast_iff (hids : ∀ a ∈ part.ids, ∀ b ∈ part.ids, a = b) :
    part.HoldsLast element ↔ part.Holds element := by
  constructor
  · intro h item hm
    cases item with
    | hasId name =>
      have hname : name ∈ part.ids := List.mem_filterMap.2 ⟨_, hm, rfl⟩
      exact (forall_getLast?_iff hids).1 h.id name hname
    | any | hasType _ | hasClass _ | hasAttribute _ _ | hasValue _ _ _ _ => exact h.others _ hm rfl
  · intro h
    refine ⟨(forall_getLast?_iff hids).2 fun name hname => ?_, fun item hm _ => h item hm⟩
    obtain ⟨item, hm, hitem⟩ := List.mem_filterMap.1 hname
    have holds := h item hm
    cases item <;> cases hitem
    exact holds

theorem specificity_compound (h : part.IsLegible) : part.compound.specificity =
    ⟨min 1 part.ids.length, part.classes.length + part.attributes.length, part.types.length⟩ := by
  have hlast : ∀ names : List Text, names.getLast?.toList.length = min 1 names.length := by
    intro names
    cases names with
    | nil => rfl
    | cons name names =>
      rw [List.getLast?_cons, List.length_cons]
      simp
  have htypes := length_types_le_one h
  rw [Part.compound_eq, Compound.specificity]
  simp only [Option.toList_map, List.length_map, hlast]
  rw [Nat.min_eq_right htypes]

end

section
variable {selector : Selector} {written : Written}

theorem specificity_eq : selector.specificity =
    ⟨(selector.compounds.map (·.specificity.ids)).sum,
      (selector.compounds.map (·.specificity.classes)).sum,
      (selector.compounds.map (·.specificity.types)).sum⟩ := by
  induction selector with
  | compound c => rfl
  | under outer combinator c ih =>
    rw [specificity, ih, compounds, Specificity.add]
    simp only [List.map_append, List.map_singleton, List.sum_append, List.sum_singleton]

theorem compounds_foldl {parts : List Part} : (parts.foldl
    (fun outer part => .under outer part.combinator part.compound) selector).compounds =
      selector.compounds ++ parts.map Part.compound := by
  induction parts generalizing selector with
  | nil => exact (List.append_nil _).symm
  | cons part parts ih =>
    rw [List.foldl_cons, ih, compounds, List.append_assoc]
    rfl

theorem combinators_foldl {parts : List Part} : (parts.foldl
    (fun outer part => .under outer part.combinator part.compound) selector).combinators =
      selector.combinators ++ parts.map Part.combinator := by
  induction parts generalizing selector with
  | nil => exact (List.append_nil _).symm
  | cons part parts ih =>
    rw [List.foldl_cons, ih, combinators, List.append_assoc]
    rfl

theorem Written.compounds_selector (written : Written) :
    written.selector.compounds = written.parts.map Part.compound :=
  compounds_foldl

theorem Written.combinators_selector (written : Written) :
    written.selector.combinators = written.rest.map Part.combinator :=
  combinators_foldl

theorem sum_map_eq_iff {parts : List Part} {f g : Part → Nat} (hle : ∀ part, f part ≤ g part) :
    (parts.map f).sum = (parts.map g).sum ↔ ∀ part ∈ parts, f part = g part := by
  induction parts with
  | nil => simp
  | cons part parts ih =>
    have hrest : (parts.map f).sum ≤ (parts.map g).sum := List.sum_le_sum fun part _ => hle part
    have hpart := hle part
    rw [List.forall_mem_cons, ← ih, List.map_cons, List.map_cons, List.sum_cons, List.sum_cons]
    omega

theorem specificity_selector_iff (h : written.IsLegible) :
    written.selector.specificity = written.specificity ↔
      ∀ part ∈ written.parts, part.ids.length ≤ 1 := by
  have hparts : ∀ part ∈ written.parts, part.compound.specificity =
      ⟨min 1 part.ids.length, part.classes.length + part.attributes.length, part.types.length⟩ :=
    fun part hm => specificity_compound (h.each part hm)
  have hids : written.parts.map (·.compound.specificity.ids) =
      written.parts.map fun part => min 1 part.ids.length :=
    List.map_congr_left fun part hm => by rw [hparts part hm]
  have hclasses : written.parts.map (·.compound.specificity.classes) =
      written.parts.map fun part => part.classes.length + part.attributes.length :=
    List.map_congr_left fun part hm => by rw [hparts part hm]
  have htypes : written.parts.map (·.compound.specificity.types) =
      written.parts.map fun part => part.types.length :=
    List.map_congr_left fun part hm => by rw [hparts part hm]
  rw [specificity_eq, written.compounds_selector, Written.specificity]
  simp only [List.map_map, Function.comp_def, hids, hclasses, htypes, Specificity.mk.injEq,
    and_true]
  rw [sum_map_eq_iff fun part => Nat.min_le_right _ _]
  exact forall₂_congr fun part _ => by omega

theorem isMatch_selector_iff {source : Text} {doc : Document}
    (hparse : Document.parse source = .ok doc) (h : written.IsLegible) (node : NodeId) :
    doc.isMatch written.selector node = true ↔ written.Matches Part.HoldsLast doc node := by
  have hconditions : written.parts.map (fun part element => part.compound.holds element = true) =
      written.parts.map Part.HoldsLast :=
    List.map_congr_left fun part hm => funext fun element =>
      propext (holds_compound_iff (h.each part hm))
  rw [Document.isMatch_iff hparse, written.compounds_selector, written.combinators_selector,
    List.map_map, Written.Matches, ← hconditions]
  rfl

theorem matches_congr {asks others : Part → Element → Prop} {doc : Document} {node : NodeId}
    (h : ∀ part ∈ written.parts, ∀ element, asks part element ↔ others part element) :
    written.Matches asks doc node ↔ written.Matches others doc node := by
  have hmap : written.parts.map asks = written.parts.map others :=
    List.map_congr_left fun part hm => funext fun element => propext (h part hm element)
  rw [Written.Matches, Written.Matches, hmap]

end

theorem isSupported_text_iff {written : Written} (h : written.IsLegible) :
    IsSupported written.text ↔ written.IsProper := by
  constructor
  · rintro ⟨again, hagain, hproper, htext⟩
    rwa [← Written.eq_of_text_eq hagain h htext]
  · exact fun hproper => ⟨written, h, hproper, rfl⟩

/-- A text is read if it is a written selector, and exactly the supported selectors are read as far
as what is written is proper. The selector that is read counts all that is written exactly if no
compound has two ids. It matches where the compounds can be placed, the last id of each for all of its
ids; so it matches where all items hold if no compound has two different ids. -/
theorem ofText?_agrees_iff (text : Text) :
    (((ofText? text).isSome = true ↔ IsSupported text) ↔
      ∀ written : Written, written.IsLegible → written.text = text → written.IsProper) ∧
    ∀ written : Written, written.IsLegible → written.text = text →
      ofText? text = some written.selector ∧
      (written.selector.specificity = written.specificity ↔
        ∀ part ∈ written.parts, part.ids.length ≤ 1) ∧
      ∀ source doc, Document.parse source = .ok doc → ∀ node,
        (doc.isMatch written.selector node = true ↔ written.Matches Part.HoldsLast doc node) ∧
        ((∀ part ∈ written.parts, ∀ a ∈ part.ids, ∀ b ∈ part.ids, a = b) →
          (doc.isMatch written.selector node = true ↔ written.Matches Part.Holds doc node)) := by
  have hread : (ofText? text).isSome = true ↔
      ∃ written : Written, written.IsLegible ∧ written.text = text := by
    simp only [Option.isSome_iff_exists, ofText?_eq_some_iff]
    exact ⟨fun ⟨_, written, h, ht, _⟩ => ⟨written, h, ht⟩,
      fun ⟨written, h, ht⟩ => ⟨_, written, h, ht, rfl⟩⟩
  refine ⟨?_, ?_⟩
  · rw [hread]
    constructor
    · rintro hiff written h rfl
      exact (isSupported_text_iff h).1 (hiff.1 ⟨written, h, rfl⟩)
    · intro hproper
      exact ⟨fun ⟨written, h, ht⟩ => ⟨written, h, hproper written h ht, ht⟩,
        fun ⟨written, h, _, ht⟩ => ⟨written, h, ht⟩⟩
  · rintro written h rfl
    refine ⟨ofText?_eq_some_iff.2 ⟨written, h, rfl, rfl⟩, specificity_selector_iff h,
      fun source doc hparse node => ⟨isMatch_selector_iff hparse h node, fun hids => ?_⟩⟩
    rw [isMatch_selector_iff hparse h node]
    exact matches_congr fun part hm element => holdsLast_iff (hids part hm)

theorem ofText?_agrees_iff_child :
    let written : Written := ⟨⟨[], [.hasType ['a'], .hasId ['i'], .hasClass ['c']]⟩,
      [⟨[' ', '>', ' '], [.any, .hasAttribute ['h'] ['h'],
        .hasValue ['k'] ['k'] ['\'', 'v', '\''] ['v']]⟩], []⟩
    written.IsLegible ∧ written.text = "a#i.c > *[h][k='v']".toList ∧
      ((ofText? written.text).isSome = true ↔ IsSupported written.text) ∧
      written.selector.specificity = ⟨1, 3, 1⟩ ∧
      ∃ doc, Document.parse "<a id=i class='b c'><b h=1 k=v></b></a>".toList = .ok doc ∧
        written.Matches Part.Holds doc 2 ∧ doc.isMatch written.selector 2 = true := by
  intro written
  let doc := Document.ofForest (.element ⟨['a'], [⟨"id".toList, some ['i']⟩,
    ⟨"class".toList, some "b c".toList⟩], false⟩ (.element ⟨['b'], [⟨['h'], some ['1']⟩,
      ⟨['k'], some ['v']⟩], false⟩ .nil .nil) .nil)
  have hlegible : written.IsLegible := by decide +kernel
  have hproper : written.IsProper := by decide +kernel
  have hparse : Document.parse "<a id=i class='b c'><b h=1 k=v></b></a>".toList = .ok doc := by
    decide +kernel
  obtain ⟨hagrees, hall⟩ := ofText?_agrees_iff written.text
  obtain ⟨hread, hspecificity, hmatch⟩ := hall written hlegible rfl
  have hnode : doc.isMatch written.selector 2 = true := by decide +kernel
  refine ⟨hlegible, rfl, hagrees.2 fun again h ht => ?_, hspecificity.2 ?_, doc, hparse, ?_, hnode⟩
  · rwa [Written.eq_of_text_eq h hlegible ht]
  · decide +kernel
  · exact ((hmatch _ doc hparse 2).2 (by decide +kernel)).1 hnode

/-- Of two ids one is forgotten, and a selector that begins with the mark of a child is read. -/
theorem not_agrees_two_ids :
    let written : Written := ⟨⟨[], [.hasId ['a'], .hasId ['b']]⟩, [], []⟩
    (written.IsLegible ∧ written.IsProper ∧ written.text = "#a#b".toList ∧
      ofText? "#a#b".toList = some written.selector ∧
      written.selector.specificity ≠ written.specificity ∧
      ∃ doc, Document.parse "<p id=b></p>".toList = .ok doc ∧
        doc.isMatch written.selector 1 = true ∧ ¬ written.Matches Part.Holds doc 1) ∧
      (ofText? "> p".toList).isSome = true ∧ ¬ IsSupported "> p".toList := by
  intro written
  let element : Element := ⟨['p'], [⟨"id".toList, some ['b']⟩], false⟩
  let doc := Document.ofForest (.element element .nil .nil)
  refine ⟨⟨by decide +kernel, by decide +kernel, by decide +kernel, by decide +kernel,
    by decide +kernel, doc, by decide +kernel, by decide +kernel, ?_⟩, by decide +kernel, ?_⟩
  · rintro ⟨nodes, ⟨hsatisfied, -⟩, hlast⟩
    cases hsatisfied with
    | cons hfirst hrest =>
      cases hrest
      cases hlast
      obtain ⟨found, hfound, hholds⟩ := hfirst
      have hid : found.id? = some ['a'] := hholds (.hasId ['a']) List.mem_cons_self
      obtain rfl : element = found := Option.some.inj hfound
      exact absurd hid (by decide +kernel)
  · intro hsupported
    let child : Written := ⟨⟨['>', ' '], [.hasType ['p']]⟩, [], []⟩
    have hlegible : child.IsLegible := by decide +kernel
    have hproper : child.IsProper := (isSupported_text_iff hlegible).1 hsupported
    exact absurd hproper.first (by decide +kernel)

end Selector
end MailTemplate
