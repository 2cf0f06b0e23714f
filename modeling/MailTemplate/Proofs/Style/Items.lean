import MailTemplate.Proofs.Text.Case
import MailTemplate.Proofs.Text.Cut
import MailTemplate.Style.Selector

/-! How the conditions on one element are written. Reading is told from the side of writing: what is
read at the front of a text is an item that is written there, and it is read as its condition. -/

namespace MailTemplate
namespace Text

/-- A text is `core` between characters of a kind, and `core` begins and ends with no more of them. -/
structure Strips (p : Char → Bool) (text core : Text) : Prop where
  around : ∃ before after, text = before ++ core ++ after ∧
    (∀ c ∈ before, p c = true) ∧ ∀ c ∈ after, p c = true
  starts : ∀ c ∈ core.head?, p c = false
  ends : ∀ c ∈ core.getLast?, p c = false

def isQuote (c : Char) : Bool := c == '"' || c == '\''

section
variable {p : Char → Bool} {text core : Text}

theorem dropEndWhile_run {run : Text} (hr : ∀ c ∈ run, p c = true)
    (hn : ∀ c ∈ core.getLast?, p c = false) : dropEndWhile p (core ++ run) = core := by
  rw [dropEndWhile, List.reverse_append, dropWhile_run, List.reverse_reverse]
  · exact fun c hc => hr c (List.mem_reverse.1 hc)
  · rwa [List.head?_reverse]

theorem strips_iff : Strips p text core ↔ dropEndWhile p (text.dropWhile p) = core := by
  constructor
  · rintro ⟨⟨before, after, rfl, hbefore, hafter⟩, hstarts, hends⟩
    cases core with
    | nil =>
      rw [List.append_nil, List.dropWhile_append_of_pos hbefore,
        List.dropWhile_eq_nil_iff.2 hafter]
      rfl
    | cons c core =>
      rw [List.append_assoc, dropWhile_run hbefore, dropEndWhile_run hafter hends]
      exact hstarts
  · rintro rfl
    have hfront := List.takeWhile_append_dropWhile (p := p) (l := text)
    have hback := List.takeWhile_append_dropWhile (p := p) (l := (text.dropWhile p).reverse)
    have hcut : text.dropWhile p = dropEndWhile p (text.dropWhile p) ++
        ((text.dropWhile p).reverse.takeWhile p).reverse := by
      rw [dropEndWhile, ← List.reverse_append, hback, List.reverse_reverse]
    refine ⟨⟨text.takeWhile p, ((text.dropWhile p).reverse.takeWhile p).reverse, ?_, ?_, ?_⟩, ?_, ?_⟩
    · rw [List.append_assoc, ← hcut, hfront]
    · exact fun c hc => List.mem_takeWhile_imp hc
    · exact fun c hc => List.mem_takeWhile_imp (List.mem_reverse.1 hc)
    · intro c hc
      have hhead := List.head?_dropWhile_not p text
      rw [hcut, List.head?_append, Option.mem_def.1 hc] at hhead
      exact hhead
    · intro c hc
      have hhead := List.head?_dropWhile_not p (text.dropWhile p).reverse
      rw [dropEndWhile, List.getLast?_reverse] at hc
      rw [Option.mem_def.1 hc] at hhead
      exact hhead

instance : Decidable (Strips p text core) := decidable_of_iff _ strips_iff.symm

theorem trim_eq_iff : trim text = core ↔ Strips isSpace text core :=
  strips_iff.symm

end
end Text

namespace Selector

/-- A condition as it is written. White space may stand around what is between the brackets and
around the equals sign, quotation marks around a value. -/
inductive Item where
  | any
  | hasType (name : Text)
  | hasClass (name : Text)
  | hasId (name : Text)
  | hasAttribute (inner name : Text)
  | hasValue (left name right value : Text)
  deriving Repr, DecidableEq

/-- A name is not empty and has only letters and digits of ASCII, `-` and `_`. -/
def IsName (name : Text) : Prop := name ≠ [] ∧ ∀ c ∈ name, Condition.isNameChar c = true

instance (name : Text) : Decidable (IsName name) :=
  @instDecidableAnd _ _ inferInstance (List.decidableBAll _ _)

def isGapChar (c : Char) : Bool := Text.isSpace c || c == '>'

def Stops (rest : Text) : Prop := ∀ c ∈ rest.head?, Condition.isNameChar c = false

def Ends (rest : Text) : Prop := ∀ c ∈ rest.head?, isGapChar c = true

namespace Item

def text : Item → Text
  | any => ['*']
  | hasType name => name
  | hasClass name => '.' :: name
  | hasId name => '#' :: name
  | hasAttribute inner _ => '[' :: (inner ++ [']'])
  | hasValue left _ right _ => '[' :: (left ++ '=' :: right ++ [']'])

def condition : Item → Condition
  | any => .any
  | hasType name => .hasType (Text.lower name)
  | hasClass name => .hasClass name
  | hasId name => .hasId name
  | hasAttribute _ name => .hasAttribute name none
  | hasValue _ name _ value => .hasAttribute name (some value)

/-- The names are names, and what is named between brackets is what is written there. -/
def IsLegible : Item → Prop
  | any => True
  | hasType name | hasClass name | hasId name => IsName name
  | hasAttribute inner name => IsName name ∧ Text.Strips Text.isSpace inner name
  | hasValue left name right value => (IsName name ∧ Text.Strips Text.isSpace left name) ∧
    ']' ∉ right ∧ ∃ core, Text.Strips Text.isSpace right core ∧ Text.Strips Text.isQuote core value

def isType : Item → Bool
  | hasType _ => true
  | _ => false

def isNamed : Item → Bool
  | hasType _ | hasClass _ | hasId _ => true
  | _ => false

def inner? : Item → Option Text
  | hasAttribute inner _ => some inner
  | hasValue left _ right _ => some (left ++ '=' :: right)
  | _ => none

end Item

section
variable {first : Bool} {source rest name inner : Text} {condition : Condition}

theorem isSpace_of_isNameChar {c : Char} (h : Condition.isNameChar c = true) :
    Text.isSpace c = false := by
  simp only [Condition.isNameChar, Char.isAlphanum, Bool.or_eq_true, beq_iff_eq] at h
  rcases h with ((halpha | hdigit) | rfl) | rfl
  · exact Text.isSpace_of_isAlpha halpha
  · exact Text.isSpace_of_isDigit hdigit
  · rfl
  · rfl

theorem isGapChar_of_isNameChar {c : Char} (h : Condition.isNameChar c = true) :
    isGapChar c = false := by
  rw [isGapChar, isSpace_of_isNameChar h, Bool.false_or, beq_eq_false_iff_ne]
  rintro rfl
  cases h

theorem Ends.stops (h : Ends rest) : Stops rest := by
  intro c hc
  by_contra hname
  have hgap := isGapChar_of_isNameChar (Bool.of_not_eq_false hname)
  rw [h c hc] at hgap
  cases hgap

theorem notMem_of_strips {c : Char} (hc : Condition.isNameChar c = false)
    (hs : Text.isSpace c = false) (hn : IsName name) (h : Text.Strips Text.isSpace inner name) :
    c ∉ inner := by
  obtain ⟨⟨before, after, rfl, hbefore, hafter⟩, -, -⟩ := h
  simp only [List.mem_append, not_or]
  refine ⟨⟨fun hm => ?_, fun hm => ?_⟩, fun hm => ?_⟩
  · rw [hbefore c hm] at hs
    cases hs
  · rw [hn.2 c hm] at hc
    cases hc
  · rw [hafter c hm] at hs
    cases hs

theorem name?_eq_some_iff : Condition.name? source = some (name, rest) ↔
    IsName name ∧ source = name ++ rest ∧ Stops rest := by
  constructor
  · intro h
    unfold Condition.name? at h
    split at h
    · cases h
    · next hne =>
      cases h
      refine ⟨⟨hne, fun c hc => List.mem_takeWhile_imp hc⟩,
        List.takeWhile_append_dropWhile.symm, fun c hc => ?_⟩
      have hhead := List.head?_dropWhile_not Condition.isNameChar source
      rw [Option.mem_def.1 hc] at hhead
      exact hhead
  · rintro ⟨⟨hne, hname⟩, rfl, hstops⟩
    rw [Condition.name?, Text.takeWhile_run hname hstops, Text.dropWhile_run hname hstops]
    cases name with
    | nil => exact absurd rfl hne
    | cons c name => rfl

theorem unquote_eq_iff {right value : Text} : Condition.unquote right = value ↔
    ∃ core, Text.Strips Text.isSpace right core ∧ Text.Strips Text.isQuote core value := by
  simp only [Text.strips_iff, exists_eq_left']
  rfl

instance : (item : Item) → Decidable item.IsLegible
  | .any => inferInstanceAs (Decidable True)
  | .hasType name | .hasClass name | .hasId name => inferInstanceAs (Decidable (IsName name))
  | .hasAttribute inner name =>
    inferInstanceAs (Decidable (IsName name ∧ Text.Strips Text.isSpace inner name))
  | .hasValue left name right value =>
    decidable_of_iff ((IsName name ∧ Text.Strips Text.isSpace left name) ∧ ']' ∉ right ∧
      Condition.unquote right = value)
      (and_congr_right fun _ => and_congr_right fun _ => unquote_eq_iff)

theorem ofBrackets?_eq_some_iff (hinner : ']' ∉ inner) :
    Condition.ofBrackets? inner = some condition ↔
      ∃ item : Item, item.IsLegible ∧ item.inner? = some inner ∧ item.condition = condition := by
  have hname : ∀ {name : Text}, ¬ (name = [] ∨ (!name.all Condition.isNameChar) = true) ↔
      IsName name := by
    intro name
    simp [IsName]
  unfold Condition.ofBrackets?
  constructor
  · intro h
    split at h
    next name value hcut =>
    split at h
    · cases h
    · next hn =>
      cases h
      split at hcut
      · next left right hsplit =>
        cases hcut
        obtain rfl : inner = left ++ ['='] ++ right := Text.eq_append_of_cut? hsplit
        have hright : ']' ∉ right := fun hm => hinner (List.mem_append_right _ hm)
        exact ⟨.hasValue left _ right _, ⟨⟨hname.1 hn, Text.trim_eq_iff.1 rfl⟩, hright,
          unquote_eq_iff.1 rfl⟩, by rw [Item.inner?, List.append_assoc]; rfl, rfl⟩
      · cases hcut
        exact ⟨.hasAttribute inner _, ⟨hname.1 hn, Text.trim_eq_iff.1 rfl⟩, rfl, rfl⟩
  · rintro ⟨item, hlegible, hitem, rfl⟩
    cases item with
    | any | hasType _ | hasClass _ | hasId _ => cases hitem
    | hasAttribute written name =>
      cases hitem
      have hnone : Text.cut? ['='] inner = none := by
        rw [Text.cut?_eq_none_iff (List.cons_ne_nil _ _), List.singleton_infix_iff]
        exact notMem_of_strips rfl rfl hlegible.1 hlegible.2
      rw [hnone]
      simp only [Text.trim_eq_iff.2 hlegible.2, if_neg (hname.2 hlegible.1)]
      rfl
    | hasValue left name right value =>
      cases hitem
      obtain ⟨⟨hn, hleft⟩, -, hvalue⟩ := hlegible
      rw [Text.cut?_singleton_append right (notMem_of_strips rfl rfl hn hleft)]
      simp only [Text.trim_eq_iff.2 hleft, unquote_eq_iff.2 hvalue, if_neg (hname.2 hn)]
      rfl

theorem Item.text_eq_of_inner? {item : Item} (h : item.inner? = some inner) :
    item.text = '[' :: (inner ++ [']']) ∧ item.isType = false ∧ item.isNamed = false := by
  cases item with
  | any | hasType _ | hasClass _ | hasId _ => cases h
  | hasAttribute _ _ | hasValue _ _ _ _ =>
    cases h
    exact ⟨rfl, rfl, rfl⟩

theorem Item.notMem_of_inner? {item : Item} (hlegible : item.IsLegible)
    (h : item.inner? = some inner) : ']' ∉ inner := by
  cases item with
  | any | hasType _ | hasClass _ | hasId _ => cases h
  | hasAttribute _ _ =>
    cases h
    exact notMem_of_strips rfl rfl hlegible.1 hlegible.2
  | hasValue _ _ _ _ =>
    cases h
    have hleft := notMem_of_strips (c := ']') rfl rfl hlegible.1.1 hlegible.1.2
    simp [hleft, hlegible.2.1]

theorem scan?_inner {item : Item} (hlegible : item.IsLegible) (h : item.inner? = some inner) :
    Condition.scan? first (item.text ++ rest) = some (item.condition, rest) := by
  have hinner := item.notMem_of_inner? hlegible h
  rw [(item.text_eq_of_inner? h).1, List.cons_append, List.append_assoc, List.singleton_append,
    Condition.scan?, Text.cut?_singleton_append rest hinner, Option.bind_eq_bind, Option.bind_some]
  simp only [(ofBrackets?_eq_some_iff hinner).2 ⟨item, hlegible, h, rfl⟩]
  rfl

theorem scan?_text {item : Item} (hlegible : item.IsLegible)
    (htype : item.isType = true → first = true) (hstops : item.isNamed = true → Stops rest) :
    Condition.scan? first (item.text ++ rest) = some (item.condition, rest) := by
  cases item with
  | any => rfl
  | hasType name =>
    obtain rfl := htype rfl
    have hread := name?_eq_some_iff.2 ⟨hlegible, rfl, hstops rfl⟩
    obtain ⟨c, name, rfl⟩ := List.exists_cons_of_ne_nil hlegible.1
    have hc := hlegible.2 c List.mem_cons_self
    -- a name does not begin with a mark
    rw [List.cons_append] at hread
    change Condition.scan? true (c :: (name ++ rest)) = _
    unfold Condition.scan?
    split
    · next he => cases he; cases hc
    · next he => cases he; cases hc
    · next he => cases he; cases hc
    · next he => cases he; cases hc
    · rw [if_pos rfl, hread]
      rfl
  | hasClass name | hasId name =>
    have hread := name?_eq_some_iff.2 ⟨hlegible, rfl, hstops rfl⟩
    rw [Item.text, List.cons_append, Condition.scan?, hread]
    rfl
  | hasAttribute _ _ | hasValue _ _ _ _ => exact scan?_inner hlegible rfl

theorem map_name?_eq_some (make : Text → Condition)
    (h : (Condition.name? source).map (fun read => (make read.1, read.2)) =
      some (condition, rest)) :
    ∃ name, IsName name ∧ make name = condition ∧ source = name ++ rest ∧ Stops rest := by
  obtain ⟨⟨name, after⟩, hname, he⟩ := Option.map_eq_some_iff.1 h
  cases he
  obtain ⟨hn, hsource, hstops⟩ := name?_eq_some_iff.1 hname
  exact ⟨name, hn, rfl, hsource, hstops⟩

/-- What is read at the front of a text is an item that is written there. -/
theorem scan?_eq_some_iff : Condition.scan? first source = some (condition, rest) ↔
    ∃ item : Item, item.IsLegible ∧ item.condition = condition ∧ source = item.text ++ rest ∧
      (item.isType = true → first = true) ∧ (item.isNamed = true → Stops rest) := by
  constructor
  · intro h
    unfold Condition.scan? at h
    split at h
    · cases h
      exact ⟨.any, trivial, rfl, rfl, nofun, nofun⟩
    · obtain ⟨name, hn, rfl, rfl, hstops⟩ := map_name?_eq_some .hasClass h
      exact ⟨.hasClass name, hn, rfl, rfl, nofun, fun _ => hstops⟩
    · obtain ⟨name, hn, rfl, rfl, hstops⟩ := map_name?_eq_some .hasId h
      exact ⟨.hasId name, hn, rfl, rfl, nofun, fun _ => hstops⟩
    · simp only [Option.bind_eq_bind, Option.bind_eq_some_iff, Prod.exists] at h
      obtain ⟨inner, after, hcut, condition, hread, he⟩ := h
      cases he
      have hinner : ']' ∉ inner := by
        rw [← List.singleton_infix_iff]
        exact Text.not_infix_of_cut? (List.cons_ne_nil _ _) hcut
      obtain ⟨item, hlegible, hitem, rfl⟩ := (ofBrackets?_eq_some_iff hinner).1 hread
      obtain ⟨htext, htype, hnamed⟩ := item.text_eq_of_inner? hitem
      refine ⟨item, hlegible, rfl, ?_, by simp [htype], by simp [hnamed]⟩
      rw [Text.eq_append_of_cut? hcut, htext]
      rfl
    · split at h
      · next hfirst =>
        obtain ⟨name, hn, rfl, rfl, hstops⟩ :=
          map_name?_eq_some (fun name => .hasType (Text.lower name)) h
        exact ⟨.hasType name, hn, rfl, rfl, fun _ => hfirst, fun _ => hstops⟩
      · cases h
  · rintro ⟨item, hlegible, rfl, rfl, htype, hstops⟩
    exact scan?_text hlegible htype hstops

theorem exists_text_eq_cons (item : Item) (h : item.IsLegible) :
    ∃ c text, item.text = c :: text ∧ isGapChar c = false := by
  cases item with
  | hasType name =>
    obtain ⟨c, name, rfl⟩ := List.exists_cons_of_ne_nil h.1
    exact ⟨c, name, rfl, isGapChar_of_isNameChar (h.2 c List.mem_cons_self)⟩
  | any | hasClass _ | hasId _ | hasAttribute _ _ | hasValue _ _ _ _ => exact ⟨_, _, rfl, rfl⟩

theorem stops_text {item : Item} (h : item.isType = false) : Stops (item.text ++ rest) := by
  intro c hc
  cases item with
  | hasType name => cases h
  | any | hasClass _ | hasId _ | hasAttribute _ _ | hasValue _ _ _ _ =>
    cases hc
    rfl

def itemsText (items : List Item) : Text := items.flatMap Item.text

theorem itemsText_cons (item : Item) (items : List Item) (rest : Text) :
    itemsText (item :: items) ++ rest = item.text ++ (itemsText items ++ rest) := by
  rw [itemsText, List.flatMap_cons, List.append_assoc]
  rfl

theorem stops_itemsText {items : List Item} (h : ∀ item ∈ items, item.isType = false)
    (hrest : Ends rest) : Stops (itemsText items ++ rest) := by
  cases items with
  | nil => exact hrest.stops
  | cons item items =>
    rw [itemsText_cons]
    exact stops_text (h item List.mem_cons_self)

theorem scanAll?_of_ends (h : Ends rest) : Condition.scanAll? first rest = some ([], rest) := by
  unfold Condition.scanAll?
  cases rest with
  | nil => rfl
  | cons c rest =>
    have hc : isGapChar c = true := h c rfl
    exact if_pos hc

theorem scanAll?_cons {c : Char} (hc : isGapChar c = false) :
    Condition.scanAll? first (c :: source) = (Condition.scan? first (c :: source)).bind
      fun (condition, rest) => (Condition.scanAll? false rest).map
        fun (conditions, rest) => (condition :: conditions, rest) := by
  rw [isGapChar] at hc
  conv => lhs; unfold Condition.scanAll?
  simp only [hc, Bool.false_eq_true, if_false]
  split
  · next hnone => rw [hnone, Option.bind_none]
  · next condition rest hsome => rw [hsome, Option.bind_some]

theorem scanAll?_item {item : Item} (hlegible : item.IsLegible)
    (htype : item.isType = true → first = true) (hstops : item.isNamed = true → Stops rest) :
    Condition.scanAll? first (item.text ++ rest) = (Condition.scanAll? false rest).map
      fun (conditions, rest) => (item.condition :: conditions, rest) := by
  have hscan := scan?_text hlegible htype hstops
  obtain ⟨c, text, htext, hc⟩ := exists_text_eq_cons item hlegible
  rw [htext, List.cons_append] at hscan ⊢
  rw [scanAll?_cons hc, hscan]
  rfl

theorem scanAll?_eq_some {conditions : List Condition}
    (h : Condition.scanAll? first source = some (conditions, rest)) :
    conditions = [] ∧ source = rest ∧ Ends rest ∨
      ∃ (item : Item) (after : Text) (others : List Condition), item.IsLegible ∧
        source = item.text ++ after ∧ (item.isType = true → first = true) ∧
        (item.isNamed = true → Stops after) ∧ conditions = item.condition :: others ∧
        Condition.scanAll? false after = some (others, rest) := by
  by_cases hends : Ends source
  · rw [scanAll?_of_ends hends] at h
    cases h
    exact .inl ⟨rfl, rfl, hends⟩
  · obtain ⟨c, source, rfl⟩ : ∃ c text, source = c :: text := by
      refine List.exists_cons_of_ne_nil ?_
      rintro rfl
      exact hends fun c hc => absurd hc (Option.not_mem_none c)
    have hc : isGapChar c = false := by
      refine Bool.eq_false_iff.2 fun hgap => hends fun d hd => ?_
      obtain rfl : c = d := Option.some.inj hd
      exact hgap
    rw [scanAll?_cons hc] at h
    obtain ⟨⟨condition, after⟩, hscan, h⟩ := Option.bind_eq_some_iff.1 h
    obtain ⟨⟨others, last⟩, hothers, he⟩ := Option.map_eq_some_iff.1 h
    cases he
    obtain ⟨item, hlegible, rfl, hsource, htype, hstops⟩ := scan?_eq_some_iff.1 hscan
    exact .inr ⟨item, after, others, hlegible, hsource, htype, hstops, rfl, hothers⟩

/-- The conditions that are read are those of the items up to the end of the compound. -/
theorem scanAll?_false_eq_some_iff {conditions : List Condition} :
    Condition.scanAll? false source = some (conditions, rest) ↔
      ∃ items : List Item, (∀ item ∈ items, item.IsLegible ∧ item.isType = false) ∧
        items.map Item.condition = conditions ∧ source = itemsText items ++ rest ∧ Ends rest := by
  constructor
  · intro h
    induction hl : source.length using Nat.strongRecOn generalizing source conditions with
    | _ n ih =>
      subst hl
      rcases scanAll?_eq_some h with ⟨rfl, rfl, hends⟩ |
        ⟨item, after, others, hlegible, rfl, htype, -, rfl, hothers⟩
      · exact ⟨[], nofun, rfl, rfl, hends⟩
      · obtain ⟨c, text, htext, -⟩ := exists_text_eq_cons item hlegible
        have hlt : after.length < (item.text ++ after).length := by
          rw [htext, List.cons_append, List.length_cons, List.length_append]
          omega
        obtain ⟨items, hitems, rfl, rfl, hends⟩ := ih _ hlt hothers rfl
        refine ⟨item :: items, List.forall_mem_cons.2 ⟨⟨hlegible, by simpa using htype⟩, hitems⟩,
          rfl, (itemsText_cons item items rest).symm, hends⟩
  · rintro ⟨items, hitems, rfl, rfl, hends⟩
    induction items with
    | nil => exact scanAll?_of_ends hends
    | cons item items ih =>
      obtain ⟨hitem, hitems⟩ := List.forall_mem_cons.1 hitems
      rw [itemsText_cons, scanAll?_item hitem.1, ih hitems]
      · rfl
      · simp [hitem.2]
      · exact fun _ => stops_itemsText (fun item hm => (hitems item hm).2) hends

/-- Items of one compound: a type name stands before all others. -/
structure IsCompound (items : List Item) : Prop where
  legible : ∀ item ∈ items, item.IsLegible
  types : ∀ item ∈ items.tail, item.isType = false

instance (items : List Item) : Decidable (IsCompound items) :=
  decidable_of_iff ((∀ item ∈ items, item.IsLegible) ∧ ∀ item ∈ items.tail, item.isType = false)
    ⟨fun h => ⟨h.1, h.2⟩, fun h => ⟨h.legible, h.types⟩⟩

theorem scanAll?_true_eq_some_iff {conditions : List Condition} :
    Condition.scanAll? true source = some (conditions, rest) ↔
      ∃ items : List Item, IsCompound items ∧ items.map Item.condition = conditions ∧
        source = itemsText items ++ rest ∧ Ends rest := by
  constructor
  · intro h
    rcases scanAll?_eq_some h with ⟨rfl, rfl, hends⟩ |
      ⟨item, after, others, hlegible, rfl, -, -, rfl, hothers⟩
    · exact ⟨[], ⟨nofun, nofun⟩, rfl, rfl, hends⟩
    · obtain ⟨items, hitems, rfl, rfl, hends⟩ := scanAll?_false_eq_some_iff.1 hothers
      refine ⟨item :: items, ⟨List.forall_mem_cons.2 ⟨hlegible, fun item hm => (hitems item hm).1⟩,
        fun item hm => (hitems item hm).2⟩, rfl, (itemsText_cons item items rest).symm, hends⟩
  · rintro ⟨items, ⟨hlegible, htypes⟩, rfl, rfl, hends⟩
    cases items with
    | nil => exact scanAll?_of_ends hends
    | cons item items =>
      obtain ⟨hitem, hitems⟩ := List.forall_mem_cons.1 hlegible
      rw [itemsText_cons, scanAll?_item hitem, scanAll?_false_eq_some_iff.2
        ⟨items, fun item hm => ⟨hitems item hm, htypes item hm⟩, rfl, rfl, hends⟩]
      · rfl
      · exact fun _ => rfl
      · exact fun _ => stops_itemsText htypes hends

end

section
variable {rest others : Text} {items : List Item}

theorem exists_itemsText_eq_cons (h : IsCompound items) (hne : items ≠ []) :
    ∃ c text, itemsText items = c :: text ∧ isGapChar c = false := by
  obtain ⟨item, items, rfl⟩ := List.exists_cons_of_ne_nil hne
  obtain ⟨c, text, htext, hc⟩ := exists_text_eq_cons item (h.legible item List.mem_cons_self)
  exact ⟨c, text ++ itemsText items, by rw [itemsText, List.flatMap_cons, htext]; rfl, hc⟩

theorem not_ends_itemsText (h : IsCompound items) (hne : items ≠ []) :
    ¬ Ends (itemsText items ++ rest) := by
  intro hends
  obtain ⟨c, text, htext, hc⟩ := exists_itemsText_eq_cons h hne
  rw [htext] at hends
  rw [hends c rfl] at hc
  cases hc

theorem item_unique {item other : Item} (hitem : item.IsLegible) (hother : other.IsLegible)
    (hrest : item.isNamed = true → Stops rest) (hothers : other.isNamed = true → Stops others)
    (h : item.text ++ rest = other.text ++ others) : item = other ∧ rest = others := by
  have hread := scan?_text hitem (fun _ => rfl) hrest
  rw [h, scan?_text hother (fun _ => rfl) hothers] at hread
  obtain ⟨hcondition, rfl⟩ := Prod.mk.inj (Option.some.inj hread)
  have htext := List.append_cancel_right h
  refine ⟨?_, rfl⟩
  -- two type names may be read as the same condition
  cases item <;> cases other <;> first | cases hcondition | exact congrArg Item.hasType htext
  case any.any => rfl
  case hasClass.hasClass => rfl
  case hasId.hasId => rfl
  case hasAttribute.hasAttribute =>
    rw [List.append_cancel_right (List.cons.inj htext).2]
  case hasValue.hasValue =>
    have hinner := List.append_cancel_right (List.cons.inj htext).2
    have hequals : ∀ {left name}, IsName name ∧ Text.Strips Text.isSpace left name → '=' ∉ left :=
      fun hleft => notMem_of_strips rfl rfl hleft.1 hleft.2
    have hcut := congrArg (Text.cut? ['=']) hinner
    rw [Text.cut?_singleton_append _ (hequals hitem.1),
      Text.cut?_singleton_append _ (hequals hother.1)] at hcut
    cases hcut
    rfl

theorem IsCompound.of_cons {item : Item} {items : List Item} (h : IsCompound (item :: items)) :
    IsCompound items :=
  ⟨fun item hm => h.legible item (List.mem_cons_of_mem _ hm),
    fun item hm => h.types item (List.mem_of_mem_tail hm)⟩

theorem items_unique {items more : List Item} (hitems : IsCompound items) (hmore : IsCompound more)
    (hrest : Ends rest) (hothers : Ends others)
    (h : itemsText items ++ rest = itemsText more ++ others) : items = more ∧ rest = others := by
  induction items generalizing more with
  | nil =>
    cases more with
    | nil => exact ⟨rfl, h⟩
    | cons other more =>
      change rest = _ at h
      exact absurd (h ▸ hrest) (not_ends_itemsText hmore (List.cons_ne_nil _ _))
  | cons item items ih =>
    cases more with
    | nil =>
      change _ = others at h
      exact absurd (h ▸ hothers) (not_ends_itemsText hitems (List.cons_ne_nil _ _))
    | cons other more =>
      rw [itemsText_cons, itemsText_cons] at h
      obtain ⟨rfl, hafter⟩ := item_unique (hitems.legible _ List.mem_cons_self)
        (hmore.legible _ List.mem_cons_self) (fun _ => stops_itemsText hitems.types hrest)
        (fun _ => stops_itemsText hmore.types hothers) h
      obtain ⟨rfl, rfl⟩ := ih hitems.of_cons hmore.of_cons hafter
      exact ⟨rfl, rfl⟩

end
end Selector
end MailTemplate
