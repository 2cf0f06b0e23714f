import MailTemplate.Proofs.Markup.Around
import MailTemplate.Proofs.Markup.Links
import MailTemplate.Proofs.Markup.Reparse
import MailTemplate.Proofs.Style.Merging
import Mathlib.Data.Prod.Lex

/-! The cascade by rank. A declaration is outranked by important ones, then by the element's own ones,
then by those of more specific rules, of later rules and at later positions. The style of an element
gives every declared property once, with the value of the declaration of the highest rank. -/

namespace MailTemplate

namespace Specificity

def key (s : Specificity) : ℕ ×ₗ ℕ ×ₗ ℕ := toLex (s.ids, toLex (s.classes, s.types))

theorem key_injective : Function.Injective key := by
  rintro ⟨ids, classes, types⟩ ⟨ids', classes', types'⟩ h
  cases h
  rfl

section
variable {s t u : Specificity}

theorem le_iff : s.le t = true ↔ s.key ≤ t.key := by
  simp [le, key, Prod.Lex.toLex_le_toLex]

theorem le_of_le_of_le (hs : s.le t = true) (ht : t.le u = true) : s.le u = true :=
  le_iff.2 ((le_iff.1 hs).trans (le_iff.1 ht))

theorem le_or_le (s t : Specificity) : (s.le t || t.le s) = true := by
  rw [Bool.or_eq_true, le_iff, le_iff]
  exact Std.le_total

theorem max_eq_or (s t : Specificity) : s.max t = s ∨ s.max t = t := by
  rw [Specificity.max]
  split
  · exact .inr rfl
  · exact .inl rfl

theorem key_le_key_max (s t : Specificity) :
    s.key ≤ (s.max t).key ∧ t.key ≤ (s.max t).key := by
  rw [Specificity.max]
  split
  · next h => exact ⟨le_iff.1 h, le_rfl⟩
  · next h => exact ⟨le_rfl, le_of_not_ge (mt le_iff.2 h)⟩

end
end Specificity

namespace Cascade

/-- The rank of a declaration: whether it is important, whether it is the element's own, how specific
and which its rule is, and its position there. -/
structure Rank where
  important : Bool
  own : Bool
  specificity : Specificity
  rule : Nat
  position : Nat

namespace Rank

/-- The rank within the rules, or within the element's own declarations. -/
def place (rank : Rank) : (ℕ ×ₗ ℕ ×ₗ ℕ) ×ₗ ℕ ×ₗ ℕ :=
  toLex (rank.specificity.key, toLex (rank.rule, rank.position))

def key (rank : Rank) : (Bool ×ₗ Bool) ×ₗ (ℕ ×ₗ ℕ ×ₗ ℕ) ×ₗ ℕ ×ₗ ℕ :=
  toLex (toLex (rank.important, rank.own), rank.place)

end Rank

def IsHighest (doc : Document) (node : NodeId) (rule : Rule) (highest : Specificity) : Prop :=
  (∃ selector ∈ rule.selectors, doc.isMatch selector node = true ∧
    selector.specificity = highest) ∧
      ∀ selector ∈ rule.selectors, doc.isMatch selector node = true →
        selector.specificity.key ≤ highest.key

/-- The declarations for a node, with their ranks: those of the rules that match it, and its own. -/
inductive Declares (doc : Document) (rules : List Rule) (node : NodeId) (own : List Declaration) :
    Rank → Declaration → Prop
  | rule {i j : Nat} {rule : Rule} {highest : Specificity} {declaration : Declaration} :
      rules[i]? = some rule → IsHighest doc node rule highest →
        rule.declarations[j]? = some declaration →
          Declares doc rules node own ⟨declaration.important, false, highest, i, j⟩ declaration
  | own {j : Nat} {declaration : Declaration} : own[j]? = some declaration →
      Declares doc rules node own ⟨declaration.important, true, ⟨0, 0, 0⟩, 0, j⟩ declaration

/-- What ranked declarations come to: each property that is declared, once, with the value of the
declaration of the highest rank. -/
structure IsMerge (declares : Rank → Declaration → Prop) (merged : Merged) : Prop where
  nodup : (merged.map (·.1)).Nodup
  mem_iff : ∀ property, property ∈ merged.map (·.1) ↔
    ∃ rank declaration, declares rank declaration ∧ declaration.property = property
  highest : ∀ property value, (property, value) ∈ merged →
    ∃ rank declaration, declares rank declaration ∧ declaration.property = property ∧
      declaration.value = value ∧ ∀ other less, declares other less →
        less.property = property → other.key ≤ rank.key

section
variable {doc : Document} {rules : List Rule} {node : NodeId} {rule : Rule}
  {highest : Specificity} {own : List Declaration} {rank : Rank} {declaration : Declaration}

theorem IsHighest.unique {other : Specificity} (h : IsHighest doc node rule highest)
    (ho : IsHighest doc node rule other) : highest = other := by
  obtain ⟨⟨selector, hm, hmatch, rfl⟩, hall⟩ := h
  obtain ⟨⟨selector', hm', hmatch', rfl⟩, hall'⟩ := ho
  exact Specificity.key_injective
    (le_antisymm (hall' selector hm hmatch) (hall selector' hm' hmatch'))

theorem exists_foldl_max {selectors : List Selector} (hn : selectors ≠ []) :
    ∃ highest, selectors.foldl
        (fun best s => some (best.elim s.specificity (·.max s.specificity))) none = some highest ∧
      (∃ selector ∈ selectors, selector.specificity = highest) ∧
        ∀ selector ∈ selectors, selector.specificity.key ≤ highest.key := by
  induction selectors using List.reverseRecOn with
  | nil => exact absurd rfl hn
  | append_singleton front last ih =>
    rw [List.foldl_append]
    by_cases hfront : front = []
    · subst hfront
      exact ⟨last.specificity, rfl, ⟨last, List.mem_singleton_self last, rfl⟩,
        fun selector hm => (List.mem_singleton.1 hm) ▸ le_rfl⟩
    · obtain ⟨best, hbest, ⟨selector, hm, hs⟩, hall⟩ := ih hfront
      obtain ⟨hbestle, hlastle⟩ := Specificity.key_le_key_max best last.specificity
      rw [hbest]
      refine ⟨best.max last.specificity, rfl, ?_, fun other ho => ?_⟩
      · rcases Specificity.max_eq_or best last.specificity with he | he
        · exact ⟨selector, List.mem_append_left _ hm, hs.trans he.symm⟩
        · exact ⟨last, List.mem_append_right _ (List.mem_singleton_self last), he.symm⟩
      · rcases List.mem_append.1 ho with ho | ho
        · exact (hall other ho).trans hbestle
        · rw [List.mem_singleton.1 ho]
          exact hlastle

theorem match?_eq_some_iff :
    match? doc node rule = some highest ↔ IsHighest doc node rule highest := by
  have hfilter : ∀ selector, selector ∈ rule.selectors.filter (doc.isMatch · node) ↔
      selector ∈ rule.selectors ∧ doc.isMatch selector node = true := fun _ => List.mem_filter
  by_cases hnone : rule.selectors.filter (doc.isMatch · node) = []
  · rw [match?, hnone]
    refine iff_of_false (fun h => by cases h) ?_
    rintro ⟨⟨selector, hm, hmatch, -⟩, -⟩
    have hin := (hfilter selector).2 ⟨hm, hmatch⟩
    rw [hnone] at hin
    cases hin
  · obtain ⟨found, hfound, ⟨selector, hin, hs⟩, hall⟩ := exists_foldl_max hnone
    have hhighest : IsHighest doc node rule found :=
      ⟨⟨selector, ((hfilter _).1 hin).1, ((hfilter _).1 hin).2, hs⟩,
        fun other hm hmatch => hall other ((hfilter _).2 ⟨hm, hmatch⟩)⟩
    rw [match?, hfound]
    constructor
    · intro h
      cases h
      exact hhighest
    · intro h
      rw [h.unique hhighest]

theorem pairwise_mergeSort_of_pairwise {α : Type} {le : α → α → Bool} {before : α → α → Prop}
    (trans : ∀ a b c, le a b = true → le b c = true → le a c = true)
    (total : ∀ a b, (le a b || le b a) = true) {list : List α} (h : list.Pairwise before) :
    (list.mergeSort le).Pairwise fun a b => le a b = true ∧ (le b a = true → before a b) := by
  induction list with
  | nil => simp
  | cons first rest ih =>
    obtain ⟨hfirst, hrest⟩ := List.pairwise_cons.1 h
    obtain ⟨less, more, hall, hothers, hless⟩ := List.mergeSort_cons trans total first rest
    have hsorted := List.pairwise_mergeSort trans total (first :: rest)
    have hsmaller := ih hrest
    rw [hall] at hsorted ⊢
    rw [hothers] at hsmaller
    obtain ⟨hleft, hright, hcross⟩ := List.pairwise_append.1 hsmaller
    obtain ⟨-, hsortedright, -⟩ := List.pairwise_append.1 hsorted
    have hmore : ∀ b ∈ more, b ∈ rest := fun b hb => by
      have hin : b ∈ rest.mergeSort le := hothers ▸ List.mem_append_right _ hb
      exact List.mem_mergeSort.1 hin
    refine List.pairwise_append.2 ⟨hleft, List.pairwise_cons.2 ⟨fun b hb => ?_, hright⟩, ?_⟩
    · exact ⟨(List.pairwise_cons.1 hsortedright).1 b hb, fun _ => hfirst b (hmore b hb)⟩
    · intro a ha b hb
      rcases List.mem_cons.1 hb with rfl | hb
      · have hnot : le b a = false := by simpa using hless a ha
        have hle : le a b = true := by simpa [hnot] using total a b
        exact ⟨hle, fun hba => absurd hba (by simp [hnot])⟩
      · exact hcross a ha b hb

variable (doc rules node) in
def matched : List (Specificity × Nat × List Declaration) :=
  rules.zipIdx.filterMap fun (rule, i) =>
    (match? doc node rule).map (·, i, rule.declarations)

variable (doc rules node) in
/-- The declarations of the rules that match with their ranks, in the order of the cascade. -/
def rankedRules : List (Rank × Declaration) :=
  ((matched doc rules node).mergeSort fun a b => a.1.le b.1).flatMap
    fun (specificity, i, declarations) => declarations.zipIdx.map fun (declaration, j) =>
      (⟨declaration.important, false, specificity, i, j⟩, declaration)

variable (own) in
def rankedOwn : List (Rank × Declaration) :=
  own.zipIdx.map fun (declaration, j) =>
    (⟨declaration.important, true, ⟨0, 0, 0⟩, 0, j⟩, declaration)

variable (doc rules node own) in
def ranked : List (Rank × Declaration) :=
  [(false, false), (false, true), (true, false), (true, true)].flatMap fun (important, isOwn) =>
    (if isOwn then rankedOwn own else rankedRules doc rules node).filter
      (·.1.important == important)

theorem map_snd_rankedOwn : (rankedOwn own).map (·.2) = own := by
  simp [rankedOwn, Function.comp_def]

theorem map_matched : (matched doc rules node).map (fun entry => (entry.1, entry.2.2)) =
    rules.filterMap fun rule => (match? doc node rule).map (·, rule.declarations) := by
  rw [matched, List.map_filterMap]
  conv_rhs => rw [← List.zipIdx_map_fst 0 rules, List.filterMap_map]
  refine List.filterMap_congr fun entry _ => ?_
  rw [Option.map_map]
  rfl

theorem map_snd_rankedRules : (rankedRules doc rules node).map (·.2) = matching doc node rules := by
  have hsorted : ((matched doc rules node).mergeSort fun a b => a.1.le b.1).map
      (fun entry => (entry.1, entry.2.2)) = ((rules.filterMap fun rule =>
        (match? doc node rule).map (·, rule.declarations)).mergeSort fun a b => a.1.le b.1) := by
    rw [← map_matched]
    exact List.map_mergeSort fun _ _ _ _ => rfl
  rw [rankedRules, List.map_flatMap, matching, ← hsorted, List.flatMap_map]
  simp [Function.comp_def]

theorem mem_rankedRules : (rank, declaration) ∈ rankedRules doc rules node ↔
    rank.own = false ∧ Declares doc rules node own rank declaration := by
  constructor
  · intro h
    obtain ⟨⟨specificity, i, declarations⟩, hm, hd⟩ := List.mem_flatMap.1 h
    obtain ⟨⟨rule, number⟩, hrule, hmatch⟩ := List.mem_filterMap.1 (List.mem_mergeSort.1 hm)
    obtain ⟨highest, hhighest, he⟩ := Option.map_eq_some_iff.1 hmatch
    cases he
    obtain ⟨⟨found, j⟩, hj, he⟩ := List.mem_map.1 hd
    cases he
    exact ⟨rfl, .rule (List.mk_mem_zipIdx_iff_getElem?.1 hrule) (match?_eq_some_iff.1 hhighest)
      (List.mk_mem_zipIdx_iff_getElem?.1 hj)⟩
  · rintro ⟨hown, hdeclares⟩
    cases hdeclares with
    | @rule i j rule highest _ hrule hhighest hj =>
      refine List.mem_flatMap.2 ⟨(highest, i, rule.declarations), List.mem_mergeSort.2 ?_, ?_⟩
      · refine List.mem_filterMap.2 ⟨(rule, i), List.mk_mem_zipIdx_iff_getElem?.2 hrule, ?_⟩
        exact Option.map_eq_some_iff.2 ⟨highest, match?_eq_some_iff.2 hhighest, rfl⟩
      · exact List.mem_map.2 ⟨(declaration, j), List.mk_mem_zipIdx_iff_getElem?.2 hj, rfl⟩
    | own hj => cases hown

theorem mem_rankedOwn : (rank, declaration) ∈ rankedOwn own ↔
    rank.own = true ∧ Declares doc rules node own rank declaration := by
  constructor
  · intro h
    obtain ⟨⟨found, j⟩, hj, he⟩ := List.mem_map.1 h
    cases he
    exact ⟨rfl, .own (List.mk_mem_zipIdx_iff_getElem?.1 hj)⟩
  · rintro ⟨hown, hdeclares⟩
    cases hdeclares with
    | rule => cases hown
    | @own j _ hj => exact List.mem_map.2 ⟨(declaration, j), List.mk_mem_zipIdx_iff_getElem?.2 hj, rfl⟩

theorem mem_layer {isOwn : Bool} : (rank, declaration) ∈
    (if isOwn then rankedOwn own else rankedRules doc rules node) ↔
      rank.own = isOwn ∧ Declares doc rules node own rank declaration := by
  cases isOwn
  · exact mem_rankedRules
  · exact mem_rankedOwn

theorem mem_ranked :
    (rank, declaration) ∈ ranked doc rules node own ↔ Declares doc rules node own rank declaration := by
  constructor
  · intro h
    obtain ⟨⟨important, isOwn⟩, -, hm⟩ := List.mem_flatMap.1 h
    exact (mem_layer.1 (List.mem_filter.1 hm).1).2
  · intro h
    refine List.mem_flatMap.2 ⟨(rank.important, rank.own), ?_, ?_⟩
    · cases rank.important <;> cases rank.own <;> simp
    · exact List.mem_filter.2 ⟨mem_layer.2 ⟨rfl, h⟩, beq_self_eq_true _⟩

theorem Declares.important_eq (h : Declares doc rules node own rank declaration) :
    rank.important = declaration.important := by
  cases h with
  | rule => rfl
  | own => rfl

theorem map_snd_ranked :
    (ranked doc rules node own).map (·.2) = order (matching doc node rules) own := by
  have hlayer : ∀ important isOwn : Bool,
      ((if isOwn then rankedOwn own else rankedRules doc rules node).filter
        (·.1.important == important)).map (·.2) =
          (if isOwn then own else matching doc node rules).filter (·.important == important) := by
    intro important isOwn
    have hlist : (if isOwn then own else matching doc node rules) =
        (if isOwn then rankedOwn own else rankedRules doc rules node).map (·.2) := by
      cases isOwn
      · exact map_snd_rankedRules.symm
      · exact map_snd_rankedOwn.symm
    rw [hlist, List.filter_map]
    refine congrArg _ (List.filter_congr fun entry hm => ?_)
    rw [(mem_layer.1 hm).2.important_eq]
    rfl
  simp only [ranked, List.map_flatMap, hlayer]
  simp [order]

theorem pairwise_zipIdx {α : Type} (list : List α) : list.zipIdx.Pairwise fun a b => a.2 < b.2 := by
  refine List.pairwise_map.1 ?_
  rw [List.zipIdx_map_snd]
  exact List.pairwise_lt_range'

theorem pairwise_matched : (matched doc rules node).Pairwise fun a b => a.2.1 < b.2.1 := by
  refine List.pairwise_filterMap.2 ((pairwise_zipIdx rules).imp fun hlt found hfound next hnext => ?_)
  obtain ⟨specificity, -, rfl⟩ := Option.map_eq_some_iff.1 hfound
  obtain ⟨specificity', -, rfl⟩ := Option.map_eq_some_iff.1 hnext
  exact hlt

theorem pairwise_rankedRules :
    (rankedRules doc rules node).Pairwise fun a b => a.1.place < b.1.place := by
  have hsorted : ((matched doc rules node).mergeSort fun a b => a.1.le b.1).Pairwise
      fun a b => a.1.le b.1 = true ∧ (b.1.le a.1 = true → a.2.1 < b.2.1) := by
    refine pairwise_mergeSort_of_pairwise (fun a b c => ?_) (fun a b => ?_) pairwise_matched
    · exact Specificity.le_of_le_of_le
    · exact Specificity.le_or_le a.1 b.1
  refine List.pairwise_flatMap.2 ⟨fun entry _ => ?_, hsorted.imp ?_⟩
  · refine List.pairwise_map.2 ((pairwise_zipIdx _).imp fun hlt => ?_)
    simpa [Rank.place, Prod.Lex.toLex_lt_toLex] using hlt
  · rintro ⟨s, i, first⟩ ⟨t, j, second⟩ ⟨hle, hbefore⟩ x hx y hy
    obtain ⟨⟨declaration, k⟩, -, rfl⟩ := List.mem_map.1 hx
    obtain ⟨⟨declaration', l⟩, -, rfl⟩ := List.mem_map.1 hy
    rw [Rank.place, Rank.place, Prod.Lex.toLex_lt_toLex, Prod.Lex.toLex_lt_toLex]
    rcases (Specificity.le_iff.1 hle).lt_or_eq with hlt | he
    · exact .inl hlt
    · exact .inr ⟨he, .inl (hbefore (Specificity.le_iff.2 he.ge))⟩

theorem pairwise_rankedOwn : (rankedOwn own).Pairwise fun a b => a.1.place < b.1.place := by
  refine List.pairwise_map.2 ((pairwise_zipIdx own).imp fun hlt => ?_)
  simpa [Rank.place, Prod.Lex.toLex_lt_toLex] using hlt

theorem pairwise_ranked :
    (ranked doc rules node own).Pairwise fun a b => a.1.key < b.1.key := by
  have hlayers : [(false, false), (false, true), (true, false), (true, true)].Pairwise
      fun a b => toLex a < toLex b := by decide
  have hkey : ∀ {important isOwn : Bool} {entry : Rank × Declaration},
      entry ∈ (if isOwn then rankedOwn own else rankedRules doc rules node).filter
        (·.1.important == important) →
          entry.1.key = toLex (toLex (important, isOwn), entry.1.place) := by
    intro important isOwn entry hm
    obtain ⟨hlayer, himportant⟩ := List.mem_filter.1 hm
    rw [Rank.key, (mem_layer.1 hlayer).1, eq_of_beq himportant]
  refine List.pairwise_flatMap.2 ⟨fun layer _ => ?_, hlayers.imp ?_⟩
  · have hplaces : (if layer.2 then rankedOwn own else rankedRules doc rules node).Pairwise
        fun a b => a.1.place < b.1.place := by
      cases layer.2
      · exact pairwise_rankedRules
      · exact pairwise_rankedOwn
    refine (hplaces.filter _).imp_of_mem fun ha hb hlt => ?_
    rw [hkey ha, hkey hb, Prod.Lex.toLex_lt_toLex]
    exact .inr ⟨rfl, hlt⟩
  · intro a b hlt x hx y hy
    rw [hkey hx, hkey hy, Prod.Lex.toLex_lt_toLex]
    exact .inl hlt

/-- Merged in that order, every property has the value of the declaration of the highest rank. -/
theorem isMerge_order : IsMerge (Declares doc rules node own)
    ((order (matching doc node rules) own).foldl put []) := by
  refine ⟨nodup_foldl_put _, fun property => ?_, fun property value hm => ?_⟩
  · rw [map_fst_foldl_put, ← map_snd_ranked]
    constructor
    · rintro (hm | hm)
      · cases hm
      · obtain ⟨declaration, hd, rfl⟩ := List.mem_map.1 hm
        obtain ⟨⟨rank, _⟩, hranked, rfl⟩ := List.mem_map.1 hd
        exact ⟨rank, _, mem_ranked.1 hranked, rfl⟩
    · rintro ⟨rank, declaration, hdeclares, rfl⟩
      refine .inr (List.mem_map.2 ⟨declaration, ?_, rfl⟩)
      exact List.mem_map.2 ⟨(rank, declaration), mem_ranked.2 hdeclares, rfl⟩
  · obtain ⟨front, declaration, rear, hsplit, hp, hv, hrear⟩ := exists_last_of_mem_foldl_put hm
    rw [← map_snd_ranked] at hsplit
    obtain ⟨lower, rest, hranked, -, hrest⟩ := List.map_eq_append_iff.1 hsplit
    obtain ⟨⟨rank, _⟩, higher, rfl, rfl, rfl⟩ := List.map_eq_cons_iff.1 hrest
    have hpairwise : (ranked doc rules node own).Pairwise fun a b => a.1.key < b.1.key :=
      pairwise_ranked
    rw [hranked] at hpairwise
    obtain ⟨-, -, hbelow⟩ := List.pairwise_append.1 hpairwise
    refine ⟨rank, _, mem_ranked.1 ?_, hp, hv, fun other less hdeclares hsame => ?_⟩
    · rw [hranked]
      exact List.mem_append_right _ List.mem_cons_self
    · have hin := mem_ranked.2 hdeclares
      rw [hranked] at hin
      rcases List.mem_append.1 hin with hin | hin
      · exact (hbelow _ hin _ List.mem_cons_self).le
      · rcases List.mem_cons.1 hin with he | hin
        · cases he
          exact le_rfl
        · exact absurd hsame (hrear less (List.mem_map.2 ⟨_, hin, rfl⟩))

theorem matching_eq_nil_iff : matching doc node rules = [] ↔
    ¬ ∃ rank declaration, Declares doc rules node [] rank declaration := by
  rw [← map_snd_rankedRules, List.map_eq_nil_iff, List.eq_nil_iff_forall_not_mem]
  constructor
  · rintro h ⟨rank, declaration, hdeclares⟩
    have hown : rank.own = false := by
      cases hdeclares with
      | rule => rfl
      | own hj => cases hj
    exact h (rank, declaration) (mem_rankedRules.2 ⟨hown, hdeclares⟩)
  · rintro h ⟨rank, declaration⟩ hm
    exact h ⟨rank, declaration, (mem_rankedRules.1 hm).2⟩

theorem computed_eq_none_iff {element : Element} (he : doc.element? node = some element) :
    computed doc rules node = none ↔ element.name ∈ metadataNames ∨ insideHead doc node = true ∨
      matching doc node rules = [] := by
  have hguard : (metadataNames.contains element.name || insideHead doc node) = true ↔
      element.name ∈ metadataNames ∨ insideHead doc node = true := by
    rw [Bool.or_eq_true, List.contains_iff_mem]
  rw [computed, he, ← or_assoc, ← hguard]
  simp only [Option.bind_eq_bind, Option.bind_some]
  split
  · next hleft => exact iff_of_true rfl (.inl hleft)
  · next hleft =>
    split
    · next hnil => exact iff_of_true rfl (.inr hnil)
    · next hcons => exact iff_of_false (Option.some_ne_none _) (not_or.2 ⟨hleft, hcons⟩)

theorem computed_of_matching {element : Element} {fromRules : List Declaration}
    (he : doc.element? node = some element) (hm : matching doc node rules = fromRules)
    (hn : ¬ (element.name ∈ metadataNames ∨ insideHead doc node = true ∨ fromRules = [])) :
    computed doc rules node = some (style fromRules (element.attr? "style".toList)) := by
  have hsome : computed doc rules node ≠ none := by
    rw [Ne, computed_eq_none_iff he, hm]
    exact hn
  obtain ⟨value, hvalue⟩ := Option.ne_none_iff_exists'.1 hsome
  obtain ⟨found, hfound, hstyle⟩ := computed_eq_some hvalue
  cases he.symm.trans hfound
  rw [hvalue, hstyle, hm]

theorem style_of_notMem {fromRules : List Declaration} {attr : Option Text}
    (h : ∀ text, attr = some text → Guard.opener ∉ text) : style fromRules attr =
      write ((order fromRules (Declaration.block (attr.getD []))).foldl put []) := by
  cases attr with
  | none => rfl
  | some text =>
    rw [style, Guard.holdsPlaceholder, decide_eq_false (h text rfl)]
    rfl

theorem style_of_mem {fromRules : List Declaration} {text : Text} (h : Guard.opener ∈ text) :
    style fromRules (some text) =
      write ((order fromRules []).foldl put []) ++ ' ' :: text := by
  rw [style, Guard.holdsPlaceholder, decide_eq_true h, if_pos rfl, List.append_assoc]
  rfl

theorem insideHead_iff {source : Text} (h : Document.parse source = .ok doc) (hn : node < doc.size) :
    insideHead doc node = true ↔ ∃ outer head, doc.IsAround outer node ∧
      doc.element? outer = some head ∧ head.name = "head".toList := by
  obtain ⟨tokens, -, rfl⟩ := Document.parse_eq_ok_iff.1 h
  simp only [insideHead, List.any_eq_true, Option.any_eq_true, beq_iff_eq,
    Document.mem_ancestors_iff Document.lt_of_parent?_ofForest hn.le]
  constructor
  · rintro ⟨outer, haround, head, he, hname⟩
    exact ⟨outer, head, haround, he, hname⟩
  · rintro ⟨outer, head, haround, he, hname⟩
    exact ⟨outer, haround, head, he, hname⟩

/-- The style of an element of a document that was read. -/
theorem computed_eq {source : Text} {element : Element} (h : Document.parse source = .ok doc)
    (he : doc.element? node = some element) (rules : List Rule) :
    let result := computed doc rules node
    let attr := element.attr? "style".toList
    let written := fun merged : Merged => Text.joinWith [' '] (merged.map fun (property, value) =>
      property ++ ": ".toList ++ value ++ ";".toList)
    (result = none ↔ element.name ∈ metadataNames ∨
      (∃ outer head, doc.IsAround outer node ∧ doc.element? outer = some head ∧
        head.name = "head".toList) ∨
      ¬ ∃ rank declaration, Declares doc rules node [] rank declaration) ∧
      ∀ value, result = some value →
        ((∀ text, attr = some text → Guard.opener ∉ text) →
          ∃ merged, IsMerge (Declares doc rules node (Declaration.block (attr.getD []))) merged ∧
            value = written merged) ∧
        ∀ text, attr = some text → Guard.opener ∈ text →
          ∃ merged, IsMerge (Declares doc rules node []) merged ∧
            value = written merged ++ ' ' :: text := by
  intro result attr written
  have hnode : node < doc.size := Document.lt_size_of_data? (Document.element?_eq_some_iff.1 he)
  refine ⟨?_, fun value hvalue => ⟨fun hplain => ?_, fun text htext hhidden => ?_⟩⟩
  · rw [computed_eq_none_iff he, insideHead_iff h hnode, matching_eq_nil_iff]
  · obtain ⟨found, hfound, hstyle⟩ := computed_eq_some hvalue
    cases he.symm.trans hfound
    refine ⟨_, isMerge_order, ?_⟩
    rw [hstyle, style_of_notMem hplain]
    rfl
  · obtain ⟨found, hfound, hstyle⟩ := computed_eq_some hvalue
    cases he.symm.trans hfound
    refine ⟨_, isMerge_order, ?_⟩
    have hattr : element.attr? "style".toList = some text := htext
    rw [hstyle, hattr, style_of_mem hhidden]
    rfl

/-- Rules that match by an id or a class and by a type; of two elements one has a style, and the other
one hidden template syntax in its style. -/
theorem computed_eq_layered :
    let css := ".x, #a { color: red !important; margin: 0 } p { padding: 2px; color: blue !important }"
    let own := "color: green; margin: 5px".toList
    let source := "<p id=a class=x style=\"".toList ++ own ++ "\"></p><p style=".toList ++
      [Guard.opener, '>']
    ∃ rules doc, Sheet.parse css.toList = .ok rules ∧ Document.parse source = .ok doc ∧
      computed doc rules 1 = some "padding: 2px; margin: 5px; color: red;".toList ∧
      (∃ merged, IsMerge (Declares doc rules 1 (Declaration.block own)) merged ∧
        write merged = "padding: 2px; margin: 5px; color: red;".toList) ∧
      computed doc rules 2 = some ("padding: 2px; color: blue; ".toList ++ [Guard.opener]) ∧
      ∃ merged, IsMerge (Declares doc rules 2 []) merged ∧
        write merged = "padding: 2px; color: blue;".toList := by
  intro css own source
  let first : Rule := ⟨[.compound ⟨none, none, [['x']], []⟩, .compound ⟨none, some ['a'], [], []⟩],
    [⟨"color".toList, "red".toList, true⟩, ⟨"margin".toList, ['0'], false⟩]⟩
  let second : Rule := ⟨[.compound ⟨some ['p'], none, [], []⟩],
    [⟨"padding".toList, "2px".toList, false⟩, ⟨"color".toList, "blue".toList, true⟩]⟩
  let plain : Element := ⟨['p'], [⟨"id".toList, some ['a']⟩, ⟨"class".toList, some ['x']⟩,
    ⟨"style".toList, some own⟩], false⟩
  let hidden : Element := ⟨['p'], [⟨"style".toList, some [Guard.opener]⟩], false⟩
  let doc := Document.ofForest (.element plain .nil (.element hidden .nil .nil))
  have hrules : Sheet.parse css.toList = .ok [first, second] := by decide +kernel
  have hparse : Document.parse source = .ok doc := by decide +kernel
  have hplain : matching doc 1 [first, second] = second.declarations ++ first.declarations := by
    have hmatched : ([first, second].filterMap fun rule =>
        (match? doc 1 rule).map (·, rule.declarations)) =
          [(⟨1, 0, 0⟩, first.declarations), (⟨0, 0, 1⟩, second.declarations)] := by decide +kernel
    rw [matching, hmatched]
    cbv
  have hhidden : matching doc 2 [first, second] = second.declarations := by decide +kernel
  have hvalue : computed doc [first, second] 1 =
      some "padding: 2px; margin: 5px; color: red;".toList := by
    rw [computed_of_matching (show doc.element? 1 = some plain from rfl) hplain (by decide +kernel)]
    decide +kernel
  have hvalue' : computed doc [first, second] 2 =
      some ("padding: 2px; color: blue; ".toList ++ [Guard.opener]) := by
    rw [computed_of_matching (show doc.element? 2 = some hidden from rfl) hhidden (by decide +kernel)]
    decide +kernel
  obtain ⟨-, hstyles⟩ := computed_eq hparse (show doc.element? 1 = some plain from rfl) [first, second]
  obtain ⟨-, hstyles'⟩ := computed_eq hparse (show doc.element? 2 = some hidden from rfl) [first, second]
  obtain ⟨merged, hmerged, hwritten⟩ := (hstyles _ hvalue).1 (by decide +kernel)
  obtain ⟨merged', hmerged', hwritten'⟩ := (hstyles' _ hvalue').2 [Guard.opener] rfl (by decide)
  refine ⟨_, doc, hrules, hparse, hvalue, ⟨merged, hmerged, hwritten.symm⟩, hvalue',
    merged', hmerged', ?_⟩
  have hsplit : "padding: 2px; color: blue; ".toList ++ [Guard.opener] =
      "padding: 2px; color: blue;".toList ++ ' ' :: [Guard.opener] := by decide
  exact List.append_cancel_right (hwritten'.symm.trans hsplit)

end
end Cascade
end MailTemplate
