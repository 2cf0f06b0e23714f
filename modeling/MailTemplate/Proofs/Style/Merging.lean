import MailTemplate.Style.Cascade
import Mathlib.Data.List.Induction
import Mathlib.Data.List.Nodup
import Mathlib.Tactic.Tauto

/-! Declarations merged. Every property that is declared has one value, that of its last declaration. -/

namespace MailTemplate
namespace Cascade

theorem mem_order {fromRules own : List Declaration} {declaration : Declaration} :
    declaration ∈ order fromRules own ↔ declaration ∈ fromRules ∨ declaration ∈ own := by
  cases hi : declaration.important <;> simp [order, hi]

theorem mem_put {merged : Merged} {declaration : Declaration} {pair : Text × Text}
    (h : pair ∈ put merged declaration) :
    pair = (declaration.property, declaration.value) ∨ pair ∈ merged := by
  induction merged with
  | nil => exact .inl (List.mem_singleton.1 h)
  | cons first rest ih =>
    obtain ⟨property, value⟩ := first
    rw [put] at h
    by_cases hp : property = declaration.property
    · rw [if_pos hp, hp] at h
      rcases List.mem_cons.1 h with rfl | h
      · exact .inl rfl
      · exact .inr (List.mem_cons_of_mem _ h)
    · rw [if_neg hp] at h
      rcases List.mem_cons.1 h with rfl | h
      · exact .inr List.mem_cons_self
      · exact (ih h).imp_right (List.mem_cons_of_mem _)

theorem mem_foldl_put {declarations : List Declaration} {merged : Merged} {pair : Text × Text}
    (h : pair ∈ declarations.foldl put merged) :
    pair ∈ merged ∨
      ∃ declaration ∈ declarations, pair = (declaration.property, declaration.value) := by
  induction declarations generalizing merged with
  | nil => exact .inl h
  | cons first rest ih =>
    rcases ih h with hm | ⟨declaration, hd, he⟩
    · rcases mem_put hm with he | hm
      · exact .inr ⟨first, List.mem_cons_self, he⟩
      · exact .inl hm
    · exact .inr ⟨declaration, List.mem_cons_of_mem _ hd, he⟩

theorem map_fst_put (merged : Merged) (declaration : Declaration) (property : Text) :
    property ∈ (put merged declaration).map (·.1) ↔
      property ∈ merged.map (·.1) ∨ property = declaration.property := by
  induction merged with
  | nil => simp [put]
  | cons first rest ih =>
    obtain ⟨other, value⟩ := first
    rw [put]
    by_cases hp : other = declaration.property
    · simp [hp]
      tauto
    · rw [if_neg hp, List.map_cons, List.mem_cons, List.map_cons, List.mem_cons, ih, or_assoc]

theorem map_fst_foldl_put (declarations : List Declaration) (merged : Merged) (property : Text) :
    property ∈ (declarations.foldl put merged).map (·.1) ↔
      property ∈ merged.map (·.1) ∨ property ∈ declarations.map (·.property) := by
  induction declarations generalizing merged with
  | nil => simp
  | cons first rest ih =>
    rw [List.foldl_cons, ih, map_fst_put, List.map_cons, List.mem_cons, or_assoc]

theorem nodup_put {merged : Merged} (h : (merged.map (·.1)).Nodup) (declaration : Declaration) :
    ((put merged declaration).map (·.1)).Nodup := by
  induction merged with
  | nil => exact List.nodup_singleton _
  | cons first rest ih =>
    obtain ⟨property, value⟩ := first
    obtain ⟨hfirst, hrest⟩ := List.nodup_cons.1 h
    rw [put]
    by_cases hp : property = declaration.property
    · rw [if_pos hp]
      exact List.nodup_cons.2 ⟨hfirst, hrest⟩
    · rw [if_neg hp]
      refine List.nodup_cons.2 ⟨?_, ih hrest⟩
      rw [map_fst_put]
      exact not_or.2 ⟨hfirst, hp⟩

theorem nodup_foldl_put (declarations : List Declaration) :
    ((declarations.foldl put []).map (·.1)).Nodup := by
  induction declarations using List.reverseRecOn with
  | nil => exact List.nodup_nil
  | append_singleton front last ih =>
    rw [List.foldl_append]
    exact nodup_put ih last

theorem ne_property_of_mem_put {merged : Merged} {declaration : Declaration} {pair : Text × Text}
    (hn : (merged.map (·.1)).Nodup) (h : pair ∈ put merged declaration)
    (hp : pair ≠ (declaration.property, declaration.value)) :
    pair ∈ merged ∧ pair.1 ≠ declaration.property := by
  induction merged with
  | nil => exact absurd (List.mem_singleton.1 h) hp
  | cons first rest ih =>
    obtain ⟨property, value⟩ := first
    obtain ⟨hfirst, hrest⟩ := List.nodup_cons.1 hn
    rw [put] at h
    by_cases hsame : property = declaration.property
    · rw [if_pos hsame] at h
      rcases List.mem_cons.1 h with he | hm
      · exact absurd (he.trans (congrArg (·, declaration.value) hsame)) hp
      · refine ⟨List.mem_cons_of_mem _ hm, fun he => hfirst ?_⟩
        exact List.mem_map.2 ⟨pair, hm, he.trans hsame.symm⟩
    · rw [if_neg hsame] at h
      rcases List.mem_cons.1 h with rfl | hm
      · exact ⟨List.mem_cons_self, hsame⟩
      · obtain ⟨hin, hne⟩ := ih hrest hm
        exact ⟨List.mem_cons_of_mem _ hin, hne⟩

theorem exists_last_of_mem_foldl_put {declarations : List Declaration} {property value : Text}
    (h : (property, value) ∈ declarations.foldl put []) :
    ∃ front declaration rear, declarations = front ++ declaration :: rear ∧
      declaration.property = property ∧ declaration.value = value ∧
        ∀ later ∈ rear, later.property ≠ property := by
  induction declarations using List.reverseRecOn with
  | nil => cases h
  | append_singleton others last ih =>
    rw [List.foldl_append] at h
    by_cases hlast : (property, value) = (last.property, last.value)
    · cases hlast
      exact ⟨others, last, [], rfl, rfl, rfl, fun _ hm => absurd hm List.not_mem_nil⟩
    · obtain ⟨hm, hne⟩ := ne_property_of_mem_put (nodup_foldl_put others) h hlast
      obtain ⟨front, declaration, rear, rfl, hp, hv, hrear⟩ := ih hm
      refine ⟨front, declaration, rear ++ [last], by simp, hp, hv, fun later hl => ?_⟩
      rcases List.mem_append.1 hl with hl | hl
      · exact hrear later hl
      · rw [List.mem_singleton.1 hl]
        exact hne.symm

section
variable {rules : List Rule} {doc : Document} {node : NodeId}

theorem mem_matching {declaration : Declaration} (h : declaration ∈ matching doc node rules) :
    ∃ rule ∈ rules, declaration ∈ rule.declarations := by
  obtain ⟨pair, hm, hd⟩ := List.mem_flatMap.1 h
  rw [List.mem_mergeSort] at hm
  obtain ⟨rule, hrule, hpair⟩ := List.mem_filterMap.1 hm
  obtain ⟨specificity, -, rfl⟩ := Option.map_eq_some_iff.1 hpair
  exact ⟨rule, hrule, hd⟩

theorem computed_eq_some {value : Text} (h : computed doc rules node = some value) :
    ∃ element, doc.element? node = some element ∧
      value = style (matching doc node rules) (element.attr? "style".toList) := by
  simp only [computed, Option.bind_eq_bind, Option.bind_eq_some_iff] at h
  obtain ⟨element, he, h⟩ := h
  split at h
  · cases h
  · split at h
    · cases h
    · cases h
      exact ⟨element, he, rfl⟩

end
end Cascade
end MailTemplate
