import MailTemplate.Compile.Inherit
import MailTemplate.Proofs.Template.Parts

/-! What is supplied for the blocks of a layout. A list of overrides supplies one part for a name:
the last block of that name in the template it comes from, and what was collected before goes first.
Filling in the overrides one after the other replaces all blocks at once. -/

namespace MailTemplate
open Text

namespace Part

section
variable {parts : List Part}

def lastNamed? (name : Text) (parts : List Part) : Option Block :=
  (blocks parts).reverse.find? (·.name = name)

/-- Whether a part is a block with nothing but white space in it. -/
def isBlank : Part → Bool
  | outer _ => false
  | block b => b.isBlank

end
end Part

namespace Override

section
variable {overrides more : List Override} {blocks : List Block} {content : Block → Text}

theorem find?_put (new : Override) (overrides : List Override) (given : Text) :
    (put new overrides).find? (·.name = given) =
      if new.name = given then some new else overrides.find? (·.name = given) := by
  induction overrides with
  | nil => by_cases h : new.name = given <;> simp [put, h]
  | cons old rest ih =>
    by_cases hold : old.name = new.name
    · by_cases h : new.name = given <;> simp [put, hold, h]
    · by_cases h : old.name = given
      · subst h
        simp [put, hold, Ne.symm hold]
      · simp [put, hold, h, ih]

theorem nodup_concat (h : (overrides.map name).Nodup) {new : Text}
    (hn : new ∉ overrides.map name) : (overrides.map name ++ [new]).Nodup :=
  List.nodup_append.2 ⟨h, by simp, by
    rintro other ho _ hm rfl
    exact hn (List.mem_singleton.1 hm ▸ ho)⟩

theorem find?_ofBlocks (content : Block → Text) (blocks : List Block) (given : Text) :
    (ofBlocks content blocks).find? (·.name = given) =
      (blocks.reverse.find? (·.name = given)).map fun b => ⟨b.name, content b⟩ := by
  induction blocks using List.reverseRecOn with
  | nil => rfl
  | append_singleton blocks b ih =>
    rw [ofBlocks, List.foldl_append]
    simp only [List.foldl_cons, List.foldl_nil, find?_put, List.reverse_append,
      List.reverse_singleton, List.singleton_append, List.find?_cons]
    by_cases h : b.name = given
    · simp [h]
    · simpa [h, ofBlocks] using ih

end
end Override

namespace Layout

section
variable {overrides more : List Override} {parts : List Part} {supplied : Text → Option Part}

theorem find?_supplement (overrides more : List Override) (given : Text) :
    (supplement overrides more).find? (·.name = given) =
      (overrides.find? (·.name = given)).or (more.find? (·.name = given)) := by
  induction more generalizing overrides with
  | nil => simp [supplement]
  | cons new more ih =>
    rw [supplement, List.foldl_cons]
    refine (ih _).trans ?_
    by_cases hold : overrides.any (·.name == new.name) = true
    · rw [if_pos hold, List.find?_cons]
      by_cases h : new.name = given
      · obtain ⟨old, hm, hn⟩ := List.any_eq_true.1 hold
        have hsome : (overrides.find? (·.name = given)).isSome := by
          rw [List.find?_isSome]
          exact ⟨old, hm, by simpa [← h] using hn⟩
        obtain ⟨found, hfound⟩ := Option.isSome_iff_exists.1 hsome
        simp [hfound]
      · simp [h]
    · rw [if_neg hold, List.find?_append, Option.or_assoc, List.find?_cons]
      by_cases h : new.name = given <;> simp [h]

theorem nodup_supplement (h : (overrides.map Override.name).Nodup) :
    ((supplement overrides more).map Override.name).Nodup := by
  induction more generalizing overrides with
  | nil => exact h
  | cons new more ih =>
    rw [supplement, List.foldl_cons]
    refine ih ?_
    split
    · exact h
    · next hn =>
      rw [List.map_append]
      exact Override.nodup_concat h (by simpa [List.any_eq_true] using hn)

/-- A list of overrides holds one override for every name that a part is supplied for, with the text
of that part. -/
structure Supplies (overrides : List Override) (supplied : Text → Option Part) : Prop where
  nodup : (overrides.map Override.name).Nodup
  find : ∀ given, (overrides.find? (·.name = given)).map Override.content =
    (supplied given).map Part.text

theorem Supplies.supplement (hs : Supplies overrides supplied)
    (h : ∀ part ∈ parts, part.WellFormed) :
    Supplies (Layout.supplement overrides (spans (Part.textAll parts))) fun given =>
      (supplied given).or ((Part.lastNamed? given parts).map .block) where
  nodup := nodup_supplement hs.nodup
  find given := by
    have hspans : ((spans (Part.textAll parts)).find? (·.name = given)).map Override.content =
        ((Part.lastNamed? given parts).map Part.block).map Part.text := by
      rw [spans, Override.find?_ofBlocks, Part.items_textAll h, Option.map_map, Option.map_map]
      rfl
    rw [find?_supplement, Option.map_or, hs.find, hspans, ← Option.map_or]

/-- What may be supplied for blocks of a name: well formed parts; if it is a block again, then one
of the same name. -/
def Fits (supplied : Text → Option Part) : Prop :=
  ∀ given part, supplied given = some part →
    IsRun isWord given ∧ part.WellFormed ∧ ∀ b, part = .block b → b.name = given

theorem Supplies.tail {new : Override} (hs : Supplies (new :: overrides) supplied) :
    Supplies overrides fun given => if given = new.name then none else supplied given := by
  obtain ⟨hnew, hrest⟩ := List.nodup_cons.1 hs.nodup
  refine ⟨hrest, fun given => ?_⟩
  by_cases hg : given = new.name
  · subst hg
    have hnone : overrides.find? (·.name = new.name) = none := by
      rw [List.find?_eq_none]
      intro other ho he
      exact hnew (List.mem_map.2 ⟨other, ho, by simpa using he⟩)
    simp [hnone]
  · have hfind := hs.find given
    simpa [Ne.symm hg, hg] using hfind

end
end Layout
end MailTemplate
