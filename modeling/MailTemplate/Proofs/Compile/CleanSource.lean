import MailTemplate.Proofs.Compile.Loading
import MailTemplate.Proofs.Render.Remains
import MailTemplate.Proofs.Text.Pieces

/-! Sources without private characters. Joining a template with its layouts, and splicing files into it,
brings in no characters but those of the texts that are read. -/

namespace MailTemplate
open Guard

section
variable {text part : Text}

theorem Guard.IsClean.of_subset (h : IsClean text) (hs : part ⊆ text) : IsClean part :=
  ⟨fun ho => h.1 (hs ho), fun hc => h.2 (hs hc)⟩

theorem Guard.IsClean.trim (h : IsClean text) : IsClean (Text.trim text) := by
  rw [IsClean, Declaration.mem_trim_iff (by decide), Declaration.mem_trim_iff (by decide)]
  exact h

theorem isClean_replace {α : Type} {pattern : Pattern α} {f : α → Text} (h : IsClean text)
    (hf : ∀ item ∈ pattern.items text, IsClean (f item)) : IsClean (pattern.replace f text) := by
  constructor
  · intro ho
    rcases Pattern.mem_replace ho with ho | ⟨item, hm, ho⟩
    · exact h.1 ho
    · exact (hf item hm).1 ho
  · intro hc
    rcases Pattern.mem_replace hc with hc | ⟨item, hm, hc⟩
    · exact h.2 hc
    · exact (hf item hm).2 hc

end

def AllClean (overrides : List Override) : Prop := ∀ override ∈ overrides, IsClean override.content

namespace Override

theorem mem_put {new override : Override} {overrides : List Override}
    (h : override ∈ put new overrides) : override = new ∨ override ∈ overrides := by
  induction overrides with
  | nil => exact .inl (List.mem_singleton.1 h)
  | cons old rest ih =>
    rw [put] at h
    split at h
    · exact (List.mem_cons.1 h).imp_right (List.mem_cons_of_mem _)
    · rcases List.mem_cons.1 h with rfl | h
      · exact .inr List.mem_cons_self
      · exact (ih h).imp_right (List.mem_cons_of_mem _)

theorem mem_ofBlocks {content : Block → Text} {blocks : List Block} {override : Override}
    (h : override ∈ ofBlocks content blocks) :
    ∃ block ∈ blocks, override = ⟨block.name, content block⟩ := by
  have hfold : ∀ (blocks : List Block) (overrides : List Override),
      override ∈ blocks.foldl (fun overrides block => put ⟨block.name, content block⟩ overrides)
        overrides →
      override ∈ overrides ∨ ∃ block ∈ blocks, override = ⟨block.name, content block⟩ := by
    intro blocks
    induction blocks with
    | nil => exact fun _ h => .inl h
    | cons block blocks ih =>
      intro overrides h
      rcases ih _ h with h | ⟨other, hm, he⟩
      · rcases mem_put h with he | h
        · exact .inr ⟨block, List.mem_cons_self, he⟩
        · exact .inl h
      · exact .inr ⟨other, List.mem_cons_of_mem _ hm, he⟩
  rcases hfold blocks [] h with h | h
  · cases h
  · exact h

end Override

namespace Layout

section
variable {source layout : Text} {overrides more : List Override}

theorem allClean_spans (h : IsClean source) : AllClean (spans source) := by
  intro override hm
  obtain ⟨block, hb, rfl⟩ := Override.mem_ofBlocks hm
  exact h.of_subset (Pattern.infix_of_mem_items hb).subset

theorem allClean_bodies (h : IsClean source) : AllClean (bodies source) := by
  intro override hm
  obtain ⟨block, hb, rfl⟩ := Override.mem_ofBlocks hm
  have htext : IsClean block.text := h.of_subset (Pattern.infix_of_mem_items hb).subset
  have hbody : IsClean block.body := htext.of_subset fun c hc =>
    List.mem_append_left _ (List.mem_append_right _ hc)
  exact hbody.trim

theorem allClean_supplement (h : AllClean overrides) (hm : AllClean more) :
    AllClean (supplement overrides more) := by
  unfold supplement
  induction more generalizing overrides with
  | nil => exact h
  | cons new more ih =>
    have hmore : AllClean more := fun override ho => hm override (List.mem_cons_of_mem _ ho)
    rw [List.foldl_cons]
    refine ih ?_ hmore
    by_cases hany : overrides.any (·.name == new.name)
    · rwa [if_pos hany]
    · rw [if_neg hany]
      intro override ho
      rcases List.mem_append.1 ho with ho | ho
      · exact h override ho
      · rw [List.mem_singleton.1 ho]
        exact hm new List.mem_cons_self

theorem isClean_fill {override : Override} (h : IsClean layout) (ho : IsClean override.content) :
    IsClean (fill layout override) := isClean_replace h fun _ _ => ho

theorem isClean_assemble (h : IsClean layout) (ho : AllClean overrides) :
    IsClean (assemble layout overrides) := by
  have hfill : ∀ (overrides : List Override) (layout : Text), IsClean layout → AllClean overrides →
      IsClean (overrides.foldl fill layout) := by
    intro overrides
    induction overrides with
    | nil => exact fun _ h _ => h
    | cons override overrides ih =>
      intro layout h ho
      refine ih _ (isClean_fill h (ho override List.mem_cons_self)) ?_
      exact fun other hm => ho other (List.mem_cons_of_mem _ hm)
  have hremoved : IsClean (extendsTag.removeFirst (overrides.foldl fill layout)) :=
    (hfill overrides layout h ho).of_subset fun c hc => Pattern.mem_of_mem_removeFirst hc
  exact isClean_replace hremoved fun _ _ => ⟨List.not_mem_nil, List.not_mem_nil⟩

end
end Layout
def FileSystem.IsCleanBelow (files : FileSystem) (config : Config) : Prop :=
  ∀ root location text, Source.place files config.sourceRoot = .ok root → root <+: location →
    files.readAt location = .ok text → IsClean text

section
variable {files : FileSystem} {config : Config} (clean : files.IsCleanBelow config)
include clean

theorem isClean_load {reference : Text} {template : Template}
    (h : Source.load files config reference = .ok template) : IsClean template.text := by
  obtain ⟨-, root, hroot, hwithin, hread⟩ := Source.load_eq_ok h
  exact clean root _ _ hroot (Source.within_eq_ok hwithin).2.1 hread

theorem isClean_climb {leaf parent text : Text} {overrides : List Override} {chain : List Text}
    (ho : AllClean overrides)
    (h : Layout.climb files config leaf parent overrides chain = .ok text) : IsClean text := by
  fun_induction Layout.climb files config leaf parent overrides chain with
  | case1 => cases h
  | case2 => cases h
  | case3 => cases h
  | case4 parent overrides chain _ _ layout hload hparent =>
    cases h
    exact Layout.isClean_assemble (isClean_load clean hload) ho
  | case5 parent overrides chain _ _ layout hload next hparent ih =>
    have hspans := Layout.allClean_spans (isClean_load clean hload)
    exact ih (Layout.allClean_supplement ho hspans) h

theorem isClean_resolveTemplate {template : Template} {text : Text} (ht : IsClean template.text)
    (h : Layout.resolveTemplate files config template = .ok text) : IsClean text := by
  unfold Layout.resolveTemplate at h
  split at h
  · cases h
    exact ht
  · exact isClean_climb clean (Layout.allClean_bodies ht) h

end

namespace Include

theorem isClean_joinPieces {State : Type}
    {expand : ReferenceTag "include".toList → State → Except CompileError Text × State}
    {pieces : List (Piece (ReferenceTag "include".toList))} {state : State} {text : Text}
    (hc : ∀ c, .char c ∈ pieces → IsClean [c])
    (he : ∀ tag state text, (expand tag state).1 = .ok text → IsClean text)
    (h : (joinPieces expand pieces state).1 = .ok text) : IsClean text := by
  induction pieces generalizing state text with
  | nil =>
    cases h
    exact ⟨List.not_mem_nil, List.not_mem_nil⟩
  | cons piece pieces ih =>
    have hlater : ∀ c, .char c ∈ pieces → IsClean [c] := fun c hm => hc c (List.mem_cons_of_mem _ hm)
    cases piece with
    | char c =>
      obtain ⟨rest, hrest, rfl⟩ := map_eq_ok_iff.1 h
      exact (hc c List.mem_cons_self).append (ih hlater hrest)
    | item tag =>
      rw [joinPieces] at h
      cases hexpand : expand tag state with
      | mk result after =>
        cases result with
        | error cause =>
          rw [hexpand] at h
          cases h
        | ok first =>
          rw [hexpand] at h
          obtain ⟨rest, hrest, rfl⟩ := map_eq_ok_iff.1 h
          have hfirst : IsClean first := he tag state first (by rw [hexpand])
          exact hfirst.append (ih hlater hrest)

section
variable {files : FileSystem} {config : Config} (clean : files.IsCleanBelow config)
include clean

theorem isClean_spliceAll {root : Location} (hroot : Source.place files config.sourceRoot = .ok root)
    {maxDepth fuel : Nat} {content directory text : Text} {visiting : List Location}
    (hc : IsClean content)
    (h : (spliceAll files root maxDepth fuel content directory visiting).1 = .ok text) :
    IsClean text := by
  induction fuel generalizing content directory text visiting with
  | zero => cases h
  | succ fuel ih =>
    refine isClean_joinPieces (fun c hm => ?_) (fun tag visiting text hexpand => ?_) h
    · refine hc.of_subset fun d hd => ?_
      rw [List.mem_singleton.1 hd]
      exact Pattern.mem_of_char_mem_pieces hm
    · split at hexpand
      · cases hexpand
      · next location hlocate =>
        split at hexpand
        · cases hexpand
        · split at hexpand
          · cases hexpand
          · split at hexpand
            · cases hexpand
            · next body hread =>
              obtain ⟨path, -, hwithin⟩ := locate_eq_ok hlocate
              have hbelow := (Source.within_eq_ok hwithin).2.1
              have hbody := clean root location body hroot hbelow (mapError_eq_ok_iff.1 hread)
              exact ih hbody hexpand

end
end Include

/-- The source of a template is without private characters, if all texts below the source root are. -/
theorem Compiler.isClean_source {files : FileSystem} {config : Config} {reference text : Text}
    {template : Template} (clean : files.IsCleanBelow config)
    (h : source config files reference = .ok (template, text)) : IsClean text := by
  obtain ⟨joined, hload, hjoined, hresult⟩ := source_eq_ok h
  have hclean := isClean_resolveTemplate clean (isClean_load clean hload) hjoined
  rcases hresult with ⟨-, rfl⟩ | ⟨-, root, hroot, hsplice⟩
  · exact hclean
  · exact Include.isClean_spliceAll clean hroot hclean hsplice

end MailTemplate
