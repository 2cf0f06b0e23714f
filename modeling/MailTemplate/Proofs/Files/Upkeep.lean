import MailTemplate.Proofs.Files.Making
import MailTemplate.Proofs.Files.Trees
import Mathlib.Logic.Relation

/-! What is done to a tree of files leaves a tree: files are written and removed, directories and links
are made, each of them in a directory that is there. -/

namespace MailTemplate

namespace Path

theorem slash_notMem_of_mem_parts {path part : Text} (h : part ∈ parts path) : '/' ∉ part := by
  unfold parts at h
  induction path generalizing part with
  | nil =>
    rw [List.splitOnP_nil, List.mem_singleton] at h
    exact h ▸ List.not_mem_nil
  | cons c path ih =>
    rw [List.splitOnP_cons_eq_if_modifyHead] at h
    split at h
    · rcases List.mem_cons.1 h with rfl | h
      · exact List.not_mem_nil
      · exact ih h
    · next hc =>
      obtain ⟨first, rest, hsplit⟩ := List.exists_cons_of_ne_nil (List.splitOnP_ne_nil (· == '/') path)
      rw [hsplit] at h ih
      rcases List.mem_cons.1 h with rfl | h
      · exact fun hm => (List.mem_cons.1 hm).elim (fun he => hc (by simp [← he])) (ih List.mem_cons_self)
      · exact ih (List.mem_cons_of_mem _ h)

end Path

namespace FileSystem
open MailTemplate.Path

inductive Step (files : FileSystem) : FileSystem → Prop where
  | write {path : Text} {contents : Contents} {later : FileSystem} :
      files.write path contents = .ok later → Step files later
  | makeDirectory {path : Text} {later : FileSystem} :
      files.makeDirectory path = .ok later → Step files later
  | makeLink {path target : Text} {later : FileSystem} :
      files.makeLink path target = .ok later → Step files later
  | remove {path : Text} {later : FileSystem} : files.remove path = .ok later → Step files later

/-- A place where an entry can stand: in a directory, under a name of its own. -/
def HasRoom (files : FileSystem) (place : Location) : Prop :=
  ∃ above name, place = above ++ [name] ∧ IsEntryName name ∧ files.isDirectoryAt above = true

section
variable {files later : FileSystem} {place result : Location} {entry : Entry} {path : Text}
  {parts : List Text} {links : Nat}

theorem hasRoom_of_lastPlace (h : files.lastPlace path = .ok (some place)) : files.HasRoom place := by
  obtain ⟨hname, above, -, hd, rfl⟩ := lastPlace_eq_some h
  obtain ⟨more, hparts⟩ := exists_lastSplit path
  have hm : (lastSplit path).2 ∈ Path.parts path := by simp [hparts]
  exact ⟨above, _, rfl, ⟨hname, slash_notMem_of_mem_parts hm⟩, hd⟩

/-- A file is written to where something is, or to where there is room for it. -/
theorem hasRoom_of_walk_create (tree : files.IsTree) (hs : files.entry? place ≠ none)
    (hp : ∀ part ∈ parts, '/' ∉ part) (h : files.walk .create links place parts = .ok result) :
    files.entry? result ≠ none ∨ files.HasRoom result := by
  fun_induction files.walk .create links place parts with
  | case1 =>
    cases h
    exact .inl hs
  | case2 => cases h
  | case3 links place part rest hd _ ih => exact ih hs (fun part hm => hp part (List.mem_cons_of_mem _ hm)) h
  | case4 links place rest hd _ ih =>
    have habove := tree.isDirectoryAt_dropLast (by simpa using hd)
    rw [isDirectoryAt, beq_iff_eq] at habove
    exact ih (by simp [habove]) (fun part hm => hp part (List.mem_cons_of_mem _ hm)) h
  | case5 => cases h
  | case6 => cases h
  | case7 links place part rest hd hpart hu _ _ _ _ =>
    -- nothing is there yet: the last name is the one that is made
    cases h
    exact .inr ⟨place, part, rfl, ⟨isName_of hpart hu, hp part List.mem_cons_self⟩, by simpa using hd⟩
  | case8 => cases h
  | case9 => cases h
  | case10 place part rest hd _ _ _ _ target he links ih =>
    -- a link: the parts of its target come first, from where the target begins
    rw [dite_eq_ite] at ih
    refine ih ?_ (fun part hm => ?_) h
    · split
      · exact Option.some_ne_none Entry.directory
      · exact fun hnone => by simp [isDirectoryAt, hnone] at hd
    · rcases List.mem_append.1 hm with hm | hm
      · exact slash_notMem_of_mem_parts hm
      · exact hp part (List.mem_cons_of_mem _ hm)
  | case11 links place part rest hd _ _ _ _ entry _ he ih =>
    exact ih (by simp [he]) (fun part hm => hp part (List.mem_cons_of_mem _ hm)) h

theorem isDirectoryAt_put (hn : place ≠ []) (hf : files.isDirectoryAt place = true → entry = .directory)
    {other : Location} (hd : files.isDirectoryAt other = true) :
    (files.put place entry).isDirectoryAt other = true := by
  rw [isDirectoryAt, beq_iff_eq, entry_put hn]
  split
  · next he => exact congrArg some (hf (he ▸ hd))
  · rwa [isDirectoryAt, beq_iff_eq] at hd

theorem mem_put {found : Location × Entry} (hm : found ∈ (files.put place entry).entries) :
    found.1 = place ∨ found ∈ files.entries := by
  unfold put at hm
  split at hm
  · obtain ⟨old, hold, rfl⟩ := List.mem_map.1 hm
    split
    · exact .inl rfl
    · exact .inr hold
  · rcases List.mem_append.1 hm with hm | hm
    · exact .inr hm
    · exact .inl (congrArg Prod.fst (List.mem_singleton.1 hm))

theorem nodup_put (h : (files.entries.map (·.1)).Nodup) :
    ((files.put place entry).entries.map (·.1)).Nodup := by
  unfold put
  split
  · have hkeys : (fun found : Location × Entry => found.1) ∘
        (fun old => if old.1 = place then (place, entry) else old) = fun old => old.1 := by
      funext old
      by_cases hold : old.1 = place <;> simp [hold]
    rwa [List.map_map, hkeys]
  · next hany =>
    rw [List.map_append]
    refine h.append (List.nodup_singleton _) fun key hkey hplace => hany ?_
    obtain ⟨old, hold, rfl⟩ := List.mem_map.1 hkey
    exact List.any_eq_true.2 ⟨old, hold, by simpa using hplace⟩

namespace IsTree

variable (tree : files.IsTree)
include tree

theorem put (hroom : files.HasRoom place) (hf : files.isDirectoryAt place = false) :
    (files.put place entry).IsTree := by
  have hn : place ≠ [] := by
    obtain ⟨_, _, rfl, -⟩ := hroom
    simp
  have hkept : ∀ {other}, files.isDirectoryAt other = true →
      (files.put place entry).isDirectoryAt other = true :=
    isDirectoryAt_put hn fun hd => absurd (hf.symm.trans hd) Bool.false_ne_true
  refine ⟨nodup_put tree.distinct, fun found hm => ?_, ?_⟩
  · rcases mem_put hm with he | hold
    · obtain ⟨above, name, rfl, hname, hd⟩ := hroom
      exact ⟨above, name, he, hname, hkept hd⟩
    · obtain ⟨above, name, he, hname, hd⟩ := tree.named found hold
      exact ⟨above, name, he, hname, hkept hd⟩
  · rw [current_put]
    exact hkept tree.current

theorem write {contents : Contents} (h : files.write path contents = .ok later) : later.IsTree := by
  obtain ⟨_, -, h⟩ := bind_eq_ok_iff.1 h
  obtain ⟨place, hwalk, h⟩ := bind_eq_ok_iff.1 h
  split at h
  · cases h
  · next hd =>
    cases h
    rw [Bool.not_eq_true] at hd
    have hn : place ≠ [] := by
      rintro rfl
      cases hd
    rcases hasRoom_of_walk_create tree (tree.entry?_start path)
      (fun _ => slash_notMem_of_mem_parts) hwalk with hthere | hroom
    · obtain ⟨old, hold⟩ := Option.ne_none_iff_exists'.1 hthere
      exact tree.put (tree.exists_above hold hn) hd
    · exact tree.put hroom hd

theorem put_of_lastPlace (h : files.lastPlace path = .ok (some place))
    (hfree : ¬ (files.entry? place).isSome = true) : (files.put place entry).IsTree := by
  rw [Bool.not_eq_true, Option.isSome_eq_false_iff, Option.isNone_iff_eq_none] at hfree
  refine tree.put (hasRoom_of_lastPlace h) ?_
  rw [isDirectoryAt, hfree]
  rfl

theorem makeDirectory (h : files.makeDirectory path = .ok later) : later.IsTree := by
  obtain ⟨found, hlast, h⟩ := bind_eq_ok_iff.1 h
  cases found with
  | none => cases h
  | some place =>
    dsimp only at h
    split at h
    · cases h
    · next hfree =>
      cases h
      exact tree.put_of_lastPlace hlast hfree

theorem makeLink {target : Text} (h : files.makeLink path target = .ok later) : later.IsTree := by
  unfold FileSystem.makeLink at h
  by_cases hnul : '\x00' ∈ path
  · rw [if_pos hnul] at h
    cases h
  · rw [if_neg hnul] at h
    obtain ⟨_, -, h⟩ := bind_eq_ok_iff.1 h
    obtain ⟨found, hlast, h⟩ := bind_eq_ok_iff.1 h
    cases found with
    | none => cases h
    | some place =>
      by_cases hfree : (files.entry? place).isSome = true
      · simp only [hfree, if_true] at h
        cases h
      · by_cases hslash : path.getLast? = some '/'
        · simp only [hfree, hslash, if_true] at h
          cases h
        · simp only [hfree, hslash, if_false] at h
          cases h
          exact tree.put_of_lastPlace hlast hfree

theorem erase (hd : files.isDirectoryAt place = false) :
    IsTree { files with entries := files.entries.filter (·.1 != place) } := by
  let later : FileSystem := { files with entries := files.entries.filter (·.1 != place) }
  have hdistinct : (later.entries.map (·.1)).Nodup :=
    tree.distinct.sublist (List.filter_sublist.map _)
  have hkept : ∀ other, files.isDirectoryAt other = true → later.isDirectoryAt other = true := by
    intro other ho
    by_cases hroot : other = []
    · rw [hroot]
      rfl
    · have hne : other ≠ place := by
        rintro rfl
        exact Bool.false_ne_true (hd.symm.trans ho)
      rw [isDirectoryAt, beq_iff_eq] at ho ⊢
      refine entry?_of_mem hdistinct hroot (List.mem_filter.2 ⟨?_, by simpa using hne⟩)
      exact (tree.entry?_eq_some_iff hroot).1 ho
  refine ⟨hdistinct, fun found hm => ?_, hkept _ tree.current⟩
  obtain ⟨above, name, he, hname, habove⟩ := tree.named found (List.mem_of_mem_filter hm)
  exact ⟨above, name, he, hname, hkept _ habove⟩

theorem remove (h : files.remove path = .ok later) : later.IsTree := by
  obtain ⟨found, -, h⟩ := bind_eq_ok_iff.1 h
  cases found with
  | none => cases h
  | some place =>
    dsimp only at h
    split at h
    · cases h
    · cases h
    · next entry hentry hd =>
      split at h
      · cases h
      · cases h
        refine tree.erase ?_
        rw [isDirectoryAt, hd]
        simpa using hentry

theorem step (h : files.Step later) : later.IsTree := by
  cases h with
  | write h => exact tree.write h
  | makeDirectory h => exact tree.makeDirectory h
  | makeLink h => exact tree.makeLink h
  | remove h => exact tree.remove h

theorem of_steps (h : Relation.ReflTransGen Step files later) : later.IsTree := by
  induction h with
  | refl => exact tree
  | tail _ hstep ih => exact ih.step hstep

end IsTree

variable (files) in
theorem steps_makeDirectories (fuel : Nat) (path : Text) :
    Relation.ReflTransGen Step files (makeDirectories fuel files path).1 := by
  induction fuel generalizing path with
  | zero => exact .refl
  | succ fuel ih =>
    rw [makeDirectories]
    split
    · exact .refl
    · split
      · next later hmade => exact .single (.makeDirectory hmade)
      · split
        · exact .refl
        · next parent _ =>
          have habove := ih parent
          split
          · next hmade => rwa [hmade] at habove
          · next above hmade =>
            rw [hmade] at habove
            split
            · next later hlast => exact habove.tail (.makeDirectory hlast)
            · exact habove
      · exact .refl

variable (files) in
theorem steps_writeDeep (path : Text) (contents : Contents) :
    Relation.ReflTransGen Step files (files.writeDeep path contents).1 := by
  have hparents : Relation.ReflTransGen Step files (files.makeParents path).1 := by
    unfold makeParents
    split
    · exact steps_makeDirectories files _ _
    · exact .refl
  unfold writeDeep
  split
  · next hmade => rwa [hmade] at hparents
  · next above hmade =>
    rw [hmade] at hparents
    split
    · next later hwrite => exact hparents.tail (.write hwrite)
    · exact hparents

end
end FileSystem
end MailTemplate
