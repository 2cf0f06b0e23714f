import MailTemplate.Proofs.Files.Names
import MailTemplate.Proofs.Files.Walk
import MailTemplate.Proofs.Text.Success

/-! What making directories changes. Directories appear where nothing was, at the places that the path
names beyond what is there already; the ways through the files stay what they were. -/

namespace MailTemplate
namespace FileSystem
open MailTemplate.Path

section
variable {files later last : FileSystem} {allowed : Location → Prop} {place result base : Location}
  {parts front rest : List Text} {path : Text}

theorem entry_put (hn : place ≠ []) (entry : Entry) (other : Location) :
    entry? (files.put place entry) other =
      if other = place then some entry else files.entry? other := by
  by_cases ho : other = []
  · subst ho
    rw [if_neg (Ne.symm hn)]
    rfl
  · unfold entry?
    rw [if_neg ho, if_neg ho]
    unfold put
    split
    · next hany =>
      have hkey : (fun old : Location × Entry => old.1 == other) ∘
          (fun old => if old.1 = place then (place, entry) else old) = fun old => old.1 == other := by
        funext old
        by_cases hold : old.1 = place <;> simp [hold]
      simp only [List.find?_map, hkey, Option.map_map]
      cases hf : files.entries.find? (·.1 == other) with
      | none =>
        have hother : other ≠ place := by
          rintro rfl
          obtain ⟨old, hm, he⟩ := List.any_eq_true.1 hany
          exact List.find?_eq_none.1 hf old hm he
        simp [hother]
      | some old =>
        have hold : old.1 = other := by simpa using List.find?_some hf
        by_cases hother : other = place <;> simp [hold, hother]
    · next hany =>
      rw [List.find?_append]
      by_cases hother : other = place
      · subst hother
        have hnone : files.entries.find? (·.1 == other) = none :=
          List.find?_eq_none.2 fun old hm he => hany (List.any_eq_true.2 ⟨old, hm, he⟩)
        simp [hnone]
      · simp [hother, Ne.symm hother]

theorem current_put (files : FileSystem) (place : Location) (entry : Entry) :
    (files.put place entry).current = files.current := by
  unfold put
  split <;> rfl

structure Grown (allowed : Location → Prop) (files later : FileSystem) : Prop where
  current : later.current = files.current
  entries : ∀ place, later.entry? place = files.entry? place ∨
    allowed place ∧ files.entry? place = none ∧ later.entry? place = some .directory

theorem Grown.refl (allowed : Location → Prop) (files : FileSystem) : Grown allowed files files :=
  ⟨rfl, fun _ => .inl rfl⟩

theorem Grown.trans (h : Grown allowed files later) (hl : Grown allowed later last) :
    Grown allowed files last := by
  refine ⟨hl.current.trans h.current, fun place => ?_⟩
  rcases hl.entries place with he | ⟨ha, hn, hd⟩
  · rw [he]
    exact h.entries place
  · rcases h.entries place with he | ⟨_, _, hdir⟩
    · exact .inr ⟨ha, he.symm.trans hn, hd⟩
    · rw [hdir] at hn
      cases hn

theorem Grown.kept (h : Grown allowed files later) {entry : Entry}
    (he : files.entry? place = some entry) : later.entry? place = some entry := by
  rcases h.entries place with hs | ⟨-, hn, -⟩
  · rw [hs, he]
  · rw [hn] at he
    cases he

theorem Grown.isDirectoryAt (h : Grown allowed files later) (hd : files.isDirectoryAt place = true) :
    later.isDirectoryAt place = true := by
  rw [FileSystem.isDirectoryAt, beq_iff_eq] at hd ⊢
  exact h.kept hd

theorem Grown.next? (h : Grown allowed files later) {part : Text} {found : Location × List Text}
    (hn : files.next? place part = some found) : later.next? place part = some found := by
  unfold FileSystem.next? at hn ⊢
  split at hn
  · cases hn
  · next hd =>
    rw [if_neg (by simpa using h.isDirectoryAt (by simpa using hd))]
    split at hn
    · next hp => rw [if_pos hp, hn]
    · next hp =>
      rw [if_neg hp]
      split at hn
      · next hu => rw [if_pos hu, hn]
      · next hu =>
        rw [if_neg hu]
        cases he : files.entry? (place ++ [part]) with
        | none =>
          rw [he] at hn
          cases hn
        | some entry => rw [h.kept he, ← hn, he]

theorem Grown.start (h : Grown allowed files later) (path : Text) :
    later.start path = files.start path := by
  simp [FileSystem.start, h.current]

theorem Grown.leads (h : Grown allowed files later) (hl : files.Leads place parts result) :
    later.Leads place parts result := by
  induction hl with
  | here => exact .here
  | on hnext _ ih => exact .on (h.next? hnext) ih

theorem Grown.isClear (h : Grown allowed files later) (hc : files.IsClear place parts) :
    later.IsClear place parts := by
  intro front hf target he
  rcases h.entries (lexical place front) with hs | ⟨-, -, hd⟩
  · exact hc front hf target (hs.symm.trans he)
  · rw [hd] at he
    cases he

/-- The names of a path, split as it is for the place of the last one. -/
theorem names_lastSplit (h : IsName (lastSplit path).2) :
    names path = (lastSplit path).1.filter (fun part => part != [] && part != ['.']) ++
      [(lastSplit path).2] := by
  obtain ⟨back, hback⟩ : ∃ back, (Path.parts path).reverse.dropWhile (· = []) = back := ⟨_, rfl⟩
  have hsplit : lastSplit path = (back.tail.reverse, back.headD []) := by rw [lastSplit, hback]
  have hparts : Path.parts path =
      back.reverse ++ ((Path.parts path).reverse.takeWhile (· = [])).reverse := by
    rw [← hback, ← List.reverse_append, List.takeWhile_append_dropWhile, List.reverse_reverse]
  have hempty : ((Path.parts path).reverse.takeWhile (· = [])).reverse.filter
      (fun part => part != [] && part != ['.']) = [] := by
    rw [List.filter_eq_nil_iff]
    intro part hm
    obtain rfl : part = [] := by simpa using List.mem_takeWhile_imp (List.mem_reverse.1 hm)
    simp
  rw [hsplit] at h ⊢
  cases back with
  | nil => exact absurd rfl h.1
  | cons name rest =>
    rw [names, hparts, List.filter_append, hempty, List.append_nil, List.reverse_cons,
      List.filter_append]
    congr 1
    exact List.filter_cons_of_pos (by simpa using ⟨h.1, h.2.1⟩)

theorem lastPlace_eq_some (h : files.lastPlace path = .ok (some result)) :
    IsName (lastSplit path).2 ∧ ∃ place,
      files.walk .find maxLinks (files.start path) (lastSplit path).1 = .ok place ∧
        files.isDirectoryAt place = true ∧ result = place ++ [(lastSplit path).2] := by
  obtain ⟨_, -, h⟩ := bind_eq_ok_iff.1 h
  obtain ⟨place, hwalk, h⟩ := bind_eq_ok_iff.1 h
  dsimp only at h
  split at h
  · cases h
  · next hd =>
    split at h
    · cases h
    · next hname =>
      split at h
      · cases h
      · cases h
        simp only [not_or] at hname
        exact ⟨hname, place, hwalk, by simpa using hd, rfl⟩

/-- A new directory stands where its name leads to in the directory of the parts before. -/
theorem makeDirectory_eq_ok (h : files.makeDirectory path = .ok later) :
    ∃ before name place, names path = before ++ [name] ∧ IsName name ∧
      files.Leads (files.start path) before place ∧ files.isDirectoryAt place = true ∧
        files.entry? (place ++ [name]) = none ∧ later = files.put (place ++ [name]) .directory := by
  obtain ⟨found, hlast, h⟩ := bind_eq_ok_iff.1 h
  cases found with
  | none => cases h
  | some found =>
    obtain ⟨hname, place, hwalk, hd, rfl⟩ := lastPlace_eq_some hlast
    dsimp only at h
    split at h
    · cases h
    · next hnone =>
      cases h
      exact ⟨_, _, place, names_lastSplit hname, hname, (leads_of_walk (by decide) hwalk).filter, hd,
        by simpa using hnone, rfl⟩

/-- The places that a path leads to by its names alone, on its way from a place. -/
def OnWay (base : Location) (names : List Text) (place : Location) : Prop :=
  ∃ front, front <+: names ∧ lexical base front = place

/-- A path that begins with a way that is there makes a directory beyond that way. -/
theorem grown_makeDirectory (hb : files.Leads (files.start path) front base)
    (hc : files.IsClear base rest) (hp : names path <+: front ++ rest)
    (h : files.makeDirectory path = .ok later) : Grown (OnWay base rest) files later := by
  obtain ⟨before, name, place, hnames, hname, hplace, -, hnone, rfl⟩ := makeDirectory_eq_ok h
  have hbeyond : ¬ before ++ [name] <+: front := by
    rintro ⟨more, rfl⟩
    rw [List.append_assoc] at hb
    cases hplace.append_iff.1 hb with
    | on hnext =>
      cases (next?_missing hname hnone).symm.trans hnext
  have hway : OnWay base rest (place ++ [name]) := by
    rw [hnames] at hp
    rcases List.prefix_or_prefix_of_prefix hp (List.prefix_append front rest) with hf | hf
    · exact absurd hf hbeyond
    · rcases List.prefix_concat_iff.1 hf with rfl | ⟨inside, rfl⟩
      · exact absurd List.prefix_rfl hbeyond
      · rw [List.append_assoc, List.prefix_append_right_inj] at hp
        have hinside := (hb.append_iff.1 hplace).eq_lexical
          (hc.of_isPrefix ((List.prefix_append _ _).trans hp))
        refine ⟨inside ++ [name], hp, ?_⟩
        rw [lexical_append, lexical_cons, lexical_nil, step_of_isName hname, hinside]
  refine ⟨?_, fun other => ?_⟩
  · unfold put
    split <;> rfl
  · rw [entry_put (by simp)]
    by_cases ho : other = place ++ [name]
    · subst ho
      exact .inr ⟨hway, hnone, if_pos rfl⟩
    · exact .inl (if_neg ho)

theorem grown_makeDirectories (fuel : Nat) (hb : files.Leads (files.start path) front base)
    (hc : files.IsClear base rest) (hp : names path <+: front ++ rest) :
    Grown (OnWay base rest) files (makeDirectories fuel files path).1 := by
  induction fuel generalizing files path with
  | zero => exact .refl _ _
  | succ fuel ih =>
    rw [makeDirectories]
    split
    · exact .refl _ _
    · split
      · next later hmade => exact grown_makeDirectory hb hc hp hmade
      · split
        · exact .refl _ _
        · next parent hparent =>
          have hstart : files.start parent = files.start path := by
            rw [FileSystem.start, FileSystem.start, isAbsolute_parent? hparent]
          have hnames : names parent <+: front ++ rest := by
            rw [names_parent? hparent]
            exact (List.dropLast_prefix _).trans hp
          have hgrown := ih (hstart ▸ hb) hc hnames
          split
          · next hmid =>
            rw [hmid] at hgrown
            exact hgrown
          · next mid hmid =>
            rw [hmid] at hgrown
            split
            · next later hmade =>
              refine hgrown.trans (grown_makeDirectory ?_ (hgrown.isClear hc) hp hmade)
              rw [hgrown.start]
              exact hgrown.leads hb
            · exact hgrown
      · exact .refl _ _

end
end FileSystem
end MailTemplate
