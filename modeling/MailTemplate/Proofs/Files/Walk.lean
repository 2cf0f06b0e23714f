import MailTemplate.Proofs.Files.Entries
import Mathlib.Data.List.Infix

/-! Ways through a file system. The way along a path is the way along its first parts and on from
there, and it is the only one. Where there are no links it is told by the names alone. -/

namespace MailTemplate
namespace Path

def IsName (part : Text) : Prop := part ≠ [] ∧ part ≠ ['.'] ∧ part ≠ ['.', '.']

/-- The place that a part of a path leads to, where it is no link. -/
def step (place : Location) (part : Text) : Location :=
  if part = [] ∨ part = ['.'] then place
  else if part = ['.', '.'] then place.dropLast
  else place ++ [part]

/-- The place that the parts of a path lead to, where none of them is a link. -/
def lexical (place : Location) (parts : List Text) : Location := parts.foldl step place

theorem lexical_nil (place : Location) : lexical place [] = place := rfl

theorem lexical_cons (place : Location) (part : Text) (rest : List Text) :
    lexical place (part :: rest) = lexical (step place part) rest := rfl

theorem lexical_append (place : Location) (front rest : List Text) :
    lexical place (front ++ rest) = lexical (lexical place front) rest :=
  List.foldl_append

theorem isName_of {part : Text} (hp : ¬ (part = [] ∨ part = ['.'])) (hu : ¬ part = ['.', '.']) :
    IsName part :=
  ⟨fun h => hp (.inl h), fun h => hp (.inr h), hu⟩

theorem step_of_isName {part : Text} (h : IsName part) (place : Location) :
    step place part = place ++ [part] := by
  simp [step, h.1, h.2.1, h.2.2]

/-- Whether names never lead above the place where they begin; `depth` is how far below it they begin
by now. -/
def staysBelow : (depth : Nat) → List Text → Bool
  | _, [] => true
  | depth, name :: rest =>
    if name = ['.', '.'] then
      match depth with
      | 0 => false
      | depth + 1 => staysBelow depth rest
    else staysBelow (depth + 1) rest

section
variable {base stack : Location} {parts front rest : List Text} {depth : Nat}

theorem staysBelow_of_isPrefix (h : staysBelow depth rest = true) (hf : front <+: rest) :
    staysBelow depth front = true := by
  obtain ⟨behind, rfl⟩ := hf
  induction front generalizing depth with
  | nil => rfl
  | cons name front ih =>
    simp only [List.cons_append, staysBelow] at h ⊢
    split
    · next hup =>
      rw [if_pos hup] at h
      cases depth with
      | zero => cases h
      | succ depth => exact ih h
    · next hup =>
      rw [if_neg hup] at h
      exact ih h

theorem lexical_of_staysBelow (h : staysBelow stack.length rest = true)
    (hn : ∀ part ∈ rest, part ≠ [] ∧ part ≠ ['.']) :
    base <+: lexical (base ++ stack) rest := by
  induction rest generalizing stack with
  | nil => exact List.prefix_append _ _
  | cons part rest ih =>
    have hpart := hn part List.mem_cons_self
    have hrest : ∀ part ∈ rest, part ≠ [] ∧ part ≠ ['.'] :=
      fun part hm => hn part (List.mem_cons_of_mem _ hm)
    rw [lexical_cons]
    by_cases hup : part = ['.', '.']
    · subst hup
      rcases List.eq_nil_or_concat stack with rfl | ⟨inside, last, rfl⟩
      · cases h
      · rw [List.concat_eq_append] at h ⊢
        have hstep : step (base ++ (inside ++ [last])) ['.', '.'] = base ++ inside := by
          rw [← List.append_assoc]
          exact List.dropLast_concat
        rw [hstep]
        refine ih ?_ hrest
        simpa [staysBelow] using h
    · have hstep : step (base ++ stack) part = base ++ (stack ++ [part]) := by
        rw [step_of_isName ⟨hpart.1, hpart.2, hup⟩, List.append_assoc]
      rw [hstep]
      refine ih ?_ hrest
      simpa [staysBelow, hup] using h

end
end Path

namespace FileSystem
open MailTemplate.Path

theorem checkPath_eq_ok_iff {path : Text} (hp : path ≠ []) :
    checkPath path = .ok () ↔ '\x00' ∉ path ∧ Text.byteSize path < maxPath := by
  unfold checkPath checkText
  by_cases hn : '\x00' ∈ path
  · rw [if_pos hn]
    exact iff_of_false (fun h => by cases h) fun h => h.1 hn
  · rw [if_neg hn, if_neg hp]
    by_cases hs : maxPath ≤ Text.byteSize path
    · simp only [if_pos hs]
      exact iff_of_false (fun h => by cases h) fun h => Nat.not_lt.2 hs h.2
    · simp only [if_neg hs]
      exact iff_of_true rfl ⟨hn, Nat.lt_of_not_le hs⟩

/-- Where a part of a path leads to from a place, and the parts to be followed from there on: those of
a link. -/
def next? (files : FileSystem) (place : Location) (part : Text) : Option (Location × List Text) :=
  if !files.isDirectoryAt place then none
  else if part = [] ∨ part = ['.'] then some (place, [])
  else if part = ['.', '.'] then some (place.dropLast, [])
  else match files.entry? (place ++ [part]) with
    | none => none
    | some (.link target) => some (if isAbsolute target then [] else place, Path.parts target)
    | some _ => some (place ++ [part], [])

/-- A place is reached from a place along the parts of a path, with links followed where they are. -/
inductive Leads (files : FileSystem) : Location → List Text → Location → Prop where
  | here {place : Location} : Leads files place [] place
  | on {place next result : Location} {part : Text} {more rest : List Text} :
      files.next? place part = some (next, more) → Leads files next (more ++ rest) result →
        Leads files place (part :: rest) result

section
variable {files : FileSystem} {links : Nat} {place next middle result : Location}
  {parts more front rest : List Text} {name part target : Text} {entry : Entry}

theorem next?_stay (hd : files.isDirectoryAt place = true) (hp : part = [] ∨ part = ['.']) :
    files.next? place part = some (place, []) := by
  simp [next?, hd, hp]

theorem next?_up (hd : files.isDirectoryAt place = true) :
    files.next? place ['.', '.'] = some (place.dropLast, []) := by
  simp [next?, hd]

theorem next?_link (hd : files.isDirectoryAt place = true) (hn : IsName part)
    (he : files.entry? (place ++ [part]) = some (.link target)) :
    files.next? place part = some (if isAbsolute target then [] else place, Path.parts target) := by
  simp [next?, hd, hn.1, hn.2.1, hn.2.2, he]

theorem next?_enter (hd : files.isDirectoryAt place = true) (hn : IsName part)
    (he : files.entry? (place ++ [part]) = some entry) (hl : ∀ target, entry ≠ .link target) :
    files.next? place part = some (place ++ [part], []) := by
  simp [next?, hd, hn.1, hn.2.1, hn.2.2, he]

theorem next?_missing (hn : IsName part) (he : files.entry? (place ++ [part]) = none) :
    files.next? place part = none := by
  simp [next?, hn.1, hn.2.1, hn.2.2, he]

/-- At a name, a way goes on to the entry of that name, or along the link that it is. -/
theorem walk_of_isName {purpose : Purpose} (hd : files.isDirectoryAt place = true)
    (hn : IsName part) : files.walk purpose links place (part :: rest) =
      if purpose = .create ∧ rest ≠ [] ∧ rest.all (· = []) then .error .isDirectory
      else if isTooLong purpose place part then .error .nameTooLong
      else match files.entry? (place ++ [part]) with
        | none =>
          if purpose = .create ∧ rest = [] then .ok (place ++ [part]) else .error .notFound
        | some (.link target) => match links with
          | 0 => .error .tooManyLinks
          | links + 1 =>
            files.walk purpose links (if isAbsolute target then [] else place)
              (Path.parts target ++ rest)
        | some _ => files.walk purpose links (place ++ [part]) rest := by
  have hplace : ¬ (!files.isDirectoryAt place) = true := by simpa using hd
  have hp : ¬ (part = [] ∨ part = ['.']) := not_or.2 ⟨hn.1, hn.2.1⟩
  rw [walk]
  exact (if_neg hplace).trans ((if_neg hp).trans (if_neg hn.2.2))

theorem leads_of_walk {purpose : Purpose} (hp : purpose ≠ .create)
    (h : files.walk purpose links place parts = .ok result) : files.Leads place parts result := by
  fun_induction files.walk purpose links place parts with
  | case1 =>
    cases h
    exact .here
  | case2 => cases h
  | case3 links place part rest hd hpart ih =>
    exact .on (next?_stay (by simpa using hd) hpart) (ih h)
  | case4 links place rest hd _ ih => exact .on (next?_up (by simpa using hd)) (ih h)
  | case5 => cases h
  | case6 => cases h
  | case7 _ _ _ _ _ _ _ _ _ _ hc => exact absurd hc.1 hp
  | case8 => cases h
  | case9 => cases h
  | case10 place part rest hd hpart hu _ _ target he links ih =>
    rw [dite_eq_ite] at ih
    exact .on (next?_link (by simpa using hd) (isName_of hpart hu) he) (ih h)
  | case11 links place part rest hd hpart hu _ _ entry hl he ih =>
    exact .on (next?_enter (by simpa using hd) (isName_of hpart hu) he hl) (ih h)

/-- A file to be written is where its name leads to in the directory that the parts before lead to; it
may be missing there. -/
theorem leads_of_walk_create (hn : IsName name)
    (h : files.walk .create links place (front ++ [name]) = .ok result) :
    ∃ middle, files.Leads place front middle ∧ files.isDirectoryAt middle = true ∧
      ((∃ target, files.entry? (middle ++ [name]) = some (.link target)) ∨
        result = middle ++ [name]) := by
  generalize hparts : front ++ [name] = parts at h
  fun_induction files.walk .create links place parts generalizing front with
  | case1 => simp at hparts
  | case2 => cases h
  | case3 links place part rest hd hp ih =>
    cases front with
    | nil =>
      cases hparts
      exact absurd hp (by simp [hn.1, hn.2.1])
    | cons first front =>
      obtain ⟨rfl, htail⟩ := List.cons.inj hparts
      obtain ⟨middle, hfront, hlast⟩ := ih htail h
      exact ⟨middle, .on (next?_stay (by simpa using hd) hp) hfront, hlast⟩
  | case4 links place rest hd hp ih =>
    cases front with
    | nil =>
      cases hparts
      exact absurd rfl hn.2.2
    | cons first front =>
      obtain ⟨rfl, htail⟩ := List.cons.inj hparts
      obtain ⟨middle, hfront, hlast⟩ := ih htail h
      exact ⟨middle, .on (next?_up (by simpa using hd)) hfront, hlast⟩
  | case5 => cases h
  | case6 => cases h
  | case7 links place part rest hd _ _ _ _ _ hc =>
    rw [hc.2] at hparts
    obtain ⟨rfl, hname⟩ := (List.append_eq_singleton_iff.1 hparts).resolve_right (by simp)
    cases hname
    cases h
    exact ⟨_, .here, by simpa using hd, .inr rfl⟩
  | case8 => cases h
  | case9 => cases h
  | case10 place part rest hd hp hu _ _ target he links ih =>
    rw [dite_eq_ite] at ih
    cases front with
    | nil =>
      cases hparts
      exact ⟨_, .here, by simpa using hd, .inl ⟨target, he⟩⟩
    | cons first front =>
      obtain ⟨rfl, rfl⟩ := List.cons.inj hparts
      obtain ⟨middle, hfront, hlast⟩ := ih (List.append_assoc _ _ _) h
      exact ⟨middle, .on (next?_link (by simpa using hd) (isName_of hp hu) he) hfront, hlast⟩
  | case11 links place part rest hd hp hu _ _ entry hl he ih =>
    cases front with
    | nil =>
      cases hparts
      rw [walk] at h
      cases h
      exact ⟨_, .here, by simpa using hd, .inr rfl⟩
    | cons first front =>
      obtain ⟨rfl, htail⟩ := List.cons.inj hparts
      obtain ⟨middle, hfront, hlast⟩ := ih htail h
      exact ⟨middle, .on (next?_enter (by simpa using hd) (isName_of hp hu) he hl) hfront, hlast⟩

/-- The way along a path goes on from where the first parts of it lead to. -/
theorem Leads.append_iff (h : files.Leads place front middle) :
    files.Leads place (front ++ rest) result ↔ files.Leads middle rest result := by
  induction h with
  | here => rfl
  | on hnext _ ih =>
    rw [← ih, List.append_assoc]
    constructor
    · intro h
      cases h with
      | on hother h =>
        cases hnext.symm.trans hother
        exact h
    · exact .on hnext

theorem Leads.exists_middle (h : files.Leads place (front ++ rest) result) :
    ∃ middle, files.Leads place front middle ∧ files.Leads middle rest result := by
  generalize hparts : front ++ rest = parts at h
  induction h generalizing front with
  | here =>
    obtain ⟨rfl, rfl⟩ := List.append_eq_nil_iff.1 hparts
    exact ⟨_, .here, .here⟩
  | on hnext h ih =>
    cases front with
    | nil =>
      subst hparts
      exact ⟨_, .here, .on hnext h⟩
    | cons part front =>
      obtain ⟨rfl, rfl⟩ := List.cons.inj hparts
      obtain ⟨middle, hfront, hrest⟩ := ih (List.append_assoc _ _ _)
      exact ⟨middle, .on hnext hfront, hrest⟩

theorem Leads.filter (h : files.Leads place parts result) :
    files.Leads place (parts.filter fun part => part != [] && part != ['.']) result := by
  induction parts generalizing place with
  | nil => exact h
  | cons part rest ih =>
    by_cases hp : part = [] ∨ part = ['.']
    · rw [List.filter_cons_of_neg (by simpa [or_iff_not_imp_left] using hp)]
      cases h with
      | on hnext h =>
        rw [next?, if_pos hp] at hnext
        split at hnext
        · cases hnext
        · cases hnext
          exact ih h
    · rw [List.filter_cons_of_pos (by simpa [not_or] using hp)]
      have hsplit : files.Leads place ([part] ++ rest) result := h
      obtain ⟨middle, hpart, hrest⟩ := hsplit.exists_middle
      exact hpart.append_iff.2 (ih hrest)

/-- No link stands where a path leads by its names. -/
def IsClear (files : FileSystem) (place : Location) (parts : List Text) : Prop :=
  ∀ front, front <+: parts → ∀ target, files.entry? (lexical place front) ≠ some (.link target)

theorem isClear_of_forall (h : ∀ entry ∈ files.entries, ∀ target, entry.2 ≠ .link target)
    (place : Location) (parts : List Text) : files.IsClear place parts := by
  intro front _ target he
  rcases mem_entries he with ⟨-, hd⟩ | hm
  · cases hd
  · exact h _ hm target rfl

theorem IsClear.of_isPrefix (h : files.IsClear place rest) (hp : parts <+: rest) :
    files.IsClear place parts :=
  fun front hf => h front (hf.trans hp)

theorem IsClear.tail {part : Text} (h : files.IsClear place (part :: rest)) :
    files.IsClear (step place part) rest :=
  fun front hf => h (part :: front) (List.cons_prefix_cons.2 ⟨rfl, hf⟩)

theorem next?_eq_some (h : files.next? place part = some (next, more))
    (hl : ∀ target, files.entry? (step place part) ≠ some (.link target)) :
    next = step place part ∧ more = [] := by
  unfold next? at h
  unfold step at hl ⊢
  split at h
  · cases h
  · split at h
    · next hp =>
      cases h
      exact ⟨(if_pos hp).symm, rfl⟩
    · next hp =>
      rw [if_neg hp] at hl ⊢
      split at h
      · next hu =>
        cases h
        exact ⟨(if_pos hu).symm, rfl⟩
      · next hu =>
        rw [if_neg hu] at hl ⊢
        split at h
        · cases h
        · next target he => exact absurd he (hl target)
        · cases h
          exact ⟨rfl, rfl⟩

theorem Leads.eq_lexical (h : files.Leads place parts result) (hc : files.IsClear place parts) :
    result = lexical place parts := by
  induction h with
  | here => rfl
  | on hnext _ ih =>
    obtain ⟨rfl, rfl⟩ := next?_eq_some hnext (hc [_] (List.cons_prefix_cons.2 ⟨rfl, List.nil_prefix⟩))
    exact ih hc.tail

end
end FileSystem
end MailTemplate
