import MailTemplate.Files.Path
import Mathlib.Data.List.Infix
import Mathlib.Data.List.TakeWhile

/-! The names of a path. Joining paths puts their names one after the other, and the path without its
last part is without its last name, however many slashes and dots stand between them. -/

namespace MailTemplate
namespace Path

section
variable {path parent next text back : Text}

theorem isAbsolute_cons (c : Char) (path : Text) : isAbsolute (c :: path) = (c == '/') := by
  unfold isAbsolute
  split
  · next he => simp [(List.cons.inj he).1]
  · next he =>
    have hc : c ≠ '/' := fun hc => he path (by rw [hc])
    simp [hc]

theorem names_append_cons (first second : Text) :
    names (first ++ '/' :: second) = names first ++ names second := by
  simp [names, parts, List.splitOnP_append_cons]

theorem names_of_notMem (h : '/' ∉ text) (hn : text ≠ []) (hd : text ≠ ['.']) :
    names text = [text] := by
  have hparts : parts text = [text] := List.splitOnP_eq_singleton fun c hc => by
    simpa using fun he : c = '/' => h (he ▸ hc)
  simp [names, hparts, hn, hd]

@[simp] theorem names_nil : names [] = [] := by simp [names, parts]

@[simp] theorem names_slash (path : Text) : names ('/' :: path) = names path :=
  names_append_cons [] path

@[simp] theorem names_dot : names ['.'] = [] := by
  have hparts : parts ['.'] = [['.']] := rfl
  simp [names, hparts]

theorem names_join (h : isAbsolute next = false) :
    names (join path next) = names path ++ names next := by
  rw [join, h, if_neg Bool.false_ne_true]
  split
  · next hp =>
    rcases hp with rfl | hp
    · simp
    · obtain ⟨front, rfl⟩ := List.getLast?_eq_some_iff.1 hp
      rw [List.append_assoc, List.singleton_append, names_append_cons, names_append_cons, names_nil,
        List.append_nil]
  · rw [List.append_assoc, List.singleton_append, names_append_cons]

theorem trimBack_suffix (back : Text) : trimBack back <:+ back := by
  fun_induction trimBack back with
  | case1 back ih => exact ih.trans (List.suffix_cons _ _)
  | case2 back ih => exact ih.trans ((List.suffix_cons _ _).trans (List.suffix_cons _ _))
  | case3 => exact List.nil_suffix
  | case4 => exact List.suffix_rfl

theorem names_trimBack (back : Text) : names (trimBack back).reverse = names back.reverse := by
  fun_induction trimBack back with
  | case1 back ih => simp [ih, names_append_cons]
  | case2 back ih => simp [ih, names_append_cons]
  | case3 => simp
  | case4 => rfl

theorem takeWhile_trimBack {c : Char} {rest : Text} (h : trimBack back = c :: rest) :
    (c :: rest).takeWhile (· != '/') ≠ [] ∧ (c :: rest).takeWhile (· != '/') ≠ ['.'] := by
  fun_induction trimBack back with
  | case1 back ih => exact ih h
  | case2 back ih => exact ih h
  | case3 => cases h
  | case4 back hslash hdot hlast =>
    subst h
    have hc : c ≠ '/' := fun he => hslash rest (by rw [he])
    rw [List.takeWhile_cons_of_pos (by simpa using hc)]
    refine ⟨List.cons_ne_nil _ _, fun he => ?_⟩
    obtain ⟨rfl, ht⟩ := List.cons.inj he
    cases rest with
    | nil => exact hlast rfl
    | cons d rest =>
      by_cases hd : d = '/'
      · exact hdot rest (by rw [hd])
      · rw [List.takeWhile_cons_of_pos (by simpa using hd)] at ht
        cases ht

theorem names_eq_concat {back : Text} (hn : back.takeWhile (· != '/') ≠ [])
    (hd : back.takeWhile (· != '/') ≠ ['.']) :
    names back.reverse = names (back.dropWhile (· != '/')).reverse ++
      [(back.takeWhile (· != '/')).reverse] := by
  have hname : names (back.takeWhile (· != '/')).reverse = [(back.takeWhile (· != '/')).reverse] := by
    refine names_of_notMem ?_ (by simpa using hn) ?_
    · intro hm
      simpa using List.mem_takeWhile_imp (List.mem_reverse.1 hm)
    · intro he
      exact hd (List.reverse_injective (by simpa using he))
  conv => lhs; rw [← List.takeWhile_append_dropWhile (p := (· != '/')) (l := back)]
  rw [List.reverse_append]
  cases hdrop : back.dropWhile (· != '/') with
  | nil => simpa using hname
  | cons c rest =>
    have hc := List.head?_dropWhile_not (· != '/') back
    rw [hdrop] at hc
    obtain rfl : c = '/' := by simpa using hc
    simp [names_append_cons, hname]

theorem names_front (path : Text) : names path = names (front path).2 := by
  unfold front
  split
  · simp
  · simp
  · next rest => exact (names_append_cons ['.'] rest).trans (by simp)
  · rfl

/-- What a path begins with before its first name is no name, however much of the path follows. -/
theorem names_front_append (h : text <+: (front path).2) :
    names ((front path).1 ++ text) = names text := by
  unfold front at h ⊢
  split
  · simp
  · obtain rfl : text = [] := List.prefix_nil.1 h
    simp
  · rcases text with _ | ⟨c, text⟩
    · simp
    · obtain ⟨rfl, -⟩ := List.cons_prefix_cons.1 h
      exact (names_append_cons ['.'] text).trans (by simp)
  · rfl

/-- The path without its last part is the path up to its last name, or nothing where there is none. -/
theorem parent?_eq_some (h : parent? path = some parent) :
    names path = [] ∧ parent = [] ∧ isAbsolute path = false ∨ ∃ c rest,
      trimBack (front path).2.reverse = c :: rest ∧
        parent = (front path).1 ++ (trimBack ((c :: rest).dropWhile (· != '/'))).reverse := by
  simp only [parent?] at h
  split at h
  · next hback =>
    split at h
    · next hfront =>
      refine .inl ⟨?_, (Option.some.inj h).symm, ?_⟩
      · rw [names_front, ← List.reverse_reverse (front path).2, ← names_trimBack, hback,
          List.reverse_nil, names_nil]
      · unfold front at hfront
        split at hfront
        · cases hfront
        · rfl
        · rfl
        · cases hfront
    · cases h
  · next hback =>
    obtain ⟨c, rest, hc⟩ := List.exists_cons_of_ne_nil hback
    rw [hc] at h
    exact .inr ⟨c, rest, hc, (Option.some.inj h).symm⟩

theorem suffix_of_trimBack {c : Char} {rest : Text} (h : trimBack back = c :: rest) :
    trimBack ((c :: rest).dropWhile (· != '/')) <:+ back := by
  refine (trimBack_suffix _).trans ((List.dropWhile_suffix _).trans ?_)
  rw [← h]
  exact trimBack_suffix back

theorem names_parent? (h : parent? path = some parent) : names parent = (names path).dropLast := by
  rcases parent?_eq_some h with ⟨hnames, rfl, -⟩ | ⟨c, rest, hback, rfl⟩
  · simp [hnames]
  · obtain ⟨hne, hdot⟩ := takeWhile_trimBack hback
    have hsuffix := suffix_of_trimBack hback
    have hpath : names path = names (c :: rest).reverse := by
      rw [names_front, ← List.reverse_reverse (front path).2, ← names_trimBack, hback]
    rw [names_front_append (by simpa using List.reverse_prefix.2 hsuffix), names_trimBack, hpath,
      names_eq_concat hne hdot, List.dropLast_concat]

theorem isAbsolute_parent? (h : parent? path = some parent) : isAbsolute parent = isAbsolute path := by
  rcases parent?_eq_some h with ⟨-, rfl, hpath⟩ | ⟨c, rest, hback, rfl⟩
  · exact hpath.symm
  · have hsuffix := List.reverse_prefix.2 (suffix_of_trimBack hback)
    rw [List.reverse_reverse] at hsuffix
    generalize (trimBack ((c :: rest).dropWhile (· != '/'))).reverse = text at hsuffix
    generalize hf : front path = found at hsuffix
    unfold front at hf
    split at hf
    · subst hf
      rfl
    · subst hf
      rfl
    · subst hf
      rfl
    · next hslash _ _ =>
      subst hf
      cases text with
      | nil => cases path with
        | nil => rfl
        | cons d path =>
          have hd : d ≠ '/' := fun he => hslash path (by rw [he])
          rw [isAbsolute_cons, beq_eq_false_iff_ne.2 hd]
          rfl
      | cons d text =>
        obtain ⟨behind, rfl⟩ := hsuffix
        simp [isAbsolute_cons]

theorem front_append (path : Text) : (front path).1 ++ (front path).2 = path := by
  unfold front
  split <;> rfl

/-- A path begins with a slash or a name, or with a slash behind a dot. -/
theorem front_fst (path : Text) : (front path).1 = ['/'] ∨ (front path).1 = [] ∨
    (front path).1 = ['.'] ∧ ∀ text, text ≠ [] → text <+: (front path).2 → '/' ∈ text := by
  unfold front
  split
  · exact .inl rfl
  · exact .inr (.inr ⟨rfl, fun text hne hp => absurd (List.prefix_nil.1 hp) hne⟩)
  · refine .inr (.inr ⟨rfl, fun text hne hp => ?_⟩)
    obtain ⟨c, text, rfl⟩ := List.exists_cons_of_ne_nil hne
    rw [(List.cons_prefix_cons.1 hp).1]
    exact List.mem_cons_self
  · exact .inr (.inl rfl)

theorem prefix_of_parent? (h : parent? path = some parent) : parent <+: path := by
  rcases parent?_eq_some h with ⟨-, rfl, -⟩ | ⟨c, rest, hback, rfl⟩
  · exact List.nil_prefix
  · have hsuffix := List.reverse_prefix.2 (suffix_of_trimBack hback)
    rw [List.reverse_reverse] at hsuffix
    conv => rhs; rw [← front_append path]
    exact (List.prefix_append_right_inj _).2 hsuffix

theorem exists_parent? (h : names path ≠ []) : ∃ parent, parent? path = some parent := by
  rw [parent?]
  dsimp only
  split
  · next hback =>
    refine absurd ?_ h
    rw [names_front, ← List.reverse_reverse (front path).2, ← names_trimBack, hback, List.reverse_nil,
      names_nil]
  · exact ⟨_, rfl⟩

theorem length_parent?_lt (hn : names path ≠ []) (h : parent? path = some parent) :
    parent.length < path.length := by
  have hfront := prefix_of_parent? h
  refine lt_of_le_of_ne hfront.length_le fun he => ?_
  have hlast := congrArg List.length (names_parent? h)
  rw [hfront.eq_of_length he, List.length_dropLast] at hlast
  have := List.length_pos_of_ne_nil hn
  omega

theorem exists_parts_eq_concat (path : Text) :
    ∃ before, parts path = before ++ [(path.reverse.takeWhile (· != '/')).reverse] := by
  have hname : parts (path.reverse.takeWhile (· != '/')).reverse =
      [(path.reverse.takeWhile (· != '/')).reverse] := List.splitOnP_eq_singleton fun c hc => by
    simpa using List.mem_takeWhile_imp (List.mem_reverse.1 hc)
  have hpath : path = (path.reverse.dropWhile (· != '/')).reverse ++
      (path.reverse.takeWhile (· != '/')).reverse := by
    rw [← List.reverse_append, List.takeWhile_append_dropWhile, List.reverse_reverse]
  cases hdrop : path.reverse.dropWhile (· != '/') with
  | nil =>
    rw [hdrop, List.reverse_nil, List.nil_append] at hpath
    exact ⟨[], by rw [List.nil_append, ← hname, ← hpath]⟩
  | cons c rest =>
    have hc := List.head?_dropWhile_not (· != '/') path.reverse
    rw [hdrop] at hc
    obtain rfl : c = '/' := by simpa using hc
    rw [hdrop, List.reverse_cons, List.append_assoc, List.singleton_append] at hpath
    refine ⟨parts rest.reverse, ?_⟩
    conv => lhs; rw [hpath]
    rw [parts, List.splitOnP_append_cons _ _ (by simp)]
    exact congrArg _ hname

/-- The last part of a path is a name, or it has no names at all. -/
def EndsInName (path : Text) : Prop :=
  names path = [] ∨ ∃ before last, parts path = before ++ [last] ∧ last ≠ [] ∧ last ≠ ['.']

theorem takeWhile_append_of_slash {more : Text}
    (h : '/' ∈ back ∨ more = [] ∨ more.head? = some '/') :
    (back ++ more).takeWhile (· != '/') = back.takeWhile (· != '/') := by
  induction back with
  | nil =>
    rcases h with h | rfl | h
    · cases h
    · rfl
    · obtain ⟨rest, rfl⟩ := List.head?_eq_some_iff.1 h
      rfl
  | cons c back ih =>
    by_cases hc : c = '/'
    · simp [hc]
    · rw [List.cons_append, List.takeWhile_cons_of_pos (by simpa using hc),
        List.takeWhile_cons_of_pos (by simpa using hc),
        ih (h.imp_left fun hm => (List.mem_cons.1 hm).resolve_left (Ne.symm hc))]

theorem endsInName_parent? (h : parent? path = some parent) : EndsInName parent := by
  rcases parent?_eq_some h with ⟨-, rfl, -⟩ | ⟨c, rest, hback, rfl⟩
  · exact .inl names_nil
  · have hsuffix := List.reverse_prefix.2 (suffix_of_trimBack hback)
    rw [List.reverse_reverse] at hsuffix
    cases hlast : trimBack ((c :: rest).dropWhile (· != '/')) with
    | nil =>
      refine .inl ?_
      rw [names_front_append (by simp), List.reverse_nil, names_nil]
    | cons d back =>
      obtain ⟨hne, hdot⟩ := takeWhile_trimBack hlast
      rw [hlast] at hsuffix
      obtain ⟨before, hparts⟩ := exists_parts_eq_concat ((front path).1 ++ (d :: back).reverse)
      refine .inr ⟨before, _, hparts, ?_⟩
      have hfront : ((d :: back) ++ (front path).1.reverse).takeWhile (· != '/') =
          (d :: back).takeWhile (· != '/') := by
        refine takeWhile_append_of_slash ?_
        rcases front_fst path with hf | hf | ⟨-, hslash⟩
        · exact .inr (.inr (by rw [hf]; rfl))
        · exact .inr (.inl (by rw [hf]; rfl))
        · exact .inl (List.mem_reverse.1 (hslash _ (by simp) hsuffix))
      rw [List.reverse_append, List.reverse_reverse, hfront]
      exact ⟨by simpa using hne, fun he => hdot (List.reverse_injective (by simpa using he))⟩

theorem mem_names (h : text ∈ names path) : text ≠ [] ∧ text ≠ ['.'] := by
  have hp := (List.mem_filter.1 h).2
  simpa using hp

theorem exists_parts_extension (text : Text) :
    ∃ before name, parts (text ++ extension) = before ++ [name] ∧
      name ≠ [] ∧ name ≠ ['.'] ∧ name ≠ ['.', '.'] := by
  have hname : ∀ last : Text, last ++ extension ≠ [] ∧ last ++ extension ≠ ['.'] ∧
      last ++ extension ≠ ['.', '.'] := by
    intro last
    have hlength : 2 < (last ++ extension).length := by simp [extension]
    refine ⟨?_, ?_, ?_⟩ <;> intro he <;> simp [he] at hlength
  have hslash : ∀ last : Text, '/' ∉ last → parts (last ++ extension) = [last ++ extension] := by
    intro last hl
    refine List.splitOnP_eq_singleton fun c hc => ?_
    have hc : c ≠ '/' := by
      rintro rfl
      exact (List.mem_append.1 hc).elim hl (by decide)
    simpa using hc
  by_cases hs : '/' ∈ text
  · obtain ⟨last, before, he, hl⟩ := List.eq_append_cons_of_mem (List.mem_reverse.2 hs)
    have htext : text ++ extension = before.reverse ++ '/' :: (last.reverse ++ extension) := by
      rw [← List.reverse_reverse text, he]
      simp
    refine ⟨parts before.reverse, last.reverse ++ extension, ?_, hname _⟩
    rw [htext, parts, List.splitOnP_append_cons _ _ (by simp)]
    exact congrArg _ (hslash last.reverse (by simpa using hl))
  · exact ⟨[], text ++ extension, hslash text hs, hname text⟩

theorem isAbsolute_templateName (reference : Text) :
    isAbsolute (templateName reference ++ extension) = false := by
  have hhead : ∀ name tail : Text, isAbsolute tail = false →
      isAbsolute (name.dropWhile (· = '/') ++ tail) = false := by
    intro name tail ht
    have hd := List.head?_dropWhile_not (fun c => decide (c = '/')) name
    cases hn : name.dropWhile (· = '/') with
    | nil => exact ht
    | cons c rest =>
      rw [hn] at hd
      rw [List.cons_append, isAbsolute_cons]
      simpa using hd
  unfold templateName
  dsimp only
  generalize (Text.trim reference).map (fun c => if c = '\\' then '/' else c) = slashed
  cases hb : Text.beforeEnd? extension (slashed.dropWhile (· = '/')) with
  | none => exact hhead slashed extension rfl
  | some name =>
    have hname := hhead slashed [] rfl
    rwa [List.append_nil, Text.beforeEnd?_eq_some_iff.1 hb] at hname

end
end Path
end MailTemplate
