import MailTemplate.Proofs.Compile.Discovery
import MailTemplate.Proofs.Text.Bytes

/-! The order of discovery. The entries of a directory come in the order of their names, so templates
come in the order of their paths, name by name. Written as texts, paths are in this order if the slash
counts as the first of all characters. The names of templates have the slash where bytes have it, and no
extension, so two of them can be the other way round. -/

namespace MailTemplate
open MailTemplate.Path

namespace Text

section
variable {first second : Text} {c d : Char}

/-- The smaller of two texts is the beginning of the other one, or has the smaller character where they
first differ. -/
theorem lt_iff_exists : first < second ↔ (∃ rest, rest ≠ [] ∧ second = first ++ rest) ∨
    ∃ front c back d after, first = front ++ c :: back ∧ second = front ++ d :: after ∧ c < d := by
  induction first generalizing second with
  | nil =>
    cases second with
    | nil => simp
    | cons d second => exact iff_of_true (List.nil_lt_cons _ _) (.inl ⟨_, List.cons_ne_nil _ _, rfl⟩)
  | cons c first ih =>
    cases second with
    | nil => simp [List.not_lt_nil]
    | cons d second =>
      rw [List.cons_lt_cons_iff, ih]
      constructor
      · rintro (hlt | ⟨rfl, ⟨rest, hne, rfl⟩ | ⟨front, x, back, y, after, rfl, rfl, hlt⟩⟩)
        · exact .inr ⟨[], c, first, d, second, rfl, rfl, hlt⟩
        · exact .inl ⟨rest, hne, rfl⟩
        · exact .inr ⟨c :: front, x, back, y, after, rfl, rfl, hlt⟩
      · rintro (⟨rest, hne, he⟩ | ⟨front, x, back, y, after, hf, hs, hlt⟩)
        · obtain ⟨rfl, rfl⟩ := List.cons.inj he
          exact .inr ⟨rfl, .inl ⟨rest, hne, rfl⟩⟩
        · cases front with
          | nil =>
            obtain ⟨rfl, -⟩ := List.cons.inj hf
            obtain ⟨rfl, -⟩ := List.cons.inj hs
            exact .inl hlt
          | cons z front =>
            obtain ⟨rfl, rfl⟩ := List.cons.inj hf
            obtain ⟨rfl, rfl⟩ := List.cons.inj hs
            exact .inr ⟨rfl, .inr ⟨front, x, back, y, after, rfl, rfl, hlt⟩⟩

end
end Text

namespace Path

/-- The number of a character in an order of all characters in which the slash comes first. -/
def rank (c : Char) : Nat := if c = '/' then 0 else c.toNat + 1

def ranks (text : Text) : List Nat := text.map rank

section
variable {first second : Text} {before after : List Nat} {c d : Char}

theorem rank_eq_iff : rank c = rank d ↔ c = d := by
  unfold rank
  split_ifs with hc hd hd
  · simp [hc, hd]
  · simp [hc, Ne.symm hd]
  · simp [hc, hd]
  · rw [Nat.succ_inj, Char.toNat_inj]

theorem rank_lt_iff (hc : c ≠ '/') (hd : d ≠ '/') : rank c < rank d ↔ c < d := by
  rw [rank, rank, if_neg hc, if_neg hd, Nat.succ_lt_succ_iff]
  exact Iff.rfl

theorem ranks_append (first second : Text) : ranks (first ++ second) = ranks first ++ ranks second :=
  List.map_append

theorem ranks_append_left_lt_iff (front first second : Text) :
    ranks (front ++ first) < ranks (front ++ second) ↔ ranks first < ranks second := by
  rw [ranks_append, ranks_append]
  induction ranks front with
  | nil => rfl
  | cons n front ih => simpa [List.cons_lt_cons_iff] using ih

/-- A slash, or the end of the text, comes before all that a name can go on with. -/
theorem lt_ranks_cons (hn : ∀ n ∈ before.head?, n = 0) (hc : '/' ∉ c :: first) :
    before < ranks (c :: first) ++ after := by
  have hpos : 0 < rank c := by
    rw [rank, if_neg fun he : c = '/' => hc (he ▸ List.mem_cons_self)]
    exact Nat.succ_pos _
  cases before with
  | nil => exact List.nil_lt_cons _ _
  | cons n before =>
    obtain rfl := hn n rfl
    exact List.cons_lt_cons_iff.2 (.inl hpos)

/-- Where two texts differ in one character each, the order of the numbers is the other one only if the
greater character is the slash. -/
theorem ranks_cons_lt_iff (hc : c < d) : ranks (d :: first) < ranks (c :: second) ↔ d = '/' := by
  have hne : c ≠ d := ne_of_lt hc
  have hlt : ranks (d :: first) < ranks (c :: second) ↔ rank d < rank c := by
    refine List.cons_lt_cons_iff.trans (or_iff_left ?_)
    exact fun h => hne (rank_eq_iff.1 h.1).symm
  rw [hlt]
  constructor
  · intro hr
    by_contra hd
    by_cases hs : c = '/'
    · simp [hs, rank] at hr
    · exact absurd ((rank_lt_iff hd hs).1 hr) (not_lt_of_gt hc)
  · rintro rfl
    rw [rank, rank, if_pos rfl, if_neg hne]
    exact Nat.succ_pos _

/-- Names that end at a slash, or at the end of the text, are compared as wholes. -/
theorem ranks_append_lt_iff (hf : '/' ∉ first) (hs : '/' ∉ second) (hb : ∀ n ∈ before.head?, n = 0)
    (ha : ∀ n ∈ after.head?, n = 0) : ranks first ++ before < ranks second ++ after ↔
      first < second ∨ first = second ∧ before < after := by
  induction first generalizing second with
  | nil =>
    cases second with
    | nil => simp [ranks]
    | cons d second => exact iff_of_true (lt_ranks_cons hb hs) (.inl (List.nil_lt_cons _ _))
  | cons c first ih =>
    cases second with
    | nil => exact iff_of_false (List.lt_asymm (lt_ranks_cons ha hf)) (by simp)
    | cons d second =>
      rw [List.mem_cons, not_or] at hf hs
      have hcons : ranks (c :: first) ++ before < ranks (d :: second) ++ after ↔
          rank c < rank d ∨ rank c = rank d ∧ ranks first ++ before < ranks second ++ after :=
        List.cons_lt_cons_iff
      have hrest : ranks first ++ before < ranks second ++ after ↔
          first < second ∨ first = second ∧ before < after := ih hf.2 hs.2
      rw [hcons, hrest, rank_lt_iff (Ne.symm hf.1) (Ne.symm hs.1), rank_eq_iff, List.cons_lt_cons_iff,
        List.cons.injEq]
      tauto

/-- What stands behind a name in a path, by the numbers of its characters: nothing, or a slash and the
names that follow. -/
def ranksBehind (more : List Text) : List Nat :=
  if more = [] then [] else 0 :: ranks (Text.joinWith ['/'] more)

theorem ranks_joinWith_cons (name : Text) (more : List Text) :
    ranks (Text.joinWith ['/'] (name :: more)) = ranks name ++ ranksBehind more := by
  by_cases hm : more = []
  · simp [hm, ranksBehind, Text.joinWith]
  · rw [Text.joinWith_cons name hm, ranks_append, ranksBehind, if_neg hm]
    rfl

theorem eq_zero_of_mem_head?_ranksBehind (more : List Text) : ∀ n ∈ (ranksBehind more).head?, n = 0 := by
  intro n hn
  by_cases hm : more = []
  · simp [ranksBehind, hm] at hn
  · simpa [ranksBehind, hm, eq_comm] using hn

theorem ranksBehind_lt_iff {first second : List Text} : ranksBehind first < ranksBehind second ↔
    second ≠ [] ∧ (first ≠ [] →
      ranks (Text.joinWith ['/'] first) < ranks (Text.joinWith ['/'] second)) := by
  by_cases hf : first = [] <;> by_cases hs : second = [] <;>
    simp [ranksBehind, hf, hs]

/-- Paths are in the order of the texts that they are written as, if the slash comes first in it. -/
theorem ranks_joinWith_lt_iff {first second : List Text} (hf : ∀ name ∈ first, IsEntryName name)
    (hs : ∀ name ∈ second, IsEntryName name) :
    ranks (Text.joinWith ['/'] first) < ranks (Text.joinWith ['/'] second) ↔ first < second := by
  induction first generalizing second with
  | nil =>
    cases second with
    | nil => simp
    | cons name second =>
      obtain ⟨c, rest, rfl⟩ := List.exists_cons_of_ne_nil (hs name List.mem_cons_self).1.1
      rw [ranks_joinWith_cons]
      exact iff_of_true (List.nil_lt_cons _ _) (List.nil_lt_cons _ _)
  | cons name first ih =>
    cases second with
    | nil => exact iff_of_false (List.not_lt_nil _) (List.not_lt_nil _)
    | cons other second =>
      have hrest := ih (fun name hm => hf name (List.mem_cons_of_mem _ hm))
        fun name hm => hs name (List.mem_cons_of_mem _ hm)
      have hbehind : ranksBehind first < ranksBehind second ↔ first < second := by
        rw [ranksBehind_lt_iff, hrest]
        cases first <;> cases second <;> simp
      rw [ranks_joinWith_cons, ranks_joinWith_cons, ranks_append_lt_iff (hf name List.mem_cons_self).2
        (hs other List.mem_cons_self).2 (eq_zero_of_mem_head?_ranksBehind first)
        (eq_zero_of_mem_head?_ranksBehind second), hbehind, List.cons_lt_cons_iff]

end
end Path

namespace Discover

/-- A smaller and a greater name whose files are found the other way round. The greater name is the
smaller one and more, which begins with less than the extension; or it ends a directory where the smaller
one has a character that comes before the slash. -/
def Misplaced (first second : Text) : Prop :=
  (∃ rest, second = first ++ rest ∧ (rest ++ extension).takeWhile (· ≠ '/') < extension) ∨
    ∃ front c back after, first = front ++ c :: back ∧ second = front ++ '/' :: after ∧ c < '/'

/-- What stands in front of the first slash is compared with a name as a whole. -/
theorem ranks_lt_ranks_iff {text name : Text} (hn : '/' ∉ name) :
    ranks text < ranks name ↔ text.takeWhile (· ≠ '/') < name := by
  have hfront : '/' ∉ text.takeWhile (· ≠ '/') := fun hm => by
    simpa using List.mem_takeWhile_imp hm
  have hback : ∀ n ∈ (ranks (text.dropWhile (· ≠ '/'))).head?, n = 0 := by
    intro n hm
    have hslash := List.head?_dropWhile_not (· ≠ '/') text
    cases hd : text.dropWhile (· ≠ '/') with
    | nil =>
      rw [hd] at hm
      cases hm
    | cons c rest =>
      rw [hd] at hslash hm
      obtain rfl : c = '/' := by simpa using hslash
      simpa [ranks, rank, eq_comm] using hm
  have hnone : ∀ n ∈ ([] : List Nat).head?, n = 0 := by simp
  have hlt := ranks_append_lt_iff hfront hn hback hnone
  rw [← ranks_append, List.takeWhile_append_dropWhile, List.append_nil] at hlt
  rw [hlt]
  simp

theorem misplaced_iff {first second : Text} : Misplaced first second ↔
    first < second ∧ ranks (second ++ extension) < ranks (first ++ extension) := by
  have hslash : '/' ∉ extension := by decide
  rw [Text.lt_iff_exists]
  constructor
  · rintro (⟨rest, rfl, hlt⟩ | ⟨front, c, back, after, rfl, rfl, hc⟩)
    · refine ⟨.inl ⟨rest, ?_, rfl⟩, ?_⟩
      · rintro rfl
        exact absurd hlt (by decide)
      · rwa [List.append_assoc, ranks_append_left_lt_iff, ranks_lt_ranks_iff hslash]
    · refine ⟨.inr ⟨front, c, back, '/', after, rfl, rfl, hc⟩, ?_⟩
      rw [List.append_assoc, List.append_assoc, ranks_append_left_lt_iff]
      exact (ranks_cons_lt_iff hc).2 rfl
  · rintro ⟨⟨rest, -, rfl⟩ | ⟨front, c, back, d, after, rfl, rfl, hc⟩, hlt⟩
    · rw [List.append_assoc, ranks_append_left_lt_iff, ranks_lt_ranks_iff hslash] at hlt
      exact .inl ⟨rest, rfl, hlt⟩
    · rw [List.append_assoc, List.append_assoc, ranks_append_left_lt_iff] at hlt
      obtain rfl := (ranks_cons_lt_iff hc).1 hlt
      exact .inr ⟨front, c, back, after, rfl, rfl, hc⟩

section
variable {files : FileSystem} {config : Config} {root here : Location} {fuel : Nat}
  {visiting : List Location} {names : List Text}

theorem pairwise_list (tree : files.IsTree) (place : Location) :
    ((files.list place).map Prod.fst).Pairwise (· < ·) := by
  have hsorted : ((files.list place).map Prod.fst).Pairwise fun first second =>
      FileSystem.nameLe first second = true := by
    rw [List.pairwise_map]
    refine List.pairwise_mergeSort (fun a b c hab hbc => ?_) (fun a b => ?_) _
    · simp only [FileSystem.nameLe, Bool.not_eq_true', decide_eq_false_iff_not, not_lt] at hab hbc ⊢
      exact hab.trans hbc
    · simp only [FileSystem.nameLe, Bool.or_eq_true, Bool.not_eq_true', decide_eq_false_iff_not, not_lt]
      exact le_total _ _
  refine (hsorted.and (tree.nodup_list place)).imp ?_
  rintro first second ⟨hle, hne⟩
  simp only [FileSystem.nameLe, Bool.not_eq_true', decide_eq_false_iff_not, not_lt] at hle
  exact lt_of_le_of_ne hle hne

/-- Depth first, with the names in order in each directory, files come in the order of their paths. -/
theorem pairwise_lt_textsBelow (tree : files.IsTree) :
    (textsBelow files root fuel visiting here names).Pairwise (· < ·) := by
  refine pairwise_textsBelow_of (pairwise_list tree) fun {names first second p q} hlt hp hq => ?_
  obtain ⟨more, rfl⟩ := hp
  obtain ⟨rest, rfl⟩ := hq
  rw [List.append_assoc, List.append_assoc]
  exact List.append_left_lt (List.cons_lt_cons_iff.2 (.inl hlt))

variable {found : List Text} {log : List LogLine}

theorem pairwise_names_of_all (tree : files.IsTree)
    (hroot : Source.place files config.sourceRoot = .ok root)
    (hall : Discover.all files config = .ok (found, log)) : found.Pairwise fun first second =>
      Path.names (first ++ extension) < Path.names (second ++ extension) := by
  obtain ⟨_, hplace, h⟩ := bind_eq_ok_iff.1 hall
  cases hroot.symm.trans hplace
  cases h
  rw [List.flatMap_map, List.pairwise_flatMap]
  have hown : ∀ path ∈ textsBelow files root ((files.entries.length + 1) * (files.entries.length + 1))
      [root] root [], ∀ name ∈ (examine files root path).1, Candidate name path := fun path hm name hn =>
    ⟨(mem_examine_iff.1 hn).1,
      (proper_of_mem_textsBelow tree (fun part hp => absurd hp List.not_mem_nil) hm).2⟩
  constructor
  · refine fun path hm => (nodup_examine files root path).imp_of_mem ?_
    intro first second hfirst hsecond hne
    have hfirst := (hown path hm first hfirst).named
    exact absurd (Option.some.inj (hfirst.symm.trans (hown path hm second hsecond).named)) hne
  · refine (pairwise_lt_textsBelow tree).imp_of_mem ?_
    intro p q hp hq hlt first hfirst second hsecond
    rwa [(hown p hp first hfirst).names_eq, (hown q hq second hsecond).names_eq]

theorem misplaced_iff_names {first second : Text}
    (hf : Candidate first (Path.names (first ++ extension)))
    (hs : Candidate second (Path.names (second ++ extension))) : Misplaced first second ↔
      first < second ∧ Path.names (second ++ extension) < Path.names (first ++ extension) := by
  rw [misplaced_iff, ← ranks_joinWith_lt_iff hs.proper hf.proper, joinWith_of_candidate? hs.named,
    joinWith_of_candidate? hf.named]

/-- Discovery gives every name once, in the order of the paths. The names themselves strictly increase, as
bytes, exactly if no two of them are misplaced. -/
theorem increasing_discovered_iff (tree : files.IsTree)
    (hroot : Source.place files config.sourceRoot = .ok root) :
    ∃ found log, Discover.all files config = .ok (found, log) ∧ found.Nodup ∧
      found.Pairwise (fun first second =>
        Path.names (first ++ extension) < Path.names (second ++ extension)) ∧
      (found.Pairwise (fun first second => Text.bytes first < Text.bytes second) ↔
        ∀ first ∈ found, ∀ second ∈ found, ¬ Misplaced first second) := by
  have hall := all_of_textsBelow hroot rfl rfl
  have hpaths := pairwise_names_of_all tree hroot hall
  obtain ⟨hnodup, hown, -⟩ := exists_candidates tree hroot hall
  refine ⟨_, _, hall, hnodup, hpaths, ?_⟩
  simp only [Text.bytes_lt_bytes_iff]
  constructor
  · intro hsorted first hf second hs h
    obtain ⟨hlt, hpath⟩ := (misplaced_iff_names (hown first hf) (hown second hs)).1 h
    obtain ⟨i, hi, rfl⟩ := List.getElem_of_mem hf
    obtain ⟨j, hj, rfl⟩ := List.getElem_of_mem hs
    rcases lt_trichotomy i j with hij | rfl | hij
    · exact absurd hpath (List.lt_asymm (List.pairwise_iff_getElem.1 hpaths i j hi hj hij))
    · exact absurd hlt (List.lt_irrefl _)
    · exact absurd hlt (List.lt_asymm (List.pairwise_iff_getElem.1 hsorted j i hj hi hij))
  · intro hnone
    refine hpaths.imp_of_mem ?_
    intro first second hf hs hpath
    rcases lt_trichotomy first second with hlt | rfl | hlt
    · exact hlt
    · exact absurd hpath (List.lt_irrefl _)
    · have hmisplaced := (misplaced_iff_names (hown second hs) (hown first hf)).2 ⟨hlt, hpath⟩
      exact absurd hmisplaced (hnone second hs first hf)

end
end Discover

namespace Compiler

/-- A template beside a directory with another one, of a name that comes later. -/
theorem increasing_discovered_nested :
    let files := mirroredFiles [([['s'], "a.njk".toList], .file (.text heir)),
      ([['s'], ['b']], .directory), ([['s'], ['b'], "a.njk".toList], .file (.text heir))]
    Discover.all files mirrored = .ok ([['a'], "b/a".toList], []) ∧
      ∀ first ∈ [['a'], "b/a".toList], ∀ second ∈ [['a'], "b/a".toList],
        ¬ Discover.Misplaced first second := by
  intro files
  have tree : files.IsTree := FileSystem.isTree_of_forall (by decide) (by decide) (by decide)
  have hroot : Source.place files mirrored.sourceRoot = .ok [['s']] := by cbv
  have hbelow : ∀ n, Discover.textsBelow files [['s']] (n + 2) [[['s']]] [['s']] [] =
      [["a.njk".toList], [['b'], "a.njk".toList]] := fun n => by cbv
  have hfirst : Discover.examine files [['s']] ["a.njk".toList] = ([['a']], []) :=
    examine_heir (by decide) (by cbv)
  have hsecond : Discover.examine files [['s']] [['b'], "a.njk".toList] = (["b/a".toList], []) :=
    examine_heir (by decide) (by cbv)
  have hall : Discover.all files mirrored = .ok ([['a'], "b/a".toList], []) := by
    rw [Discover.all_of_textsBelow hroot (hbelow 34) rfl]
    simp only [List.flatMap_cons, List.flatMap_nil, hfirst, hsecond]
    rfl
  obtain ⟨found, log, hfound, -, -, hincreasing⟩ := Discover.increasing_discovered_iff tree hroot
  cases hall.symm.trans hfound
  exact ⟨hall, hincreasing.1 (by decide)⟩

/-- A template beside a directory of its own name: the template in the directory is found first. -/
theorem not_increasing_discovered :
    let files := mirroredFiles [([['s'], "a.njk".toList], .file (.text heir)),
      ([['s'], ['a']], .directory), ([['s'], ['a'], "b.njk".toList], .file (.text heir))]
    files.IsTree ∧ Source.place files mirrored.sourceRoot = .ok [['s']] ∧
      Discover.all files mirrored = .ok (["a/b".toList, ['a']], []) ∧
        ¬ ["a/b".toList, ['a']].Pairwise (fun first second => Text.bytes first < Text.bytes second) := by
  intro files
  have tree : files.IsTree := FileSystem.isTree_of_forall (by decide) (by decide) (by decide)
  have hroot : Source.place files mirrored.sourceRoot = .ok [['s']] := by cbv
  have hbelow : ∀ n, Discover.textsBelow files [['s']] (n + 2) [[['s']]] [['s']] [] =
      [[['a'], "b.njk".toList], ["a.njk".toList]] := fun n => by cbv
  have hfirst : Discover.examine files [['s']] [['a'], "b.njk".toList] = (["a/b".toList], []) :=
    examine_heir (by decide) (by cbv)
  have hsecond : Discover.examine files [['s']] ["a.njk".toList] = ([['a']], []) :=
    examine_heir (by decide) (by cbv)
  refine ⟨tree, hroot, ?_, by decide⟩
  rw [Discover.all_of_textsBelow hroot (hbelow 34) rfl]
  simp only [List.flatMap_cons, List.flatMap_nil, hfirst, hsecond]
  rfl

end Compiler
end MailTemplate
