import MailTemplate.Proofs.Files.Names
import MailTemplate.Proofs.Files.Changed
import Mathlib.Data.List.Nodup
import Mathlib.Data.List.Perm.Subperm

/-! Trees of files. Every entry stands in a directory, under a name that nothing else there has. Where
no links are, a place is reached by its own path, and by that path only. -/

namespace MailTemplate
open MailTemplate.Path

namespace Text

section
variable {separator : Char} {part : Text} {parts more : List Text}

theorem joinWith_cons (part : Text) (h : more ≠ []) :
    joinWith [separator] (part :: more) = part ++ separator :: joinWith [separator] more := by
  cases more with
  | nil => exact absurd rfl h
  | cons next rest => rw [joinWith, List.append_assoc, List.singleton_append]

theorem joinWith_append (hp : parts ≠ []) (hm : more ≠ []) :
    joinWith [separator] (parts ++ more) =
      joinWith [separator] parts ++ separator :: joinWith [separator] more := by
  induction parts with
  | nil => exact absurd rfl hp
  | cons part parts ih =>
    cases parts with
    | nil => exact joinWith_cons part hm
    | cons next rest =>
      rw [List.cons_append, joinWith_cons part (by simp), joinWith_cons part (by simp),
        ih (by simp), List.append_assoc, List.cons_append]

theorem splitOnP_joinWith (hp : parts ≠ []) (h : ∀ part ∈ parts, separator ∉ part) :
    (joinWith [separator] parts).splitOnP (· == separator) = parts := by
  induction parts with
  | nil => exact absurd rfl hp
  | cons part parts ih =>
    have hpart : part.splitOnP (· == separator) = [part] := List.splitOnP_eq_singleton fun c hc => by
      simpa using fun he : c = separator => h part List.mem_cons_self (he ▸ hc)
    cases parts with
    | nil => exact hpart
    | cons next rest =>
      rw [joinWith_cons part (by simp), List.splitOnP_append_cons _ _ (by simp), hpart,
        ih (by simp) fun part hm => h part (List.mem_cons_of_mem _ hm)]
      rfl

end
end Text

namespace Path

def IsEntryName (name : Text) : Prop := IsName name ∧ '/' ∉ name

instance (name : Text) : Decidable (IsEntryName name) :=
  inferInstanceAs (Decidable ((name ≠ [] ∧ name ≠ ['.'] ∧ name ≠ ['.', '.']) ∧ '/' ∉ name))

section
variable {place more : Location} {name : Text}

theorem parts_joinWith (hm : more ≠ []) (h : ∀ name ∈ more, IsEntryName name) :
    parts (Text.joinWith ['/'] more) = more :=
  Text.splitOnP_joinWith hm fun name hn => (h name hn).2

theorem names_joinWith (hm : more ≠ []) (h : ∀ name ∈ more, IsEntryName name) :
    names (Text.joinWith ['/'] more) = more := by
  rw [names, parts_joinWith hm h, List.filter_eq_self]
  intro name hn
  simpa using ⟨(h name hn).1.1, (h name hn).1.2.1⟩

theorem parts_path (hm : more ≠ []) (h : ∀ name ∈ more, IsEntryName name) :
    parts (Location.path more) = [] :: more := by
  rw [Location.path, parts, ← List.nil_append ('/' :: _), List.splitOnP_append_cons _ _ (by simp)]
  exact congrArg _ (parts_joinWith hm h)

theorem isAbsolute_joinWith (h : ∀ name ∈ more, IsEntryName name) (next : Text) (hn : more ≠ []) :
    isAbsolute (Text.joinWith ['/'] more ++ next) = false := by
  cases more with
  | nil => exact absurd rfl hn
  | cons name more =>
    obtain ⟨⟨hne, -⟩, hslash⟩ := h name List.mem_cons_self
    obtain ⟨c, name, rfl⟩ := List.exists_cons_of_ne_nil hne
    have hc : c ≠ '/' := fun he => hslash (he ▸ List.mem_cons_self)
    cases more with
    | nil => simpa [Text.joinWith, isAbsolute_cons] using hc
    | cons next more => simpa [Text.joinWith, isAbsolute_cons] using hc

/-- The path of a place, continued by names, is the path of the place that they lead to. -/
theorem join_path (hp : ∀ name ∈ place, IsEntryName name) (hn : more ≠ [])
    (h : ∀ name ∈ more, IsEntryName name) :
    join place.path (Text.joinWith ['/'] more) = Location.path (place ++ more) := by
  have habsolute := isAbsolute_joinWith h [] hn
  rw [List.append_nil] at habsolute
  rw [join, habsolute, if_neg Bool.false_ne_true]
  rcases List.eq_nil_or_concat' place with rfl | ⟨above, name, rfl⟩
  · rfl
  · have hlast : (Location.path (above ++ [name])).getLast? ≠ some '/' := by
      obtain ⟨⟨hne, -⟩, hslash⟩ := hp name (by simp)
      have hend : ∃ front, Location.path (above ++ [name]) = front ++ name := by
        rcases above with _ | ⟨first, above⟩
        · exact ⟨['/'], rfl⟩
        · refine ⟨'/' :: Text.joinWith ['/'] (first :: above) ++ ['/'], ?_⟩
          rw [Location.path, Text.joinWith_append (by simp) (by simp)]
          simp [Text.joinWith]
      obtain ⟨front, hfront⟩ := hend
      rw [hfront, List.getLast?_append_of_ne_nil _ hne]
      exact fun he => hslash (List.mem_of_getLast? he)
    rw [if_neg (not_or.2 ⟨by simp [Location.path], hlast⟩), Location.path, Location.path,
      Text.joinWith_append (by simp) hn]
    simp

theorem lexical_of_isName (h : ∀ name ∈ more, IsName name) : lexical place more = place ++ more := by
  induction more generalizing place with
  | nil => rw [lexical_nil, List.append_nil]
  | cons name more ih =>
    rw [lexical_cons, step_of_isName (h name List.mem_cons_self),
      ih fun name hm => h name (List.mem_cons_of_mem _ hm), List.append_assoc, List.singleton_append]

end
end Path

/-- No name on the way to a place is too long, nor is its path. -/
def Location.Fits (place : Location) : Prop :=
  '\x00' ∉ place.path ∧ Text.byteSize place.path < FileSystem.maxPath ∧
    ∀ name ∈ place, Text.byteSize name ≤ FileSystem.maxName

namespace FileSystem

/-- Every entry stands in a directory, under a name that nothing else there has, and relative paths
begin in a directory. -/
structure IsTree (files : FileSystem) : Prop where
  distinct : (files.entries.map (·.1)).Nodup
  named : ∀ entry ∈ files.entries, ∃ above name, entry.1 = above ++ [name] ∧ IsEntryName name ∧
    files.isDirectoryAt above = true
  current : files.isDirectoryAt files.current = true

/-- No link stands at or below a place. -/
def HasNoLinks (files : FileSystem) (root : Location) : Prop :=
  ∀ place target, root <+: place → files.entry? place ≠ some (.link target)

theorem hasNoLinks_of_forall {files : FileSystem}
    (h : ∀ entry ∈ files.entries, ∀ target, entry.2 ≠ .link target) (root : Location) :
    files.HasNoLinks root := by
  intro place target _
  have hclear := isClear_of_forall h place [] [] List.prefix_rfl target
  rwa [lexical_nil] at hclear

section
variable {files : FileSystem} {place front : Location} {entry : Entry} {name : Text}

theorem entry?_of_mem (distinct : (files.entries.map (·.1)).Nodup) (hp : place ≠ [])
    (hm : (place, entry) ∈ files.entries) : files.entry? place = some entry := by
  have hsome : (files.entries.find? (·.1 == place)).isSome :=
    List.find?_isSome.2 ⟨_, hm, by simp⟩
  obtain ⟨⟨found, other⟩, hfound⟩ := Option.isSome_iff_exists.1 hsome
  obtain rfl : found = place := by simpa using List.find?_some hfound
  have hsame := List.inj_on_of_nodup_map distinct (List.mem_of_find?_eq_some hfound) hm rfl
  unfold FileSystem.entry?
  rw [if_neg hp, hfound]
  exact congrArg some (congrArg Prod.snd hsame)

theorem isTree_of_forall (distinct : (files.entries.map (·.1)).Nodup)
    (named : ∀ entry ∈ files.entries, entry.1 ≠ [] ∧ IsEntryName (entry.1.getLastD []) ∧
      files.isDirectoryAt entry.1.dropLast = true)
    (current : files.isDirectoryAt files.current = true) : files.IsTree := by
  refine ⟨distinct, fun entry hm => ?_, current⟩
  obtain ⟨hne, hname, hd⟩ := named entry hm
  obtain ⟨above, name, he⟩ := (List.eq_nil_or_concat' entry.1).resolve_left hne
  rw [he, List.dropLast_concat] at hd
  rw [he, List.getLastD_concat] at hname
  exact ⟨above, name, he, hname, hd⟩

namespace IsTree

variable (tree : files.IsTree)
include tree

theorem entry?_eq_some_iff (hp : place ≠ []) :
    files.entry? place = some entry ↔ (place, entry) ∈ files.entries :=
  ⟨fun h => (mem_entries h).resolve_left fun hroot => hp hroot.1, entry?_of_mem tree.distinct hp⟩

theorem exists_above (h : files.entry? place = some entry) (hp : place ≠ []) :
    ∃ above name, place = above ++ [name] ∧ IsEntryName name ∧ files.isDirectoryAt above = true :=
  tree.named _ ((tree.entry?_eq_some_iff hp).1 h)

theorem isDirectoryAt_above (h : files.entry? place = some entry) (hf : front <+: place)
    (hne : front ≠ place) : files.isDirectoryAt front = true := by
  induction place using List.reverseRecOn generalizing entry with
  | nil => exact absurd (List.prefix_nil.1 hf) hne
  | append_singleton above name ih =>
    obtain ⟨_, _, he, -, hd⟩ := tree.exists_above h (by simp)
    obtain ⟨rfl, -⟩ := List.append_inj' he rfl
    rcases List.prefix_concat_iff.1 hf with rfl | hf
    · exact absurd rfl hne
    · by_cases habove : front = above
      · rw [habove]
        exact hd
      · exact ih (by rwa [FileSystem.isDirectoryAt, beq_iff_eq] at hd) hf habove

theorem length_le (h : files.entry? place = some entry) : place.length ≤ files.entries.length := by
  -- every beginning of the way is an entry of its own
  let fronts := (List.range place.length).map fun n => place.take (n + 1)
  have hnodup : fronts.Nodup := by
    refine (List.nodup_map_iff_inj_on List.nodup_range).2 fun m hm n hn he => ?_
    have hlength := congrArg List.length he
    simp only [List.mem_range, List.length_take] at hm hn hlength
    omega
  have hsubset : fronts ⊆ files.entries.map (·.1) := by
    intro front hm
    obtain ⟨n, hn, rfl⟩ := List.mem_map.1 hm
    rw [List.mem_range] at hn
    have hne : place.take (n + 1) ≠ [] := by
      rw [ne_eq, List.take_eq_nil_iff]
      rintro (hz | rfl)
      · omega
      · simp at hn
    have hentry : ∃ found, files.entry? (place.take (n + 1)) = some found := by
      by_cases hplace : place.take (n + 1) = place
      · exact ⟨entry, hplace.symm ▸ h⟩
      · have hdirectory := tree.isDirectoryAt_above h (List.take_prefix _ _) hplace
        rw [isDirectoryAt, beq_iff_eq] at hdirectory
        exact ⟨_, hdirectory⟩
    obtain ⟨found, hfound⟩ := hentry
    exact List.mem_map.2 ⟨_, (tree.entry?_eq_some_iff hne).1 hfound, rfl⟩
  have hlength := (hnodup.subperm hsubset).length_le
  simpa [fronts] using hlength

theorem isEntryName (h : files.entry? place = some entry) (hm : name ∈ place) :
    IsEntryName name := by
  induction place using List.reverseRecOn generalizing entry with
  | nil => cases hm
  | append_singleton above last ih =>
    obtain ⟨_, _, he, hname, hd⟩ := tree.exists_above h (by simp)
    obtain ⟨rfl, hlast⟩ := List.append_inj' he rfl
    cases hlast
    rcases List.mem_append.1 hm with hm | hm
    · exact ih (by rwa [FileSystem.isDirectoryAt, beq_iff_eq] at hd) hm
    · rw [List.mem_singleton.1 hm]
      exact hname

theorem isDirectoryAt_dropLast (h : files.isDirectoryAt place = true) :
    files.isDirectoryAt place.dropLast = true := by
  rw [FileSystem.isDirectoryAt, beq_iff_eq] at h
  rcases List.eq_nil_or_concat' place with rfl | ⟨above, name, rfl⟩
  · rfl
  · rw [List.dropLast_concat]
    exact tree.isDirectoryAt_above h (List.prefix_append _ _) (by simp)

theorem entry?_start (path : Text) : files.entry? (files.start path) ≠ none := by
  unfold FileSystem.start
  split
  · exact Option.some_ne_none Entry.directory
  · have hcurrent := tree.current
    rw [FileSystem.isDirectoryAt, beq_iff_eq] at hcurrent
    simp [hcurrent]

theorem entry?_of_leads {parts : List Text} {result : Location} (he : files.entry? place ≠ none)
    (h : files.Leads place parts result) : files.entry? result ≠ none := by
  induction h with
  | here => exact he
  | on hnext _ ih =>
    refine ih ?_
    unfold next? at hnext
    split at hnext
    · cases hnext
    · next hd =>
      split at hnext
      · cases hnext
        exact he
      · split at hnext
        · cases hnext
          have habove := tree.isDirectoryAt_dropLast (by simpa using hd)
          rw [FileSystem.isDirectoryAt, beq_iff_eq] at habove
          simp [habove]
        · split at hnext
          · cases hnext
          · cases hnext
            split
            · exact Option.some_ne_none Entry.directory
            · exact he
          · next found =>
            cases hnext
            simp [found]

theorem mem_list : (name, entry) ∈ files.list place ↔ files.entry? (place ++ [name]) = some entry := by
  rw [tree.entry?_eq_some_iff (by simp), FileSystem.list, List.mem_mergeSort, List.mem_filterMap]
  constructor
  · rintro ⟨⟨found, other⟩, hm, he⟩
    dsimp only at he
    split at he
    · next last hlast =>
      split at he
      · next hplace =>
        cases he
        obtain ⟨above, rfl⟩ := List.getLast?_eq_some_iff.1 hlast
        rw [List.dropLast_concat] at hplace
        rwa [hplace] at hm
      · cases he
    · cases he
  · intro hm
    exact ⟨_, hm, by simp⟩

theorem nodup_list (place : Location) : ((files.list place).map Prod.fst).Nodup := by
  rw [FileSystem.list, ((List.mergeSort_perm _ _).map _).nodup_iff]
  refine List.Pairwise.map _ (fun _ _ h => h) (List.Pairwise.filterMap _ ?_
    (List.pairwise_map.1 tree.distinct))
  rintro ⟨first, _⟩ ⟨second, _⟩ hne ⟨name, _⟩ hfirst ⟨other, _⟩ hsecond rfl
  dsimp only at hfirst hsecond hne
  split at hfirst
  · next last hlast =>
    obtain ⟨above, rfl⟩ := List.getLast?_eq_some_iff.1 hlast
    split at hsecond
    · next last' hlast' =>
      obtain ⟨above', rfl⟩ := List.getLast?_eq_some_iff.1 hlast'
      rw [List.dropLast_concat] at hfirst hsecond
      split at hfirst
      · next hplace =>
        split at hsecond
        · next hplace' =>
          cases hfirst
          cases hsecond
          exact hne (by rw [hplace, hplace'])
        · cases hsecond
      · cases hfirst
    · cases hsecond
  · cases hfirst

end IsTree

theorem byteSize_path_le (place more : Location) :
    Text.byteSize (Location.path place) ≤ Text.byteSize (Location.path (place ++ more)) := by
  rcases place with _ | ⟨first, place⟩
  · rw [List.nil_append, Location.path, Location.path]
    simp [Text.joinWith]
  · rcases more with _ | ⟨name, more⟩
    · rw [List.append_nil]
    · rw [Location.path, Location.path, Text.joinWith_append (by simp) (by simp)]
      simp only [Text.byteSize_cons, Text.byteSize_append]
      omega

/-- Through directories, names lead to the place that they name, if none of them is too long. -/
theorem walk_names_eq_ok_iff {purpose : Purpose} {links : Nat} {more result : Location}
    (hd : ∀ front, front <+: more → front ≠ more → files.isDirectoryAt (place ++ front) = true)
    (he : files.entry? (place ++ more) = some entry) (hl : ∀ target, entry ≠ .link target)
    (hn : ∀ name ∈ more, IsName name) : files.walk purpose links place more = .ok result ↔
      result = place ++ more ∧ ∀ front name, front ++ [name] <+: more →
        isTooLong purpose (place ++ front) name = false := by
  induction more generalizing place with
  | nil =>
    rw [walk, List.append_nil, Except.ok.injEq, eq_comm]
    refine (and_iff_left ?_).symm
    intro front name h
    exact absurd (List.prefix_nil.1 h) (by simp)
  | cons name more ih =>
    have hname := hn name List.mem_cons_self
    have hplace : files.isDirectoryAt place = true := by simpa using hd [] List.nil_prefix (by simp)
    have hrest : ∀ name ∈ more, IsName name := fun name hm => hn name (List.mem_cons_of_mem _ hm)
    have hslash : ¬ (purpose = .create ∧ more ≠ [] ∧ more.all (· = [])) := by
      rintro ⟨-, hne, hall⟩
      obtain ⟨next, more, rfl⟩ := List.exists_cons_of_ne_nil hne
      exact (hrest next List.mem_cons_self).1 (by simpa using List.all_eq_true.1 hall next (by simp))
    have happend : place ++ name :: more = place ++ [name] ++ more := by simp
    have hwalk : ∀ found, files.entry? (place ++ [name]) = some found →
        (∀ target, found ≠ .link target) → ¬ isTooLong purpose place name = true →
          files.walk purpose links place (name :: more) =
            files.walk purpose links (place ++ [name]) more := by
      intro found hf hnl hshort
      rw [walk_of_isName hplace hname, if_neg hslash, if_neg hshort, hf]
      cases found with
      | link target => exact absurd rfl (hnl target)
      | directory => rfl
      | file contents => rfl
    have hstep : ¬ isTooLong purpose place name = true →
        files.walk purpose links place (name :: more) =
          files.walk purpose links (place ++ [name]) more := by
      intro hshort
      cases more with
      | nil => exact hwalk entry he hl hshort
      | cons next more =>
        have hdir := hd [name] (by simp) (by simp)
        rw [isDirectoryAt, beq_iff_eq] at hdir
        exact hwalk .directory hdir (fun _ => Entry.noConfusion) hshort
    by_cases hlong : isTooLong purpose place name = true
    · rw [walk_of_isName hplace hname, if_neg hslash, if_pos hlong]
      refine iff_of_false (fun h => by cases h) fun h => ?_
      have hshort := h.2 [] name (by simp)
      rw [List.append_nil, hlong] at hshort
      cases hshort
    · rw [hstep hlong, ih ?_ (happend ▸ he) hrest, happend]
      · refine and_congr_right fun _ => ⟨fun h front last hf => ?_, fun h front last hf => ?_⟩
        · rcases front with _ | ⟨first, front⟩
          · obtain ⟨rfl, -⟩ := List.cons_prefix_cons.1 hf
            simpa using hlong
          · obtain ⟨rfl, hmore⟩ := List.cons_prefix_cons.1 hf
            have hshort := h front last hmore
            rwa [List.append_assoc] at hshort
        · have hall := h (name :: front) last (List.cons_prefix_cons.2 ⟨rfl, hf⟩)
          rwa [List.append_assoc]
      · intro front hf hne
        rw [List.append_assoc]
        exact hd (name :: front) (List.cons_prefix_cons.2 ⟨rfl, hf⟩) (by simpa using hne)

section
variable {result : Location} (tree : files.IsTree) (hp : place ≠ [])
  (he : files.entry? place = some entry) (hl : ∀ target, entry ≠ .link target)
include tree hp he hl

theorem IsTree.walk_parts_path (purpose : Purpose) :
    files.walk purpose maxLinks (files.start place.path) (Path.parts place.path) = .ok result ↔
      result = place ∧ ∀ front name, front ++ [name] <+: place →
        isTooLong purpose front name = false := by
  have hnames : ∀ name ∈ place, IsEntryName name := fun name hm => tree.isEntryName he hm
  have hroot : files.isDirectoryAt [] = true := rfl
  have hstart : files.start place.path = [] := rfl
  have hslash : files.walk purpose maxLinks [] ([] :: place) =
      files.walk purpose maxLinks [] place := by
    rw [walk, hroot, if_neg (by simp), if_pos (.inl rfl)]
  rw [hstart, parts_path hp hnames, hslash]
  refine walk_names_eq_ok_iff (fun front hf hne => ?_) he hl fun name hm => (hnames name hm).1
  exact tree.isDirectoryAt_above he hf hne

/-- Where there is a directory or a file, the path of the place leads to it, or is too long. -/
theorem IsTree.locate_path_eq_ok_iff :
    files.locate place.path = .ok result ↔ result = place ∧ place.Fits := by
  have hpath : place.path ≠ [] := by simp [Location.path]
  rw [locate, bind_eq_ok_iff]
  simp only [tree.walk_parts_path hp he hl]
  constructor
  · rintro ⟨_, hcheck, rfl, hshort⟩
    obtain ⟨hnul, hsize⟩ := (checkPath_eq_ok_iff hpath).1 hcheck
    refine ⟨rfl, hnul, hsize, fun name hm => ?_⟩
    obtain ⟨front, back, rfl⟩ := List.append_of_mem hm
    simpa [isTooLong] using hshort front name (by simp)
  · rintro ⟨rfl, hnul, hsize, hnames⟩
    refine ⟨(), (checkPath_eq_ok_iff hpath).2 ⟨hnul, hsize⟩, rfl, fun front name hf => ?_⟩
    simpa [isTooLong] using hnames name (hf.subset (by simp))

/-- The path of a place leads to a directory if there is one, and the path is not too long. -/
theorem IsTree.isDirectory_path_iff :
    files.isDirectory place.path = true ↔ entry = .directory ∧ place.Fits := by
  rw [isDirectory, stat?, beq_iff_eq]
  cases hlocate : files.locate place.path with
  | error cause =>
    refine iff_of_false (fun h => by cases h) fun h => ?_
    rw [(tree.locate_path_eq_ok_iff hp he hl).2 ⟨rfl, h.2⟩] at hlocate
    cases hlocate
  | ok result =>
    obtain ⟨rfl, hfits⟩ := (tree.locate_path_eq_ok_iff hp he hl).1 hlocate
    dsimp only
    rw [he, Option.some.injEq, and_iff_left hfits]

theorem IsTree.follow_path (hf : place.Fits) : files.follow place.path = .ok place := by
  obtain ⟨hnul, hsize, hnames⟩ := hf
  have hpath : place.path ≠ [] := by simp [Location.path]
  rw [follow, bind_eq_ok_iff]
  refine ⟨(), by rw [checkText, if_neg hnul, if_neg hpath], ?_⟩
  refine (tree.walk_parts_path hp he hl .name).2 ⟨rfl, fun front name hf => ?_⟩
  have hname := hnames name (hf.subset (by simp))
  obtain ⟨more, rfl⟩ := hf
  have hshort := byteSize_path_le (front ++ [name]) more
  simp only [isTooLong, Bool.or_eq_false_iff, decide_eq_false_iff_not, Bool.and_eq_false_iff]
  omega

theorem IsTree.read_path_eq_ok_iff {text : Text} : files.read place.path = .ok text ↔
    place.Fits ∧ files.entry? place = some (.file (.text text)) := by
  rw [FileSystem.read, bind_eq_ok_iff]
  simp only [tree.locate_path_eq_ok_iff hp he hl, readAt_eq_ok_iff]
  constructor
  · rintro ⟨_, ⟨rfl, hfits⟩, hread⟩
    exact ⟨hfits, hread⟩
  · rintro ⟨hfits, hread⟩
    exact ⟨place, ⟨rfl, hfits⟩, hread⟩

end
end
end FileSystem

theorem Location.Fits.of_append {place more : Location} (h : Fits (place ++ more)) : Fits place := by
  obtain ⟨hnul, hsize, hnames⟩ := h
  refine ⟨fun hm => hnul ?_, (FileSystem.byteSize_path_le place more).trans_lt hsize,
    fun name hm => hnames name (List.mem_append_left _ hm)⟩
  rcases more with _ | ⟨next, more⟩
  · rwa [List.append_nil]
  · rcases place with _ | ⟨first, place⟩
    · exact absurd hm (by decide)
    · rw [Location.path, Text.joinWith_append (by simp) (by simp)]
      rw [Location.path] at hm
      exact List.mem_cons.2 ((List.mem_cons.1 hm).imp_right (List.mem_append_left _))

end MailTemplate
