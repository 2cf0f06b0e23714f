import MailTemplate.Proofs.Compile.Confined
import MailTemplate.Proofs.Compile.OutputTree
import MailTemplate.Proofs.Files.Trees
import MailTemplate.Proofs.Template.Parts

/-! Discovered templates. Each one is found at a place of its own below the source root, and its name is
the path from there, without the extension. A template is loaded by that name from that place exactly if
the name means itself as a reference. -/

namespace MailTemplate
open MailTemplate.Path

section
variable {name : Text}

theorem Text.beforeEnd?_eq_none_iff {mark text : Text} : beforeEnd? mark text = none ↔ ¬ mark <:+ text := by
  rw [Option.eq_none_iff_forall_not_mem]
  simp only [Option.mem_def, beforeEnd?_eq_some_iff]
  exact not_exists.symm.trans (not_congr (exists_congr fun _ => eq_comm))

theorem Path.dropWhile_slash_eq_self_iff :
    name.dropWhile (· = '/') = name ↔ isAbsolute name = false := by
  cases name with
  | nil => exact iff_of_true rfl rfl
  | cons c name =>
    rw [isAbsolute_cons, List.dropWhile_cons]
    by_cases hc : c = '/'
    · subst hc
      refine iff_of_false (fun h => ?_) (by simp)
      have hlength := Text.length_dropWhile_le (· = '/') name
      rw [if_pos (by simp)] at h
      rw [h, List.length_cons] at hlength
      omega
    · simp [hc]

/-- A text means itself as a reference exactly if it has slashes for separators, none of them leading,
no white space at either end, and no extension at its end. -/
theorem templateName_eq_self_iff : templateName name = name ↔
    '\\' ∉ name ∧ isAbsolute name = false ∧ Text.trim name = name ∧ ¬ extension <:+ name := by
  let slashed := (Text.trim name).map fun c => if c = '\\' then '/' else c
  have hmap : ∀ text : Text, '\\' ∉ text →
      text.map (fun c => if c = '\\' then '/' else c) = text := by
    intro text ht
    refine (List.map_congr_left fun c hc => ?_).trans (List.map_id _)
    have hne : c ≠ '\\' := fun he => ht (he ▸ hc)
    exact if_neg hne
  constructor
  · intro h
    change (Text.beforeEnd? extension (slashed.dropWhile (· = '/'))).getD _ = name at h
    -- nothing makes a text longer, so nothing has made this one shorter
    have htrim := (Text.infix_trim name).length_le
    have hdrop := Text.length_dropWhile_le (· = '/') slashed
    have hslashed : slashed.length = (Text.trim name).length := List.length_map _
    have hnone : Text.beforeEnd? extension (slashed.dropWhile (· = '/')) = none := by
      by_contra hsome
      obtain ⟨front, hfront⟩ := Option.ne_none_iff_exists'.1 hsome
      rw [hfront, Option.getD_some] at h
      have hlength := congrArg List.length (Text.beforeEnd?_eq_some_iff.1 hfront)
      rw [h, List.length_append] at hlength
      have : 0 < extension.length := by decide
      omega
    rw [hnone, Option.getD_none] at h
    rw [h] at hdrop
    have hname : Text.trim name = name := (Text.infix_trim name).eq_of_length (by omega)
    have hkept : slashed.dropWhile (· = '/') = slashed :=
      (List.dropWhile_suffix _).eq_of_length (by rw [h]; omega)
    rw [hkept] at h
    refine ⟨fun hm => ?_, ?_, hname, ?_⟩
    · rw [← h] at hm
      obtain ⟨c, -, hc⟩ := List.mem_map.1 hm
      split at hc
      · cases hc
      · next hne => exact hne hc
    · rwa [← Path.dropWhile_slash_eq_self_iff, ← h]
    · rwa [hkept, h, Text.beforeEnd?_eq_none_iff] at hnone
  · rintro ⟨hslash, habsolute, htrim, hend⟩
    unfold templateName
    dsimp only
    rw [htrim, hmap name hslash, Path.dropWhile_slash_eq_self_iff.2 habsolute,
      Text.beforeEnd?_eq_none_iff.2 hend, Option.getD_none]

end

namespace Discover

section
variable {files : FileSystem} {config : Config} {root here : Location} {fuel : Nat}
  {visiting : List Location} {names path : List Text} {name : Text} {log : List LogLine}

theorem texts?_map_text (names : List Text) : FileName.texts? (names.map .text) = some names := by
  induction names with
  | nil => rfl
  | cons name names ih => rw [List.map_cons, FileName.texts?, ih, Option.map_some]

theorem texts?_append_binary (names : List Text) (path : List FileName) :
    FileName.texts? (names.map .text ++ .binary :: path) = none := by
  induction names with
  | nil => rfl
  | cons name names ih => rw [List.map_cons, List.cons_append, FileName.texts?, ih, Option.map_none]

variable (files root) in
def textsBelow (fuel : Nat) (visiting : List Location) (here : Location) (names : List Text) :
    List (List Text) :=
  (filesBelow files root fuel visiting here names).filterMap FileName.texts?

variable (files root) in
def filesAt (fuel : Nat) (visiting : List Location) (here : Location) (names : List Text)
    (name : Text) (entry : Entry) : List (List Text) :=
  match entry with
  | .directory =>
    if files.isDirectory (Location.path (root ++ (names ++ [name]))) then
      textsBelow files root fuel ((here ++ [name]) :: visiting) (here ++ [name]) (names ++ [name])
    else []
  | .file _ => [names ++ [name]]
  | .link _ => match files.locate (Location.path (root ++ (names ++ [name]))) with
    | .error _ => []
    | .ok location =>
      if files.isDirectoryAt location then
        if visiting.contains location then []
        else textsBelow files root fuel (location :: visiting) location (names ++ [name])
      else [names ++ [name]]

theorem textsBelow_succ (fuel : Nat) (visiting : List Location) (here : Location)
    (names : List Text) : textsBelow files root (fuel + 1) visiting here names =
      (files.list here).flatMap fun found =>
        filesAt files root fuel visiting here names found.1 found.2 := by
  have hone : ∀ path : List Text, [path.map FileName.text].filterMap FileName.texts? = [path] :=
    fun path => List.filterMap_cons_some (texts?_map_text path)
  have hunnamed : ((files.unnamed.filter (·.1 = here)).map fun file =>
      names.map .text ++ .binary :: file.2).filterMap FileName.texts? = [] := by
    rw [List.filterMap_map, List.filterMap_eq_nil_iff]
    exact fun file _ => texts?_append_binary names file.2
  rw [textsBelow, filesBelow, List.filterMap_append, hunnamed, List.nil_append, List.filterMap_flatMap]
  refine List.flatMap_congr fun found _ => ?_
  obtain ⟨name, entry⟩ := found
  cases entry with
  | directory =>
    dsimp only [filesAt]
    split <;> rfl
  | file contents => exact hone _
  | link target =>
    dsimp only [filesAt]
    cases files.locate (Location.path (root ++ (names ++ [name]))) with
    | error cause => rfl
    | ok location =>
      simp only [List.contains_iff_mem]
      split
      · split <;> rfl
      · exact hone _

theorem prefix_of_mem_filesAt {entry : Entry}
    (hb : ∀ visiting here names, path ∈ textsBelow files root fuel visiting here names → names <+: path)
    (h : path ∈ filesAt files root fuel visiting here names name entry) : names ++ [name] <+: path := by
  unfold filesAt at h
  split at h
  · split at h
    · exact hb _ _ _ h
    · cases h
  · exact (List.mem_singleton.1 h) ▸ List.prefix_rfl
  · split at h
    · cases h
    · split at h
      · split at h
        · cases h
        · exact hb _ _ _ h
      · exact (List.mem_singleton.1 h) ▸ List.prefix_rfl

/-- The names on the way to what is found begin with those on the way to where it is looked for. -/
theorem prefix_of_mem_textsBelow (h : path ∈ textsBelow files root fuel visiting here names) :
    names <+: path := by
  induction fuel generalizing visiting here names with
  | zero => cases h
  | succ fuel ih =>
    rw [textsBelow_succ] at h
    obtain ⟨_, -, h⟩ := List.mem_flatMap.1 h
    exact (List.prefix_append _ _).trans (prefix_of_mem_filesAt (fun _ _ _ => ih) h)

/-- What holds of two ways that part in a directory, at the names that are listed there, holds of the ways
to what is found. -/
theorem pairwise_textsBelow_of {order : Text → Text → Prop} {R : List Text → List Text → Prop}
    (hlist : ∀ place, ((files.list place).map Prod.fst).Pairwise order)
    (hR : ∀ {names first second p q}, order first second → names ++ [first] <+: p →
      names ++ [second] <+: q → R p q) :
    (textsBelow files root fuel visiting here names).Pairwise R := by
  induction fuel generalizing visiting here names with
  | zero => exact .nil
  | succ fuel ih =>
    rw [textsBelow_succ, List.pairwise_flatMap]
    constructor
    · rintro ⟨name, entry⟩ -
      dsimp only [filesAt]
      split
      · split
        · exact ih
        · exact .nil
      · exact List.pairwise_singleton _ _
      · split
        · exact .nil
        · split
          · split
            · exact .nil
            · exact ih
          · exact List.pairwise_singleton _ _
    · refine (List.pairwise_map.1 (hlist here)).imp ?_
      rintro ⟨first, _⟩ ⟨second, _⟩ horder p hp q hq
      exact hR horder (prefix_of_mem_filesAt (fun _ _ _ => prefix_of_mem_textsBelow) hp)
        (prefix_of_mem_filesAt (fun _ _ _ => prefix_of_mem_textsBelow) hq)

/-- Neither of two ways goes on along the other. -/
def Apart (first second : List Text) : Prop := ¬ first <+: second ∧ ¬ second <+: first

instance : Std.Symm Apart := ⟨fun _ _ h => ⟨h.2, h.1⟩⟩

theorem pairwise_textsBelow (tree : files.IsTree) :
    (textsBelow files root fuel visiting here names).Pairwise Apart := by
  refine pairwise_textsBelow_of tree.nodup_list fun {names first second p q} hne hp hq => ?_
  have hsame : ∀ {way}, names ++ [first] <+: way → ¬ names ++ [second] <+: way := by
    intro way hfirst hsecond
    have heq := (List.prefix_of_prefix_length_le hfirst hsecond (by simp)).eq_of_length (by simp)
    exact hne (List.singleton_inj.1 (List.append_cancel_left heq))
  exact ⟨fun h => hsame (hp.trans h) hq, fun h => hsame hp (hq.trans h)⟩

theorem proper_of_mem_filesAt {entry : Entry}
    (hb : ∀ visiting here names, (∀ part ∈ names, IsEntryName part) →
      path ∈ textsBelow files root fuel visiting here names →
        path ≠ [] ∧ ∀ part ∈ path, IsEntryName part)
    (hn : ∀ part ∈ names ++ [name], IsEntryName part)
    (h : path ∈ filesAt files root fuel visiting here names name entry) :
    path ≠ [] ∧ ∀ part ∈ path, IsEntryName part := by
  have hhere : path ∈ [names ++ [name]] → path ≠ [] ∧ ∀ part ∈ path, IsEntryName part := by
    intro hm
    rw [List.mem_singleton.1 hm]
    exact ⟨by simp, hn⟩
  unfold filesAt at h
  split at h
  · split at h
    · exact hb _ _ _ hn h
    · cases h
  · exact hhere h
  · split at h
    · cases h
    · split at h
      · split at h
        · cases h
        · exact hb _ _ _ hn h
      · exact hhere h

theorem proper_of_mem_textsBelow (tree : files.IsTree) (hn : ∀ part ∈ names, IsEntryName part)
    (h : path ∈ textsBelow files root fuel visiting here names) :
    path ≠ [] ∧ ∀ part ∈ path, IsEntryName part := by
  induction fuel generalizing visiting here names with
  | zero => cases h
  | succ fuel ih =>
    rw [textsBelow_succ] at h
    obtain ⟨⟨name, entry⟩, hm, h⟩ := List.mem_flatMap.1 h
    have hname : IsEntryName name := tree.isEntryName (tree.mem_list.1 hm) (by simp)
    refine proper_of_mem_filesAt (fun _ _ _ hn h => ih hn h) (fun part hp => ?_) h
    rcases List.mem_append.1 hp with hp | hp
    · exact hn part hp
    · rw [List.mem_singleton.1 hp]
      exact hname

section
variable {holds : List Text → Prop} {more : List Text}

theorem forall_front_singleton :
    ∀ front, front <+: [name] → front ≠ [] → front ≠ [name] → holds front := by
  intro front hf hne hall
  rw [← List.nil_append [name], List.prefix_concat_iff] at hf
  exact absurd (List.prefix_nil.1 (hf.resolve_left hall)) hne

/-- The places on the way to one further down are the first one and those behind it. -/
theorem forall_front_cons_iff (hm : more ≠ []) :
    (∀ front, front <+: name :: more → front ≠ [] → front ≠ name :: more → holds front) ↔
      holds [name] ∧ ∀ front, front <+: more → front ≠ [] → front ≠ more → holds (name :: front) := by
  constructor
  · refine fun h => ⟨h [name] (by simp) (by simp) (by simpa using hm), fun front hf _ hall => ?_⟩
    exact h (name :: front) (List.cons_prefix_cons.2 ⟨rfl, hf⟩) (by simp) (by simpa using hall)
  · rintro ⟨hfirst, hrest⟩ front hf hne hall
    obtain ⟨first, front, rfl⟩ := List.exists_cons_of_ne_nil hne
    obtain ⟨rfl, hfront⟩ := List.cons_prefix_cons.1 hf
    by_cases hempty : front = []
    · exact hempty ▸ hfirst
    · exact hrest front hfront hempty (by simpa using hall)

end

section
variable (tree : files.IsTree) (hlinks : files.HasNoLinks root)
include tree

/-- The visit goes on into a directory if the path of it is not too long. -/
theorem mem_filesAt_directory_iff
    (he : files.entry? (root ++ (names ++ [name])) = some .directory) :
    path ∈ filesAt files root fuel visiting here names name .directory ↔
      (root ++ (names ++ [name])).Fits ∧
        path ∈ textsBelow files root fuel ((here ++ [name]) :: visiting) (here ++ [name])
          (names ++ [name]) := by
  have hd := tree.isDirectory_path_iff (by simp) he fun _ => Entry.noConfusion
  simp only [filesAt]
  split
  · next hdirectory => exact (and_iff_right (hd.1 hdirectory).2).symm
  · next hdirectory =>
    exact iff_of_false List.not_mem_nil fun h => hdirectory (hd.2 ⟨rfl, h.1⟩)

include hlinks

/-- Below a place without links, the visit comes to the files whose directories, up to there, have paths
that are not too long. -/
theorem mem_textsBelow_iff (hhere : here = root ++ names) :
    path ∈ textsBelow files root fuel visiting here names ↔
      ∃ more, path = names ++ more ∧ more ≠ [] ∧ more.length ≤ fuel ∧
        (∃ contents, files.entry? (root ++ path) = some (.file contents)) ∧
          ∀ front, front <+: more → front ≠ [] → front ≠ more → (root ++ (names ++ front)).Fits := by
  subst hhere
  induction fuel generalizing visiting names with
  | zero =>
    refine iff_of_false List.not_mem_nil ?_
    rintro ⟨more, -, hne, hlength, -⟩
    exact hne (List.length_eq_zero_iff.1 (Nat.le_zero.1 hlength))
  | succ fuel ih =>
    rw [textsBelow_succ, List.mem_flatMap]
    constructor
    · rintro ⟨⟨name, entry⟩, hm, h⟩
      rw [tree.mem_list, List.append_assoc] at hm
      cases entry with
      | directory =>
        obtain ⟨hfits, h⟩ := (mem_filesAt_directory_iff tree hm).1 h
        rw [List.append_assoc] at h
        obtain ⟨more, rfl, hne, hlength, hfile, hfronts⟩ := ih.1 h
        simp only [List.append_assoc, List.singleton_append] at hfronts
        exact ⟨name :: more, by simp, by simp, by simpa using hlength, hfile,
          (forall_front_cons_iff hne).2 ⟨hfits, hfronts⟩⟩
      | file contents =>
        obtain rfl := List.mem_singleton.1 h
        exact ⟨[name], rfl, by simp, by simp, ⟨contents, hm⟩, forall_front_singleton⟩
      | link target => exact absurd hm (hlinks _ target (List.prefix_append _ _))
    · rintro ⟨more, rfl, hne, hlength, ⟨contents, hfile⟩, hfronts⟩
      obtain ⟨name, more, rfl⟩ := List.exists_cons_of_ne_nil hne
      by_cases hmore : more = []
      · subst hmore
        refine ⟨(name, .file contents), ?_, List.mem_singleton.2 rfl⟩
        rw [tree.mem_list, List.append_assoc]
        exact hfile
      · have hwhole : root ++ (names ++ name :: more) = root ++ (names ++ [name]) ++ more := by simp
        have hd : files.isDirectoryAt (root ++ (names ++ [name])) = true :=
          tree.isDirectoryAt_above hfile (hwhole ▸ List.prefix_append _ _) (by simpa using hmore)
        obtain ⟨hfits, hfronts⟩ := (forall_front_cons_iff hmore).1 hfronts
        rw [FileSystem.isDirectoryAt, beq_iff_eq] at hd
        refine ⟨(name, .directory), ?_, (mem_filesAt_directory_iff tree hd).2 ⟨hfits, ?_⟩⟩
        · rw [tree.mem_list, List.append_assoc]
          exact hd
        · rw [List.append_assoc]
          refine ih.2 ⟨more, by simp, hmore, by simpa using hlength, ⟨contents, hfile⟩, ?_⟩
          simpa only [List.append_assoc, List.singleton_append] using hfronts

end

theorem joinWith_of_candidate? (h : candidate? path = some name) :
    Text.joinWith ['/'] path = name ++ extension := by
  obtain ⟨last, -, h⟩ := Option.bind_eq_some_iff.1 h
  split at h
  · cases h
  · split at h
    · cases h
    · split at h
      · cases h
      · exact Text.beforeEnd?_eq_some_iff.1 h

/-- A template is found where its file can be read and it inherits from a layout. -/
theorem mem_examine_iff {found : Text} : found ∈ (examine files root path).1 ↔
    candidate? path = some found ∧ ∃ text, files.read (Location.path (root ++ path)) = .ok text ∧
      Layout.hasParent text = true := by
  unfold examine
  cases hc : candidate? path with
  | none => exact iff_of_false List.not_mem_nil fun h => by cases h.1
  | some name =>
    dsimp only
    cases hread : files.read (Location.path (root ++ path)) with
    | error cause =>
      refine iff_of_false List.not_mem_nil ?_
      rintro ⟨-, text, h, -⟩
      cases h
    | ok text =>
      dsimp only
      by_cases hparent : Layout.hasParent text = true
      · rw [if_pos hparent, List.mem_singleton]
        constructor
        · rintro rfl
          exact ⟨rfl, text, rfl, hparent⟩
        · rintro ⟨h, -⟩
          exact (Option.some.inj h).symm
      · rw [if_neg hparent]
        refine iff_of_false List.not_mem_nil ?_
        rintro ⟨-, other, h, ho⟩
        cases h
        exact hparent ho

/-- A path of entry names that makes a file a template of the given name. -/
structure Candidate (name : Text) (path : List Text) : Prop where
  named : candidate? path = some name
  proper : ∀ part ∈ path, IsEntryName part

section
variable (own : Candidate name path)
include own

theorem Candidate.ne_nil : path ≠ [] := by
  rintro rfl
  have hnone := own.named
  cases hnone

theorem Candidate.names_eq : Path.names (name ++ extension) = path := by
  rw [← joinWith_of_candidate? own.named]
  exact names_joinWith own.ne_nil own.proper

theorem Candidate.isAbsolute_eq_false : isAbsolute (name ++ extension) = false := by
  rw [← joinWith_of_candidate? own.named, ← List.append_nil (Text.joinWith ['/'] path)]
  exact isAbsolute_joinWith own.proper [] own.ne_nil

end

theorem exists_paths (tree : files.IsTree) (hroot : Source.place files config.sourceRoot = .ok root)
    (hall : Discover.all files config = .ok (names, log)) :
    ∃ paths : List (List Text), names = paths.flatMap (fun path => (examine files root path).1) ∧
      paths.Pairwise Apart ∧ ∀ path ∈ paths, (path ≠ [] ∧ ∀ part ∈ path, IsEntryName part) ∧
        (files.HasNoLinks root → ∃ contents, files.entry? (root ++ path) = some (.file contents)) := by
  obtain ⟨_, hplace, h⟩ := bind_eq_ok_iff.1 hall
  cases hroot.symm.trans hplace
  cases h
  refine ⟨_, List.flatMap_map .., pairwise_textsBelow tree, fun path hm => ⟨?_, fun hlinks => ?_⟩⟩
  · exact proper_of_mem_textsBelow tree (fun part hp => absurd hp List.not_mem_nil) hm
  · obtain ⟨_, -, -, -, hfile, -⟩ := (mem_textsBelow_iff tree hlinks (List.append_nil root).symm).1 hm
    exact hfile

theorem nodup_examine (files : FileSystem) (root : Location) (path : List Text) :
    (examine files root path).1.Nodup := by
  unfold examine
  split
  · exact List.nodup_nil
  · dsimp only
    split
    · split
      · exact List.nodup_singleton _
      · exact List.nodup_nil
    · exact List.nodup_nil

/-- Every name belongs to a path, no name is found twice, and no path goes on along another one. -/
theorem exists_candidates (tree : files.IsTree)
    (hroot : Source.place files config.sourceRoot = .ok root)
    (hall : Discover.all files config = .ok (names, log)) :
    names.Nodup ∧ (∀ name ∈ names, Candidate name (Path.names (name ++ extension))) ∧
      ∀ name ∈ names, ∀ other ∈ names, name ≠ other →
        Apart (Path.names (name ++ extension)) (Path.names (other ++ extension)) := by
  obtain ⟨paths, rfl, hapart, hpaths⟩ := exists_paths tree hroot hall
  have hown : ∀ path ∈ paths, ∀ name ∈ (examine files root path).1, Candidate name path :=
    fun path hm name hn => ⟨(mem_examine_iff.1 hn).1, (hpaths path hm).1.2⟩
  refine ⟨List.nodup_flatMap.2 ⟨fun path _ => nodup_examine files root path, ?_⟩,
    fun name hm => ?_, fun name hm other ho hne => ?_⟩
  · refine hapart.imp_of_mem fun {first second} hfirst hsecond hne name hn hn' => ?_
    obtain rfl : first = second :=
      (hown first hfirst name hn).names_eq.symm.trans (hown second hsecond name hn').names_eq
    exact hne.1 List.prefix_rfl
  · obtain ⟨path, hpath, hn⟩ := List.mem_flatMap.1 hm
    have hname := hown path hpath name hn
    rw [hname.names_eq]
    exact hname
  · obtain ⟨path, hpath, hn⟩ := List.mem_flatMap.1 hm
    obtain ⟨way, hway, hn'⟩ := List.mem_flatMap.1 ho
    have hfirst := hown path hpath name hn
    have hsecond := hown way hway other hn'
    rw [hfirst.names_eq, hsecond.names_eq]
    have hdifferent : path ≠ way := by
      rintro rfl
      exact hne (Option.some.inj (hfirst.named.symm.trans hsecond.named))
    exact hapart.forall hpath hway hdifferent

variable (files root) in
/-- A template that is found at the end of a path: a file of text that inherits from a layout. -/
structure Finds (name : Text) (path : List Text) (text : Text) : Prop where
  candidate : candidate? path = some name
  entry : files.entry? (root ++ path) = some (.file (.text text))
  inherits : Layout.hasParent text = true
  fits : Location.Fits (root ++ path)

theorem exists_finds (tree : files.IsTree) (hlinks : files.HasNoLinks root)
    (hroot : Source.place files config.sourceRoot = .ok root)
    (hall : Discover.all files config = .ok (names, log)) (hm : name ∈ names) :
    ∃ text, Finds files root name (Path.names (name ++ extension)) text := by
  obtain ⟨paths, rfl, -, hpaths⟩ := exists_paths tree hroot hall
  obtain ⟨path, hpath, hn⟩ := List.mem_flatMap.1 hm
  obtain ⟨⟨hne, hproper⟩, hfile⟩ := hpaths path hpath
  obtain ⟨contents, he⟩ := hfile hlinks
  obtain ⟨hcandidate, text, hread, hparent⟩ := mem_examine_iff.1 hn
  obtain ⟨hfits, hentry⟩ := (tree.read_path_eq_ok_iff (by simp [hne]) he
    fun _ => Entry.noConfusion).1 hread
  rw [Candidate.names_eq ⟨hcandidate, hproper⟩]
  exact ⟨text, hcandidate, hentry, hparent, hfits⟩

section
variable {text : Text} (tree : files.IsTree) (found : Finds files root name path text)
include tree found

theorem Finds.isEntryName {part : Text} (hm : part ∈ root ++ path) : IsEntryName part :=
  tree.isEntryName found.entry hm

theorem Finds.own : Candidate name path :=
  ⟨found.candidate, fun _ hm => found.isEntryName tree (List.mem_append_right _ hm)⟩

theorem Finds.join_path :
    Path.join root.path (name ++ extension) = Location.path (root ++ path) := by
  have own := found.own tree
  rw [← joinWith_of_candidate? found.candidate]
  exact Path.join_path (fun part hm => found.isEntryName tree (List.mem_append_left _ hm))
    own.ne_nil own.proper

/-- A name that means itself as a reference is loaded from the file that it was found for. -/
theorem Finds.load (hroot : Source.place files config.sourceRoot = .ok root)
    (hname : templateName name = name) :
    Source.load files config name = .ok ⟨name, root ++ path, text⟩ := by
  have hne : root ++ path ≠ [] := by simp [(found.own tree).ne_nil]
  have hlink : ∀ target, Entry.file (.text text) ≠ .link target := fun _ => Entry.noConfusion
  have hlocate := (tree.locate_path_eq_ok_iff hne found.entry hlink).2 ⟨rfl, found.fits⟩
  have hexists : files.pathExists (Location.path (root ++ path)) = true := by
    rw [FileSystem.pathExists, FileSystem.stat?, hlocate]
    exact Option.isSome_iff_exists.2 ⟨_, found.entry⟩
  have hplace : Source.place files (Location.path (root ++ path)) = .ok (root ++ path) :=
    Source.place_eq_ok_iff.2 (tree.follow_path hne found.entry hlink found.fits)
  have hbelow : root.isPrefixOf (root ++ path) = true :=
    List.isPrefixOf_iff_prefix.2 (List.prefix_append _ _)
  have hfile : files.isFileAt (root ++ path) = true := FileSystem.isFileAt_iff.2 ⟨_, found.entry⟩
  have hread : Source.read files (root ++ path) = .ok text := by
    rw [Source.read, FileSystem.readAt, found.entry]
    rfl
  refine bind_eq_ok_iff.2 ⟨root, hroot, ?_⟩
  dsimp only
  rw [hname, found.join_path tree, hexists, if_neg (by simp)]
  refine bind_eq_ok_iff.2 ⟨root ++ path, ?_, bind_eq_ok_iff.2 ⟨text, hread, rfl⟩⟩
  refine bind_eq_ok_iff.2 ⟨root ++ path, hplace, ?_⟩
  rw [hbelow, hfile]
  rfl

end

theorem Finds.of_sameBelow {now : FileSystem} {text : Text} (found : Finds files root name path text)
    (h : FileSystem.SameBelow root files now) : Finds now root name path text :=
  ⟨found.candidate, (h _ (List.prefix_append _ _)).trans found.entry, found.inherits, found.fits⟩

theorem all_of_textsBelow {paths : List (List Text)} {size : Nat}
    (hroot : Source.place files config.sourceRoot = .ok root)
    (hbelow : textsBelow files root size [root] root [] = paths)
    (hsize : (files.entries.length + 1) * (files.entries.length + 1) = size) :
    Discover.all files config = .ok (paths.flatMap fun path => (examine files root path).1,
      paths.flatMap fun path => (examine files root path).2) := by
  subst hsize hbelow
  refine bind_eq_ok_iff.2 ⟨root, hroot, ?_⟩
  dsimp only
  rw [List.flatMap_map, List.flatMap_map]
  rfl

theorem examine_of_read {text : Text} (hc : candidate? path = some name)
    (hr : files.read (Location.path (root ++ path)) = .ok text) :
    examine files root path = (if Layout.hasParent text then [name] else [], []) := by
  rw [examine, hc]
  dsimp only
  rw [hr]

end
end Discover

namespace Compiler
open FileSystem

/-- Discovery gives every name once, for a file of its own, and no output stands on the way to another
one. As long as nothing changes in the source root, a name is loaded from its file exactly if it means
itself as a reference: it has no backslash, no white space at its ends, and no extension. Then it is
compiled from the text of its file, and its output stands in the output root where its file stands in
the source root. -/
theorem load_discovered_iff {compiler : Compiler} {files : FileSystem} {root : Location}
    {found : List Text} {log : List LogLine} (tree : files.IsTree) (hlinks : files.HasNoLinks root)
    (hroot : Source.place files compiler.config.sourceRoot = .ok root)
    (hall : Discover.all files compiler.config = .ok (found, log)) :
    found.Nodup ∧ ∀ name ∈ found,
      let path := names (name ++ extension)
      (∀ other ∈ found, name ≠ other → Discover.Apart path (names (other ++ extension))) ∧
      (templateName name = name ↔
        '\\' ∉ name ∧ Text.trim name = name ∧ ¬ extension <:+ name) ∧
      ∃ text, Discover.Finds files root name path text ∧ ∀ now : FileSystem, now.IsTree →
        SameBelow root files now → Source.place now compiler.config.sourceRoot = .ok root →
          let template : Template := ⟨name, root ++ path, text⟩
          (Source.load now compiler.config name = .ok template ↔ templateName name = name) ∧
          (templateName name = name → ∀ nonce base missing, now.IsClear base (missing ++ path) →
            HasOutputRoot compiler.config now base missing →
              let outcome := compiler.compile now nonce name true
              ∀ compiled, outcome.result = .ok compiled →
                (∃ joined, source compiler.config now name = .ok (template, joined) ∧ compiled =
                  ⟨name, (Render.template nonce name (compiler.loadStylesheet now).1 joined).1⟩) ∧
                outcome.files.entry? (lexical base missing ++ path) =
                  some (.file (.text compiled.html))) := by
  obtain ⟨hnodup, howns, hapart⟩ := Discover.exists_candidates tree hroot hall
  refine ⟨hnodup, fun name hm => ?_⟩
  obtain ⟨text, hfound⟩ := Discover.exists_finds tree hlinks hroot hall hm
  refine ⟨fun other ho => hapart name hm other ho, ?_, text, hfound, fun now htree hsame hnow => ?_⟩
  · have hrelative : isAbsolute name = false := by
      have habsolute := (howns name hm).isAbsolute_eq_false
      cases name with
      | nil => rfl
      | cons c rest =>
        rw [List.cons_append, isAbsolute_cons] at habsolute
        rw [isAbsolute_cons, habsolute]
    rw [templateName_eq_self_iff]
    simp only [hrelative, true_and]
  · have hfound' := hfound.of_sameBelow hsame
    refine ⟨⟨fun h => (Source.load_eq_ok h).1.symm, hfound'.load htree hnow⟩, ?_⟩
    intro hname nonce base missing hclear houtput outcome compiled hcompiled
    have hload := hfound'.load htree hnow hname
    constructor
    · obtain ⟨template, joined, hsource, rfl⟩ := compile_eq_ok hcompiled
      obtain ⟨_, hloaded, -⟩ := source_eq_ok hsource
      cases hload.symm.trans hloaded
      exact ⟨joined, hsource, rfl⟩
    · have hwritten := (entry_compile nonce houtput (hname.symm ▸ hclear)).2 compiled hcompiled
      rwa [hname, lexical_append, lexical_of_isName fun part hp =>
        ((howns name hm).proper part hp).1] at hwritten

def heir : Text := "\x7b% extends 'c' %\x7d".toList

theorem hasParent_heir : Layout.hasParent heir = true := by decide +kernel

theorem examine_heir {files : FileSystem} {root : Location} {path : List Text} {name : Text}
    (hc : Discover.candidate? path = some name)
    (hr : files.read (Location.path (root ++ path)) = .ok heir) :
    Discover.examine files root path = ([name], []) := by
  rw [Discover.examine_of_read hc hr, if_pos hasParent_heir]

theorem load_discovered_nested :
    let files := mirroredFiles [([['s'], "a.njk".toList], .file (.text heir)),
      ([['s'], ['x']], .directory), ([['s'], ['x'], "a.njk".toList], .file (.text heir)),
      ([['s'], "_c.njk".toList], .file (.text "<br/>".toList))]
    Discover.all files mirrored = .ok ([['a'], "x/a".toList], []) ∧
      Source.load files mirrored ['a'] = .ok ⟨['a'], [['s'], "a.njk".toList], heir⟩ ∧
      Source.load files mirrored "x/a".toList =
        .ok ⟨"x/a".toList, [['s'], ['x'], "a.njk".toList], heir⟩ := by
  intro files
  have tree : files.IsTree := isTree_of_forall (by decide) (by decide) (by decide)
  have hlinks : files.HasNoLinks [['s']] := hasNoLinks_of_forall (by simp [files, mirroredFiles]) _
  have hroot : Source.place files mirrored.sourceRoot = .ok [['s']] := by cbv
  have hbelow : ∀ n, Discover.textsBelow files [['s']] (n + 2) [[['s']]] [['s']] [] =
      [["_c.njk".toList], ["a.njk".toList], [['x'], "a.njk".toList]] := fun n => by cbv
  have hlayout : Discover.examine files [['s']] ["_c.njk".toList] = ([], []) := by cbv
  have hfirst : Discover.examine files [['s']] ["a.njk".toList] = ([['a']], []) :=
    examine_heir (by decide) (by cbv)
  have hsecond : Discover.examine files [['s']] [['x'], "a.njk".toList] = (["x/a".toList], []) :=
    examine_heir (by decide) (by cbv)
  have hall : Discover.all files mirrored = .ok ([['a'], "x/a".toList], []) := by
    rw [Discover.all_of_textsBelow hroot (hbelow 47) rfl]
    simp only [List.flatMap_cons, List.flatMap_nil, hlayout, hfirst, hsecond]
    rfl
  have hall' : Discover.all files (ofConfig mirrored).config = .ok ([['a'], "x/a".toList], []) := hall
  obtain ⟨-, hfound⟩ := load_discovered_iff tree hlinks hroot hall'
  have hload : ∀ name ∈ [['a'], "x/a".toList], templateName name = name →
      ∀ path, names (name ++ extension) = path → files.entry? ([['s']] ++ path) = some (.file (.text heir)) →
        Source.load files mirrored name = .ok ⟨name, [['s']] ++ path, heir⟩ := by
    rintro name hm hname path rfl hentry
    obtain ⟨-, -, text, hfinds, hnow⟩ := hfound name hm
    cases hentry.symm.trans hfinds.entry
    exact (hnow files tree (fun _ _ => rfl) hroot).1.2 hname
  exact ⟨hall, hload ['a'] (by simp) (by cbv) _ (by cbv) (by cbv),
    hload "x/a".toList (by simp) (by cbv) _ (by cbv) (by cbv)⟩

/-- A file whose name has the extension twice: its template is looked for under a shorter name. -/
theorem load_discovered_renamed :
    let files := mirroredFiles [([['s'], "a.njk.njk".toList], .file (.text heir))]
    files.IsTree ∧ files.HasNoLinks [['s']] ∧
      Source.place files mirrored.sourceRoot = .ok [['s']] ∧
      Discover.all files mirrored = .ok (["a.njk".toList], []) ∧
      Source.load files mirrored "a.njk".toList = .error (.notFound ['a']) := by
  intro files
  have tree : files.IsTree := isTree_of_forall (by decide) (by decide) (by decide)
  have hlinks : files.HasNoLinks [['s']] := hasNoLinks_of_forall (by simp [files, mirroredFiles]) _
  have hroot : Source.place files mirrored.sourceRoot = .ok [['s']] := by cbv
  have hbelow : ∀ n, Discover.textsBelow files [['s']] (n + 1) [[['s']]] [['s']] [] =
      [["a.njk.njk".toList]] := fun n => by cbv
  have honly : Discover.examine files [['s']] ["a.njk.njk".toList] = (["a.njk".toList], []) :=
    examine_heir (by decide) (by cbv)
  refine ⟨tree, hlinks, hroot, ?_, by cbv⟩
  rw [Discover.all_of_textsBelow hroot (hbelow 15) rfl]
  simp only [List.flatMap_cons, List.flatMap_nil, honly]
  rfl

end Compiler
end MailTemplate
