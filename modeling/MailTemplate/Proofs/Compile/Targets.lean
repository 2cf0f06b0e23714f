import MailTemplate.Proofs.Compile.VisitOrder

/-! What discovery finds. Without links, the visit comes to every file whose directories can be listed by
their paths, and to nothing else. A file is a template by its names alone, and one that is found by its
text as well. What cannot be read, or has a path that is too long, leaves a line in the log. -/

namespace MailTemplate
open MailTemplate.Path

namespace Discover

section
variable {files : FileSystem} {config : Config} {root here : Location} {fuel : Nat}
  {visiting : List Location} {names path : List Text} {name : Text}

/-- The names on the way to a file that is compiled on its own, the last one without the extension: there
is something in front of the extension, which does not begin with an underscore, and no name, extension
included, is one of a layout or of a part. -/
structure IsTarget (folders : List Text) (stem : Text) : Prop where
  named : stem ≠ []
  visible : stem.head? ≠ some '_'
  own : ∀ part ∈ folders ++ [stem ++ extension],
    ¬ "layout".toList <:+: part ∧ ¬ "part".toList <:+: part

theorem isShared_eq_false_iff : isShared name = false ↔
    ¬ "layout".toList <:+: name ∧ ¬ "part".toList <:+: name := by
  rw [isShared, Bool.or_eq_false_iff, Text.contains, Text.contains, Option.isSome_eq_false_iff,
    Option.isSome_eq_false_iff, Option.isNone_iff_eq_none, Option.isNone_iff_eq_none,
    Text.cut?_eq_none_iff (by decide), Text.cut?_eq_none_iff (by decide)]

/-- A name has the extension of templates if it ends in it and has something in front of it. -/
theorem extension?_eq_some_iff :
    extension? name = some extension ↔ ∃ stem, stem ≠ [] ∧ name = stem ++ extension := by
  constructor
  · intro h
    have hreverse := List.takeWhile_append_dropWhile (p := (· != '.')) (l := name.reverse)
    unfold extension? at h
    generalize name.reverse.takeWhile (· != '.') = back at h hreverse
    generalize name.reverse.dropWhile (· != '.') = front at h hreverse
    split at h
    · next c rest =>
      have hname : name = (c :: rest).reverse ++ ('.' :: back.reverse) := by
        rw [← List.reverse_reverse name, ← hreverse]
        simp
      rw [Option.some.inj h] at hname
      exact ⟨_, by simp, hname⟩
    · cases h
  · rintro ⟨stem, hne, rfl⟩
    obtain ⟨c, rest, hrest⟩ := List.exists_cons_of_ne_nil (List.reverse_ne_nil_iff.2 hne)
    have hreverse : (stem ++ extension).reverse = 'k' :: 'j' :: 'n' :: '.' :: c :: rest := by
      rw [List.reverse_append, hrest]
      rfl
    rw [extension?, hreverse]
    rfl

theorem joinWith_concat_append (folders : List Text) (stem mark : Text) :
    Text.joinWith ['/'] (folders ++ [stem ++ mark]) = Text.joinWith ['/'] (folders ++ [stem]) ++ mark := by
  cases folders with
  | nil => rfl
  | cons folder folders =>
    rw [Text.joinWith_append (by simp) (by simp), Text.joinWith_append (by simp) (by simp)]
    simp [Text.joinWith]

theorem candidate?_eq_some_iff : candidate? path = some name ↔ ∃ folders stem,
    path = folders ++ [stem ++ extension] ∧ name = Text.joinWith ['/'] (folders ++ [stem]) ∧
      IsTarget folders stem := by
  have hhead : ∀ {stem : Text}, stem ≠ [] → (stem ++ extension).head? = stem.head? := by
    intro stem hne
    obtain ⟨c, rest, rfl⟩ := List.exists_cons_of_ne_nil hne
    rfl
  have hshared : path.any isShared = false ↔
      ∀ part ∈ path, ¬ "layout".toList <:+: part ∧ ¬ "part".toList <:+: part := by
    rw [List.any_eq_false]
    exact forall₂_congr fun part _ => by rw [Bool.not_eq_true, isShared_eq_false_iff]
  constructor
  · intro h
    obtain ⟨last, hlast, h⟩ := Option.bind_eq_some_iff.1 h
    obtain ⟨folders, rfl⟩ := List.getLast?_eq_some_iff.1 hlast
    split at h
    · cases h
    · next hextension =>
      obtain ⟨stem, hne, rfl⟩ := extension?_eq_some_iff.1 (not_not.1 hextension)
      split at h
      · cases h
      · next hvisible =>
        split at h
        · cases h
        · next hown =>
          rw [hhead hne] at hvisible
          rw [joinWith_concat_append] at h
          have hname := Text.beforeEnd?_eq_some_iff.1 h
          exact ⟨folders, stem, rfl, (List.append_cancel_right hname).symm, hne, hvisible,
            hshared.1 (Bool.eq_false_iff.2 hown)⟩
  · rintro ⟨folders, stem, rfl, rfl, hne, hvisible, hown⟩
    have hlast : (folders ++ [stem ++ extension]).getLast? = some (stem ++ extension) := by simp
    refine Option.bind_eq_some_iff.2 ⟨_, hlast, ?_⟩
    rw [if_neg (not_not.2 (extension?_eq_some_iff.2 ⟨stem, hne, rfl⟩)), hhead hne, if_neg hvisible,
      if_neg (Bool.eq_false_iff.1 (hshared.2 hown)), joinWith_concat_append]
    exact Text.beforeEnd?_eq_some_iff.2 rfl

variable (root) in
/-- A directory below the root that can be listed: its path is not too long. The root itself is listed
where it was found. -/
def IsListed (folders : List Text) : Prop := folders = [] ∨ (root ++ folders).Fits

/-- The paths of the directories above one that can be listed are not too long either. -/
theorem isListed_iff (folders : List Text) (name : Text) : IsListed root folders ↔
    ∀ front, front <+: folders ++ [name] → front ≠ [] → front ≠ folders ++ [name] →
      (root ++ front).Fits := by
  constructor
  · rintro hlisted front hf hne hall
    obtain ⟨more, rfl⟩ := (List.prefix_concat_iff.1 hf).resolve_left hall
    rcases hlisted with hempty | hfits
    · exact absurd (List.append_eq_nil_iff.1 hempty).1 hne
    · rw [← List.append_assoc] at hfits
      exact hfits.of_append
  · intro h
    by_cases hf : folders = []
    · exact .inl hf
    · exact .inr (h folders (List.prefix_append _ _) hf (by simp))

variable (files root) in
abbrev examined : List (List Text) :=
  textsBelow files root ((files.entries.length + 1) * (files.entries.length + 1)) [root] root []

theorem mem_examined_iff (tree : files.IsTree) (hlinks : files.HasNoLinks root) :
    path ∈ examined files root ↔ ∃ folders name, path = folders ++ [name] ∧ IsListed root folders ∧
      ∃ contents, files.entry? (root ++ path) = some (.file contents) := by
  rw [mem_textsBelow_iff tree hlinks (List.append_nil root).symm]
  constructor
  · rintro ⟨more, hpath, hne, -, hfile, hfits⟩
    obtain ⟨folders, name, rfl⟩ := (List.eq_nil_or_concat' more).resolve_left hne
    exact ⟨folders, name, hpath, (isListed_iff folders name).2 hfits, hfile⟩
  · rintro ⟨folders, name, rfl, hlisted, contents, hfile⟩
    refine ⟨_, rfl, by simp, ?_, ⟨contents, hfile⟩, (isListed_iff folders name).1 hlisted⟩
    have hlength := tree.length_le hfile
    rw [List.length_append] at hlength
    calc (folders ++ [name]).length ≤ files.entries.length + 1 := by omega
      _ ≤ _ := Nat.le_mul_self _

variable (files root) in
/-- A file that is a template by its name, but not found: it has no text, or its path is too long. -/
def IsUnread (path : List Text) : Prop :=
  ∃ folders stem contents, path = folders ++ [stem ++ extension] ∧ IsTarget folders stem ∧
    IsListed root folders ∧ files.entry? (root ++ path) = some (.file contents) ∧
      ¬ ((root ++ path).Fits ∧ ∃ text, contents = .text text)

variable (files root) in
/-- The warning that a file cannot be read. -/
def Warns (path : List Text) (line : LogLine) : Prop :=
  ∃ cause, files.read (Location.path (root ++ path)) = .error cause ∧
    line = ⟨.warning, "skipping ".toList ++ Location.path (root ++ path) ++ ": ".toList ++ cause.message⟩

/-- An examined file leaves a line in the log if it is a template by its name and cannot be read. -/
theorem snd_examine_ne_nil_iff : (examine files root path).2 ≠ [] ↔
    (∃ name, candidate? path = some name) ∧
      ∃ cause, files.read (Location.path (root ++ path)) = .error cause := by
  unfold examine
  cases candidate? path with
  | none => simp
  | some name =>
    dsimp only
    cases files.read (Location.path (root ++ path)) <;> simp

theorem exists_warns (h : (examine files root path).2 ≠ []) :
    ∃ line, (examine files root path).2 = [line] ∧ Warns files root path line := by
  obtain ⟨⟨name, hc⟩, cause, hr⟩ := snd_examine_ne_nil_iff.1 h
  refine ⟨_, ?_, cause, hr, rfl⟩
  rw [examine, hc]
  dsimp only
  rw [hr]

theorem forall₂_warns (paths : List (List Text)) :
    List.Forall₂ (Warns files root) (paths.filter fun path => (examine files root path).2 ≠ [])
      (paths.flatMap fun path => (examine files root path).2) := by
  induction paths with
  | nil => exact .nil
  | cons path paths ih =>
    rw [List.flatMap_cons]
    by_cases hline : (examine files root path).2 = []
    · rw [List.filter_cons_of_neg (by simpa using hline), hline]
      exact ih
    · obtain ⟨line, hone, hwarns⟩ := exists_warns hline
      rw [List.filter_cons_of_pos (by simpa using hline), hone]
      exact .cons hwarns ih

section
variable (tree : files.IsTree) (hlinks : files.HasNoLinks root)
include tree hlinks

/-- A template is found if it is a template by its name and its text, and its path is not too long. -/
theorem mem_found_iff : name ∈ (examined files root).flatMap (fun path => (examine files root path).1) ↔
    ∃ folders stem text, name = Text.joinWith ['/'] (folders ++ [stem]) ∧ IsTarget folders stem ∧
      files.entry? (root ++ (folders ++ [stem ++ extension])) = some (.file (.text text)) ∧
        Layout.hasParent text = true ∧ (root ++ (folders ++ [stem ++ extension])).Fits := by
  simp only [List.mem_flatMap, mem_examine_iff, mem_examined_iff tree hlinks, candidate?_eq_some_iff]
  constructor
  · rintro ⟨path, ⟨-, -, -, -, contents, hfile⟩, ⟨folders, stem, rfl, hname, htarget⟩, text, hread, hparent⟩
    obtain ⟨hfits, hentry⟩ := (tree.read_path_eq_ok_iff (by simp) hfile fun _ => Entry.noConfusion).1 hread
    exact ⟨folders, stem, text, hname, htarget, hentry, hparent, hfits⟩
  · rintro ⟨folders, stem, text, hname, htarget, hentry, hparent, hfits⟩
    have hlisted : IsListed root folders := by
      rw [← List.append_assoc] at hfits
      exact .inr hfits.of_append
    exact ⟨_, ⟨folders, _, rfl, hlisted, _, hentry⟩, ⟨folders, stem, rfl, hname, htarget⟩, text,
      (tree.read_path_eq_ok_iff (by simp) hentry fun _ => Entry.noConfusion).2 ⟨hfits, hentry⟩, hparent⟩

theorem mem_unread_iff : path ∈ (examined files root).filter (fun path => (examine files root path).2 ≠ []) ↔
    IsUnread files root path := by
  simp only [List.mem_filter, decide_eq_true_eq, snd_examine_ne_nil_iff, mem_examined_iff tree hlinks,
    candidate?_eq_some_iff]
  have hread : ∀ {contents}, path ≠ [] → files.entry? (root ++ path) = some (.file contents) →
      ((∃ cause, files.read (Location.path (root ++ path)) = .error cause) ↔
        ¬ ((root ++ path).Fits ∧ ∃ text, contents = .text text)) := by
    intro contents hne hfile
    have hok : ∀ text, files.read (Location.path (root ++ path)) = .ok text ↔
        (root ++ path).Fits ∧ files.entry? (root ++ path) = some (.file (.text text)) := fun text =>
      tree.read_path_eq_ok_iff (by simp [hne]) hfile fun _ => Entry.noConfusion
    rw [hfile] at hok
    cases hr : files.read (Location.path (root ++ path)) with
    | error cause =>
      refine iff_of_true ⟨cause, rfl⟩ ?_
      rintro ⟨hfits, text, rfl⟩
      rw [(hok text).2 ⟨hfits, rfl⟩] at hr
      cases hr
    | ok text =>
      obtain ⟨hfits, hcontents⟩ := (hok text).1 hr
      cases hcontents
      exact iff_of_false (by simp) (not_not.2 ⟨hfits, text, rfl⟩)
  constructor
  · rintro ⟨⟨folders, name, rfl, hlisted, contents, hfile⟩, ⟨_, others, stem, he, -, htarget⟩, hcause⟩
    obtain ⟨rfl, hlast⟩ := List.append_inj' he rfl
    cases hlast
    exact ⟨folders, stem, contents, rfl, htarget, hlisted, hfile, (hread (by simp) hfile).1 hcause⟩
  · rintro ⟨folders, stem, contents, rfl, htarget, hlisted, hfile, hunread⟩
    exact ⟨⟨folders, _, rfl, hlisted, contents, hfile⟩, ⟨_, folders, stem, rfl, rfl, htarget⟩,
      (hread (by simp) hfile).2 hunread⟩

/-- Every template is found once: a file with text that inherits from a layout, at a path that is not too
long, whose names make it a template. Of the other files that are templates by their names, each one in a
directory that can be listed gives one warning. A file behind a name that is no text is passed over. -/
theorem mem_discovered_iff (hroot : Source.place files config.sourceRoot = .ok root) :
    ∃ found log skipped, Discover.all files config = .ok (found, log) ∧ found.Nodup ∧
      (∀ name, name ∈ found ↔ ∃ folders stem text,
        name = Text.joinWith ['/'] (folders ++ [stem]) ∧ IsTarget folders stem ∧
          files.entry? (root ++ (folders ++ [stem ++ extension])) = some (.file (.text text)) ∧
            Layout.hasParent text = true ∧ (root ++ (folders ++ [stem ++ extension])).Fits) ∧
      skipped.Nodup ∧ (∀ path, path ∈ skipped ↔ IsUnread files root path) ∧
        List.Forall₂ (Warns files root) skipped log := by
  have hall := all_of_textsBelow hroot rfl rfl
  have hnodup : (examined files root).Nodup := (pairwise_lt_textsBelow tree).imp ne_of_lt
  exact ⟨_, _, _, hall, (exists_candidates tree hroot hall).1, fun name => mem_found_iff tree hlinks,
    hnodup.filter _, fun path => mem_unread_iff tree hlinks, forall₂_warns _⟩

end
end
end Discover
namespace Compiler
open FileSystem

theorem mem_discovered_unread :
    let files := { mirroredFiles [([['s'], "a.njk".toList], .file (.text heir)),
      ([['s'], ['x']], .directory), ([['s'], ['x'], "b.njk".toList], .file .binary)] with
        unnamed := [([['s']], [.binary])] }
    files.IsTree ∧ files.HasNoLinks [['s']] ∧ Source.place files mirrored.sourceRoot = .ok [['s']] ∧
      ∃ found log skipped, Discover.all files mirrored = .ok (found, log) ∧ ['a'] ∈ found ∧
        [['x'], "b.njk".toList] ∈ skipped ∧
          List.Forall₂ (Discover.Warns files [['s']]) skipped log := by
  intro files
  have tree : files.IsTree := isTree_of_forall (by decide) (by decide) (by decide)
  have hlinks : files.HasNoLinks [['s']] := hasNoLinks_of_forall (by simp [files, mirroredFiles]) _
  have hroot : Source.place files mirrored.sourceRoot = .ok [['s']] := by cbv
  obtain ⟨found, log, skipped, hall, -, hfound, -, hskipped, hlog⟩ :=
    Discover.mem_discovered_iff tree hlinks hroot
  refine ⟨tree, hlinks, hroot, found, log, skipped, hall, (hfound _).2 ?_, (hskipped _).2 ?_, hlog⟩
  · exact ⟨[], ['a'], heir, rfl, ⟨by decide, by decide, by decide⟩, by decide, hasParent_heir,
      by decide, by decide, by decide⟩
  · refine ⟨[['x']], ['b'], .binary, rfl, ⟨by decide, by decide, by decide⟩,
      .inr ⟨by decide, by decide, by decide⟩, by decide, ?_⟩
    rintro ⟨-, text, htext⟩
    cases htext

def deepPlace (depth : Nat) : Location := ['s'] :: List.replicate depth (List.replicate 240 'a')

/-- The name of a template whose path is too long in the innermost of these directories. -/
def deepName : Text := List.replicate 251 'b'

def deepFiles : FileSystem :=
  { entries := (List.range 17).map (fun depth => (deepPlace depth, .directory)) ++
      [(deepPlace 16 ++ [deepName ++ extension], .file (.text heir))]
    current := [] }

theorem deepPlace_succ (depth : Nat) :
    deepPlace (depth + 1) = deepPlace depth ++ [List.replicate 240 'a'] := by
  rw [deepPlace, List.replicate_succ', deepPlace, List.cons_append]

theorem isTree_deepFiles : deepFiles.IsTree := by
  have hlength : ∀ depth, (deepPlace depth).length = depth + 1 := fun depth => by
    rw [deepPlace, List.length_cons, List.length_replicate]
  have distinct : (deepFiles.entries.map (·.1)).Nodup := by
    rw [deepFiles, List.map_append, List.map_map, List.nodup_append]
    refine ⟨(List.nodup_map_iff_inj_on List.nodup_range).2 fun m _ n _ he => ?_,
      List.nodup_singleton _, ?_⟩
    · have := congrArg List.length he
      simp only [Function.comp_apply, hlength] at this
      omega
    · simp only [List.mem_map, List.mem_range, Function.comp_apply, List.map_cons, List.map_nil,
        List.mem_singleton]
      rintro _ ⟨depth, hdepth, rfl⟩ _ rfl he
      have := congrArg List.length he
      rw [List.length_append, hlength, hlength] at this
      simp only [List.length_singleton] at this
      omega
  have hdirectory : ∀ depth < 17, deepFiles.isDirectoryAt (deepPlace depth) = true := by
    intro depth hdepth
    rw [isDirectoryAt, beq_iff_eq]
    refine entry?_of_mem distinct (List.cons_ne_nil _ _) (List.mem_append_left _ ?_)
    exact List.mem_map.2 ⟨depth, List.mem_range.2 hdepth, rfl⟩
  refine ⟨distinct, fun entry hm => ?_, rfl⟩
  rcases List.mem_append.1 hm with hm | hm
  · obtain ⟨depth, hdepth, rfl⟩ := List.mem_map.1 hm
    cases depth with
    | zero => exact ⟨[], ['s'], rfl, by decide, rfl⟩
    | succ depth =>
      rw [List.mem_range] at hdepth
      exact ⟨_, _, deepPlace_succ depth, by decide, hdirectory depth (by omega)⟩
  · obtain rfl := List.mem_singleton.1 hm
    exact ⟨_, _, rfl, by decide, hdirectory 16 (by decide)⟩

theorem not_mem_discovered_deep :
    let config : Config := .ofRoots "/s".toList "/d".toList
    let folders := List.replicate 16 (List.replicate 240 'a')
    deepFiles.IsTree ∧ deepFiles.HasNoLinks [['s']] ∧
      Source.place deepFiles config.sourceRoot = .ok [['s']] ∧
      Discover.IsTarget folders deepName ∧ Layout.hasParent heir = true ∧
      deepFiles.entry? ([['s']] ++ (folders ++ [deepName ++ extension])) = some (.file (.text heir)) ∧
      ∃ found log, Discover.all deepFiles config = .ok (found, log) ∧
        Text.joinWith ['/'] (folders ++ [deepName]) ∉ found := by
  intro config folders
  have hentry : deepFiles.entry? ([['s']] ++ (folders ++ [deepName ++ extension])) =
      some (.file (.text heir)) :=
    entry?_of_mem isTree_deepFiles.distinct (List.cons_ne_nil _ _)
      (List.mem_append_right _ (List.mem_singleton.2 rfl))
  have hdirectory : deepFiles.entry? [['s']] = some .directory :=
    entry?_of_mem isTree_deepFiles.distinct (List.cons_ne_nil _ _)
      (List.mem_append_left _ (List.mem_map.2 ⟨0, by decide, rfl⟩))
  have hroot : Source.place deepFiles config.sourceRoot = .ok [['s']] :=
    Source.place_eq_ok_iff.2 (isTree_deepFiles.follow_path (List.cons_ne_nil _ _) hdirectory
      (fun _ => Entry.noConfusion) ⟨by decide, by decide, by decide⟩)
  have hlinks : deepFiles.HasNoLinks [['s']] := by
    refine hasNoLinks_of_forall (fun entry hm target => ?_) _
    rcases List.mem_append.1 hm with hm | hm
    · obtain ⟨depth, -, rfl⟩ := List.mem_map.1 hm
      exact Entry.noConfusion
    · obtain rfl := List.mem_singleton.1 hm
      exact Entry.noConfusion
  have hown : ∀ part ∈ folders ++ [deepName ++ extension], 'l' ∉ part ∧ 'p' ∉ part := by
    intro part hm
    rcases List.mem_append.1 hm with hm | hm
    · rw [List.eq_of_mem_replicate hm]
      exact ⟨fun h => absurd (List.eq_of_mem_replicate h) (by decide),
        fun h => absurd (List.eq_of_mem_replicate h) (by decide)⟩
    · rw [List.mem_singleton.1 hm]
      decide +kernel
  have htarget : Discover.IsTarget folders deepName :=
    ⟨List.cons_ne_nil _ _, by decide, fun part hm =>
      ⟨fun h => (hown part hm).1 (h.subset (by decide)), fun h => (hown part hm).2 (h.subset (by decide))⟩⟩
  refine ⟨isTree_deepFiles, hlinks, hroot, htarget, hasParent_heir, hentry, _, _,
    Discover.all_of_textsBelow hroot rfl rfl, fun hm => ?_⟩
  obtain ⟨others, stem, text, hname, -, -, -, -, hsize, -⟩ :=
    (Discover.mem_found_iff isTree_deepFiles hlinks).1 hm
  rw [Location.path, Text.joinWith_append (by simp) (by simp), Discover.joinWith_concat_append,
    ← hname] at hsize
  exact absurd hsize (by decide +kernel)

end Compiler
end MailTemplate
