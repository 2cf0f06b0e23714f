import MailTemplate.Proofs.Files.Making

/-! When a file can be written with the directories on the way to it, and what that changes. It can be
written exactly if nothing but directories stands on that way, and no directory at its place. -/

namespace MailTemplate
namespace FileSystem
open MailTemplate.Path

section
variable {files later : FileSystem} {base place : Location} {front rest : List Text} {path : Text}
  {contents : Contents}

theorem write_eq_ok_iff : files.write path contents = .ok later ↔ checkPath path = .ok () ∧
    ∃ location, files.walk .create maxLinks (files.start path) (Path.parts path) = .ok location ∧
      files.isDirectoryAt location = false ∧ later = files.put location (.file contents) := by
  constructor
  · intro h
    obtain ⟨_, hcheck, h⟩ := bind_eq_ok_iff.1 h
    obtain ⟨location, hwalk, h⟩ := bind_eq_ok_iff.1 h
    split at h
    · cases h
    · next hd =>
      cases h
      exact ⟨hcheck, location, hwalk, by simpa using hd, rfl⟩
  · rintro ⟨hcheck, location, hwalk, hd, rfl⟩
    refine bind_eq_ok_iff.2 ⟨(), hcheck, bind_eq_ok_iff.2 ⟨location, hwalk, ?_⟩⟩
    rw [hd]
    rfl

/-- A file is written where the names of its path lead to, beyond a way that is there. -/
theorem entry_write {before : List Text} {name : Text} (hb : files.Leads (files.start path) front base)
    (hc : files.IsClear base rest) (hr : rest ≠ []) (hp : names path = front ++ rest)
    (hparts : Path.parts path = before ++ [name]) (hname : IsName name)
    (h : files.write path contents = .ok later) (place : Location) :
    later.entry? place =
      if place = lexical base rest then some (.file contents) else files.entry? place := by
  obtain ⟨-, location, hwalk, -, rfl⟩ := write_eq_ok_iff.1 h
  rw [hparts] at hwalk
  obtain ⟨middle, hmiddle, -, hlast⟩ := leads_of_walk_create hname hwalk
  obtain ⟨inside, last, rfl⟩ := (List.eq_nil_or_concat' rest).resolve_left hr
  have hkept : [name].filter (fun part => part != [] && part != ['.']) = [name] := by
    simp [hname.1, hname.2.1]
  rw [names, hparts, List.filter_append, hkept, ← List.append_assoc] at hp
  obtain ⟨hbefore, hlastname⟩ := List.append_inj' hp rfl
  cases hlastname
  have hinside : middle = lexical base inside :=
    (hb.append_iff.1 (hbefore ▸ hmiddle.filter)).eq_lexical (hc.of_isPrefix (List.prefix_append _ _))
  have hend : lexical base (inside ++ [name]) = middle ++ [name] := by
    rw [lexical_append, lexical_cons, lexical_nil, step_of_isName hname, hinside]
  rcases hlast with ⟨target, hlink⟩ | rfl
  · exact absurd (hend ▸ hlink) (hc _ List.prefix_rfl target)
  · rw [entry_put (by simp), hend]

/-- The directories on the way to a file appear on that way, beyond what is there. -/
theorem grown_makeParents (hb : files.Leads (files.start path) front base)
    (hc : files.IsClear base rest) (hr : rest ≠ []) (hp : names path = front ++ rest) :
    Grown (OnWay base rest.dropLast) files (files.makeParents path).1 := by
  rw [makeParents]
  split
  · next parent hparent =>
    have hstart : files.start parent = files.start path := by
      rw [FileSystem.start, FileSystem.start, isAbsolute_parent? hparent]
    refine grown_makeDirectories _ (hstart ▸ hb) (hc.of_isPrefix (List.dropLast_prefix _)) ?_
    rw [names_parent? hparent, hp, List.dropLast_append_of_ne_nil hr]
  · exact .refl _ _

/-- Writing a file with the directories on the way to it adds directories on that way, beyond what is
there already, and changes the place that the way leads to. -/
theorem entry_writeDeep {before : List Text} {name : Text}
    (hb : files.Leads (files.start path) front base) (hc : files.IsClear base rest) (hr : rest ≠ [])
    (hp : names path = front ++ rest) (hparts : Path.parts path = before ++ [name])
    (hname : IsName name) (contents : Contents) :
    (∀ place, entry? (files.writeDeep path contents).1 place = files.entry? place ∨
      place = lexical base rest ∧ (files.writeDeep path contents).2 = .ok () ∨
      OnWay base rest.dropLast place ∧ files.entry? place = none ∧
        entry? (files.writeDeep path contents).1 place = some .directory) ∧
      ((files.writeDeep path contents).2 = .ok () →
        entry? (files.writeDeep path contents).1 (lexical base rest) = some (.file contents)) := by
  have hgrown := grown_makeParents hb hc hr hp
  rw [writeDeep]
  split
  · next made cause hmade =>
    rw [hmade] at hgrown
    refine ⟨fun place => (hgrown.entries place).imp_right .inr, fun h => ?_⟩
    cases h
  · next made hmade =>
    rw [hmade] at hgrown
    split
    · next later hwritten =>
      have hentry := entry_write (by rw [hgrown.start]; exact hgrown.leads hb)
        (hgrown.isClear hc) hr hp hparts hname hwritten
      refine ⟨fun place => ?_, fun _ => by rw [hentry, if_pos rfl]⟩
      by_cases hplace : place = lexical base rest
      · exact .inr (.inl ⟨hplace, rfl⟩)
      · rw [hentry, if_neg hplace]
        exact (hgrown.entries place).imp_right .inr
    · refine ⟨fun place => (hgrown.entries place).imp_right .inr, fun h => ?_⟩
      cases h

theorem current_writeDeep (hb : files.Leads (files.start path) front base)
    (hc : files.IsClear base rest) (hr : rest ≠ []) (hp : names path = front ++ rest)
    (contents : Contents) : (files.writeDeep path contents).1.current = files.current := by
  have hgrown := grown_makeParents hb hc hr hp
  rw [writeDeep]
  split
  · next made cause hmade =>
    rw [hmade] at hgrown
    exact hgrown.current
  · next made hmade =>
    rw [hmade] at hgrown
    split
    · next later hwritten =>
      obtain ⟨-, location, -, -, rfl⟩ := write_eq_ok_iff.1 hwritten
      rw [current_put]
      exact hgrown.current
    · exact hgrown.current

theorem Leads.isDirectoryAt_onWay {parts : List Text} {result : Location}
    (h : files.Leads base parts result) (hc : files.IsClear base parts)
    (hd : files.isDirectoryAt result = true) (hon : OnWay base parts place) :
    files.isDirectoryAt place = true := by
  obtain ⟨way, ⟨more, rfl⟩, rfl⟩ := hon
  obtain ⟨middle, hway, hmore⟩ := h.exists_middle
  rw [← hway.eq_lexical (hc.of_isPrefix (List.prefix_append _ _))]
  cases hmore with
  | here => exact hd
  | on hnext _ =>
    by_contra hn
    rw [next?, if_pos (by simpa using hn)] at hnext
    cases hnext

/-- The place of a file to be written is the one its name has in the directory the way leads to. -/
theorem walk_create_concat {start above : Location} {before : List Text} {name : Text}
    (hwalk : files.walk .find maxLinks start before = .ok above)
    (hd : files.isDirectoryAt above = true) (hname : IsName name)
    (hshort : Text.byteSize name ≤ maxName)
    (hlink : ∀ target, files.entry? (above ++ [name]) ≠ some (.link target))
    (hfree : files.isDirectoryAt (above ++ [name]) = false) :
    files.walk .create maxLinks start (before ++ [name]) = .ok (above ++ [name]) := by
  obtain ⟨left, hon⟩ := walk_append_of_ok hwalk
  have hfits : ¬ decide (maxName < Text.byteSize name) = true := by simpa using hshort
  rw [hon .create [name] (by decide) fun _ => ⟨name, List.mem_singleton_self _, hname.1⟩,
    walk_of_isName hd hname, if_neg (by simp), isTooLong_eq (by decide), if_neg hfits]
  cases hentry : files.entry? (above ++ [name]) with
  | none => exact if_pos ⟨rfl, rfl⟩
  | some entry =>
    cases entry with
    | link target => exact absurd hentry (hlink target)
    | directory =>
      rw [isDirectoryAt, hentry] at hfree
      cases hfree
    | file contents => rw [walk]

/-- A file can be written: its path is one and no name is too long, nothing but directories is in the
way, and there is none at the place itself, now or once those on the way are made. -/
structure IsWritable (files : FileSystem) (path : Text) (base : Location) (rest : List Text) : Prop where
  fits : checkPath path = .ok ()
  short : ∀ name ∈ rest, Text.byteSize name ≤ maxName
  passable : files.IsPassable base rest.dropLast
  apart : ¬ OnWay base rest.dropLast (lexical base rest)
  free : files.isDirectoryAt (lexical base rest) = false

section
variable {before : List Text} {name : Text}

theorem named_eq_of_parts (hr : rest ≠ []) (hp : names path = front ++ rest)
    (hparts : Path.parts path = before ++ [name]) (hname : IsName name) :
    named before = front ++ rest.dropLast ∧ rest = rest.dropLast ++ [name] := by
  obtain ⟨inside, last, rfl⟩ := (List.eq_nil_or_concat' rest).resolve_left hr
  rw [names_of_parts hparts hname.1 hname.2.1, ← List.append_assoc] at hp
  obtain ⟨hbefore, hlast⟩ := List.append_inj' hp rfl
  rw [List.dropLast_concat]
  exact ⟨hbefore, congrArg _ hlast.symm⟩

theorem lexical_eq_concat (hrest : rest = rest.dropLast ++ [name]) (hname : IsName name) :
    lexical base rest = lexical base rest.dropLast ++ [name] := by
  conv => lhs; rw [hrest]
  rw [lexical_append, lexical_cons, lexical_nil, step_of_isName hname]

variable (hb : files.walk .find maxLinks (files.start path) front = .ok base)
  (hc : files.IsClear base rest) (hr : rest ≠ []) (hp : names path = front ++ rest)
  (hparts : Path.parts path = before ++ [name]) (hname : IsName name)
include hb hc hr hp hparts hname

theorem isWritable_of_writeDeep (h : (files.writeDeep path contents).2 = .ok ()) :
    files.IsWritable path base rest := by
  have hleads : files.Leads (files.start path) front base := leads_of_walk (by decide) hb
  obtain ⟨hnamed, hrest⟩ := named_eq_of_parts hr hp hparts hname
  have hgrown := grown_makeParents hleads hc hr hp
  rw [writeDeep] at h
  split at h
  · cases h
  · next made hmade =>
    rw [hmade] at hgrown
    split at h
    · next later hwritten =>
      obtain ⟨hfits, location, hwalk, hfree, -⟩ := write_eq_ok_iff.1 hwritten
      have hshort : ∀ part ∈ rest, Text.byteSize part ≤ maxName := fun part hm =>
        byteSize_le_of_walk hwalk (List.mem_of_mem_filter (hp ▸ List.mem_append_right front hm))
      rw [hparts] at hwalk
      obtain ⟨middle, hmiddle, hd, hlast⟩ := leads_of_walk_create hname hwalk
      have hclear : made.IsClear base rest := hgrown.isClear hc
      have hway : made.Leads base rest.dropLast middle := by
        have hfilter := hmiddle.filter
        rw [← named, hnamed, hgrown.start] at hfilter
        exact (hgrown.leads hleads).append_iff.1 hfilter
      have habove : middle = lexical base rest.dropLast :=
        hway.eq_lexical (hclear.of_isPrefix (List.dropLast_prefix _))
      have hend : lexical base rest = middle ++ [name] := by
        rw [lexical_eq_concat hrest hname, habove]
      have hplace : location = lexical base rest := by
        rcases hlast with ⟨target, hlink⟩ | rfl
        · exact absurd (hend ▸ hlink) (hclear _ List.prefix_rfl target)
        · exact hend.symm
      have hdirs : ∀ place, OnWay base rest.dropLast place → made.isDirectoryAt place = true :=
        fun place => hway.isDirectoryAt_onWay (hclear.of_isPrefix (List.dropLast_prefix _)) hd
      rw [hplace] at hfree
      refine ⟨hfits, hshort, fun place hon => ?_, fun hon => ?_, ?_⟩
      · rcases hgrown.entries place with he | ⟨-, hnone, -⟩
        · exact .inr (by rw [isDirectoryAt, ← he]; exact hdirs place hon)
        · exact .inl hnone
      · cases (hdirs _ hon).symm.trans hfree
      · refine Bool.eq_false_iff.2 fun hdir => ?_
        cases (hgrown.isDirectoryAt hdir).symm.trans hfree
    · cases h

theorem writeDeep_of_isWritable (hrooted : files.IsRooted) (he : files.entry? base ≠ none)
    (h : files.IsWritable path base rest) : (files.writeDeep path contents).2 = .ok () := by
  have hleads : files.Leads (files.start path) front base := leads_of_walk (by decide) hb
  obtain ⟨hnamed, hrest⟩ := named_eq_of_parts hr hp hparts hname
  have hbase : files.isDirectoryAt base = true :=
    (h.passable base ⟨[], List.nil_prefix, rfl⟩).resolve_left he
  have hclear : files.IsClear base rest.dropLast := hc.of_isPrefix (List.dropLast_prefix _)
  have hmem : ∀ part ∈ rest.dropLast, part ≠ [] ∧ part ≠ ['.'] ∧ Text.byteSize part ≤ maxName := by
    intro part hm
    have hpart := List.dropLast_subset _ hm
    obtain ⟨hne, hdot⟩ := mem_names (hp ▸ List.mem_append_right front hpart)
    exact ⟨hne, hdot, h.short part hpart⟩
  have hfull : names path ≠ [] := by simp [hp, hr]
  obtain ⟨parent, hparent⟩ := exists_parent? hfull
  have hstart : files.start parent = files.start path := by
    rw [FileSystem.start, FileSystem.start, isAbsolute_parent? hparent]
  have habove : names parent = front ++ rest.dropLast := by
    rw [names_parent? hparent, hp, List.dropLast_append_of_ne_nil hr]
  obtain ⟨made, hmade, hdirs⟩ := makeDirectories_of_isPassable (parent.length + 1) (Nat.lt_succ_self _)
    hrooted hbase (hstart ▸ hb) hclear h.passable hmem habove
    (checkPath_of_isPrefix h.fits (prefix_of_parent? hparent)) (endsInName_parent? hparent)
  have hparents : files.makeParents path = (made, .ok ()) := by
    rw [makeParents, hparent]
    exact hmade
  have hgrown := grown_makeParents hleads hc hr hp
  have hmaderooted := hrooted.makeDirectories parent (parent.length + 1)
  rw [hparents] at hgrown
  rw [hmade] at hmaderooted
  -- the way to the file is there now, and at its end there is a file or nothing
  have hfirst : made.walk .find maxLinks (made.start path) before = .ok (lexical base rest.dropLast) := by
    rcases walk_parts_of_isPassable hmaderooted (hgrown.isDirectoryAt hbase)
      (hgrown.walk_of_ok hrooted hbase hb) (h.passable.grown hgrown) hmem hnamed with
      ⟨hok, -⟩ | ⟨-, place, hon, hnone⟩
    · exact hok
    · have hd := hdirs place hon
      rw [isDirectoryAt, hnone] at hd
      cases hd
  have hd : made.isDirectoryAt (lexical base rest.dropLast) = true := hdirs _ ⟨_, List.prefix_rfl, rfl⟩
  have hend : lexical base rest = lexical base rest.dropLast ++ [name] := lexical_eq_concat hrest hname
  have hfree : made.isDirectoryAt (lexical base rest) = false := by
    rcases hgrown.entries (lexical base rest) with he | ⟨hon, -, -⟩
    · rw [isDirectoryAt, he]
      exact h.free
    · exact absurd hon h.apart
  have hwalk : made.walk .create maxLinks (made.start path) (Path.parts path) =
      .ok (lexical base rest) := by
    rw [hparts, hend]
    refine walk_create_concat hfirst hd hname (h.short name (by rw [hrest]; simp)) ?_ (hend ▸ hfree)
    exact fun target => hend ▸ hgrown.isClear hc _ List.prefix_rfl target
  have hwritten : made.write path contents = .ok (made.put (lexical base rest) (.file contents)) :=
    write_eq_ok_iff.2 ⟨h.fits, _, hwalk, hfree, rfl⟩
  rw [writeDeep, hparents]
  dsimp only
  rw [hwritten]

end

theorem IsRooted.writeDeep (h : files.IsRooted) (path : Text) (contents : Contents) :
    IsRooted (files.writeDeep path contents).1 := by
  have hparents : (files.makeParents path).1.IsRooted := by
    rw [makeParents]
    split
    · exact h.makeDirectories _ _
    · exact h
  rw [FileSystem.writeDeep]
  split
  · next hmade =>
    rw [hmade] at hparents
    exact hparents
  · next made hmade =>
    rw [hmade] at hparents
    split
    · next later hwritten =>
      obtain ⟨-, location, -, hd, rfl⟩ := write_eq_ok_iff.1 hwritten
      refine hparents.put_file ?_ hd
      rintro rfl
      cases hd
    · exact hparents

end

end FileSystem
end MailTemplate
