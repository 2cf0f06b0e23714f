import MailTemplate.Proofs.Files.Changed
import MailTemplate.Proofs.Files.Reaching

/-! When directories can be made. They are made where nothing but directories is in the way: the one that
is asked for, after those that are missing above it. Every directory stands in a directory then as
before. -/

namespace MailTemplate
namespace FileSystem
open MailTemplate.Path

section
variable {files made : FileSystem} {place base : Location} {before parts front inside rest : List Text}
  {path last : Text} {cause : FileError}

theorem checkPath_of_isPrefix {whole : Text} (h : checkPath whole = .ok ()) (hp : path <+: whole)
    (hne : path ≠ []) : checkPath path = .ok () := by
  have hwhole : whole ≠ [] := fun he => hne (List.prefix_nil.1 (he ▸ hp))
  obtain ⟨hnul, hsize⟩ := (checkPath_eq_ok_iff hwhole).1 h
  refine (checkPath_eq_ok_iff hne).2 ⟨fun hm => hnul (hp.subset hm), ?_⟩
  obtain ⟨more, rfl⟩ := hp
  rw [Text.byteSize_append] at hsize
  omega

theorem exists_lastSplit (path : Text) :
    ∃ more, Path.parts path = (lastSplit path).1 ++ (lastSplit path).2 :: more := by
  obtain ⟨back, hback⟩ : ∃ back, (Path.parts path).reverse.dropWhile (· = []) = back := ⟨_, rfl⟩
  have hsplit : lastSplit path = (back.tail.reverse, back.headD []) := by rw [lastSplit, hback]
  have hparts : Path.parts path =
      back.reverse ++ ((Path.parts path).reverse.takeWhile (· = [])).reverse := by
    rw [← hback, ← List.reverse_append, List.takeWhile_append_dropWhile, List.reverse_reverse]
  rw [hsplit]
  cases back with
  | nil =>
    obtain ⟨first, rest, hcons⟩ := List.exists_cons_of_ne_nil (List.splitOnP_ne_nil (· == '/') path)
    have hfirst : first = [] := by
      have hm : first ∈ ((Path.parts path).reverse.takeWhile (· = [])).reverse := by
        rw [List.reverse_nil, List.nil_append] at hparts
        rw [← hparts, Path.parts, hcons]
        exact List.mem_cons_self
      simpa using List.mem_takeWhile_imp (List.mem_reverse.1 hm)
    exact ⟨rest, hfirst ▸ hcons⟩
  | cons name front =>
    refine ⟨((Path.parts path).reverse.takeWhile (· = [])).reverse, ?_⟩
    conv => lhs; rw [hparts]
    simp

theorem lastSplit_of_parts (h : Path.parts path = before ++ [last]) (hl : last ≠ []) :
    lastSplit path = (before, last) := by
  rw [lastSplit, h, List.reverse_append, List.reverse_singleton, List.singleton_append,
    List.dropWhile_cons_of_neg (by simpa using hl)]
  simp

theorem names_of_parts (h : Path.parts path = before ++ [last]) (hne : last ≠ []) (hd : last ≠ ['.']) :
    names path = named before ++ [last] := by
  have hlast : [last].filter (fun part => part != [] && part != ['.']) = [last] := by simp [hne, hd]
  rw [names, h, List.filter_append, hlast, named]

theorem lastPlace_of_walk (hc : checkPath path = .ok ())
    (hw : files.walk .find maxLinks (files.start path) (lastSplit path).1 = .ok place)
    (hd : files.isDirectoryAt place = true) : files.lastPlace path =
      let name := (lastSplit path).2
      if name = [] ∨ name = ['.'] ∨ name = ['.', '.'] then .ok none
      else if maxName < Text.byteSize name then .error .nameTooLong
      else .ok (some (place ++ [name])) := by
  rw [lastPlace, hc]
  change (files.walk .find maxLinks (files.start path) (lastSplit path).1 >>= _) = _
  rw [hw]
  change (if !files.isDirectoryAt place then _ else _) = _
  rw [hd]
  rfl

theorem lastPlace_of_walk_error (hc : checkPath path = .ok ())
    (hw : files.walk .find maxLinks (files.start path) (lastSplit path).1 = .error cause) :
    files.lastPlace path = .error cause := by
  rw [lastPlace, hc]
  change (files.walk .find maxLinks (files.start path) (lastSplit path).1 >>= _) = _
  rw [hw]
  rfl

theorem isDirectory_eq_true_iff : files.isDirectory path = true ↔
    checkPath path = .ok () ∧ ∃ place,
      files.walk .find maxLinks (files.start path) (Path.parts path) = .ok place ∧
        files.isDirectoryAt place = true := by
  have hlocate : ∀ place, files.locate path = .ok place ↔ checkPath path = .ok () ∧
      files.walk .find maxLinks (files.start path) (Path.parts path) = .ok place := by
    intro place
    rw [locate, bind_eq_ok_iff]
    constructor
    · rintro ⟨_, hc, hw⟩
      exact ⟨hc, hw⟩
    · rintro ⟨hc, hw⟩
      exact ⟨(), hc, hw⟩
  rw [isDirectory, stat?]
  cases hl : files.locate path with
  | error cause =>
    refine iff_of_false (by simp) ?_
    rintro ⟨hc, place, hw, -⟩
    cases hl.symm.trans ((hlocate place).2 ⟨hc, hw⟩)
  | ok found =>
    obtain ⟨hc, hw⟩ := (hlocate found).1 hl
    constructor
    · exact fun h => ⟨hc, found, hw, h⟩
    · rintro ⟨-, place, hw', hd⟩
      cases hw.symm.trans hw'
      exact hd

theorem makeDirectory_of_lastPlace (h : files.lastPlace path = .ok (some place)) :
    files.makeDirectory path =
      if (files.entry? place).isSome then .error .exists else .ok (files.put place .directory) := by
  rw [makeDirectory, h]
  change (if (files.entry? place).isSome then _ else _) = _
  split <;> rfl

/-- Where there is a directory none is made, and that is not for want of another one. -/
theorem makeDirectory_of_isDirectory (h : files.isDirectory path = true) :
    ∃ cause, files.makeDirectory path = .error cause ∧ cause ≠ .notFound := by
  obtain ⟨hcheck, found, hwalk, -⟩ := isDirectory_eq_true_iff.1 h
  obtain ⟨more, hparts⟩ := exists_lastSplit path
  rw [hparts] at hwalk
  cases hfirst : files.walk .find maxLinks (files.start path) (lastSplit path).1 with
  | error cause =>
    rw [walk_append_of_error hfirst] at hwalk
    cases hwalk
  | ok place =>
    obtain ⟨left, hon⟩ := walk_append_of_ok hfirst
    rw [hon .find _ (by decide) (by simp)] at hwalk
    have hd : files.isDirectoryAt place = true := by
      by_contra hn
      rw [walk, if_pos (by simpa using hn)] at hwalk
      cases hwalk
    have hlast := lastPlace_of_walk hcheck hfirst hd
    dsimp only at hlast
    split at hlast
    · exact ⟨.exists, by rw [makeDirectory, hlast]; rfl, by simp⟩
    · next hname =>
      split at hlast
      · exact ⟨.nameTooLong, by rw [makeDirectory, hlast]; rfl, by simp⟩
      · next hshort =>
        refine ⟨.exists, ?_, by simp⟩
        rw [makeDirectory_of_lastPlace hlast, if_pos]
        rw [Option.isSome_iff_ne_none]
        intro hnone
        simp only [not_or] at hname
        rw [walk_of_isName hd hname, if_neg (by simp), isTooLong_eq (by decide),
          if_neg (by simpa using hshort), hnone] at hwalk
        simp at hwalk

theorem missing_of_walk {links : Nat} (hd : files.isDirectoryAt place = true)
    (hl : last ≠ [] ∧ last ≠ ['.'] ∧ Text.byteSize last ≤ maxName)
    (hpass : IsName last → files.entry? (place ++ [last]) = none ∨
      files.isDirectoryAt (place ++ [last]) = true)
    (h : files.walk .find links place [last] = .error .notFound) :
    IsName last ∧ files.entry? (place ++ [last]) = none := by
  have hup : last ≠ ['.', '.'] := by
    rintro rfl
    rw [walk, if_neg (by simpa using hd), if_neg (by simp), if_pos rfl, walk] at h
    cases h
  have hname : IsName last := ⟨hl.1, hl.2.1, hup⟩
  have hshort : ¬ decide (maxName < Text.byteSize last) = true := by simpa using hl.2.2
  refine ⟨hname, (hpass hname).resolve_right fun hdir => ?_⟩
  rw [isDirectoryAt, beq_iff_eq] at hdir
  rw [walk_of_isName hd hname, if_neg (by simp), isTooLong_eq (by decide), if_neg hshort, hdir] at h
  simp [walk] at h

theorem makeDirectory_of_dirs (hrooted : files.IsRooted) (hbase : files.isDirectoryAt base = true)
    (hb : files.walk .find maxLinks (files.start path) front = .ok base)
    (hpass : files.IsPassable base (inside ++ [last]))
    (hn : ∀ part ∈ inside ++ [last], part ≠ [] ∧ part ≠ ['.'] ∧ Text.byteSize part ≤ maxName)
    (hdirs : ∀ place, OnWay base inside place → files.isDirectoryAt place = true)
    (hcheck : checkPath path = .ok ()) (hparts : Path.parts path = before ++ [last])
    (hnamed : named before = front ++ inside) :
    (∃ made, files.makeDirectory path = .ok made ∧
      ∀ place, OnWay base (inside ++ [last]) place → made.isDirectoryAt place = true) ∨
    files.isDirectory path = true ∧
      ∀ place, OnWay base (inside ++ [last]) place → files.isDirectoryAt place = true := by
  have hlast := hn last (by simp)
  have hall : named (Path.parts path) = front ++ (inside ++ [last]) := by
    rw [← List.append_assoc, ← hnamed]
    exact names_of_parts hparts hlast.1 hlast.2.1
  rcases walk_parts_of_isPassable hrooted hbase hb hpass hn hall with ⟨hok, hthere⟩ | ⟨herror, -⟩
  · have hdir : files.isDirectory path = true :=
      isDirectory_eq_true_iff.2 ⟨hcheck, _, hok, hthere _ ⟨_, List.prefix_rfl, rfl⟩⟩
    exact .inr ⟨hdir, hthere⟩
  · refine .inl ?_
    have hinside : files.IsPassable base inside := hpass.of_isPrefix (List.prefix_append _ _)
    have hfirst : files.walk .find maxLinks (files.start path) before = .ok (lexical base inside) := by
      rcases walk_parts_of_isPassable hrooted hbase hb hinside
        (fun part hm => hn part (List.mem_append_left _ hm)) hnamed with ⟨hok, -⟩ | ⟨-, place, hon, hnone⟩
      · exact hok
      · have hd := hdirs place hon
        rw [isDirectoryAt, hnone] at hd
        cases hd
    have habove : files.isDirectoryAt (lexical base inside) = true :=
      hdirs _ ⟨inside, List.prefix_rfl, rfl⟩
    obtain ⟨left, hon⟩ := walk_append_of_ok hfirst
    rw [hparts, hon .find _ (by decide) (by simp)] at herror
    have hend : IsName last → lexical base (inside ++ [last]) = lexical base inside ++ [last] := by
      intro hname
      rw [lexical_append, lexical_cons, lexical_nil, step_of_isName hname]
    obtain ⟨hname, hnone⟩ := missing_of_walk habove hlast
      (fun hname => hend hname ▸ hpass _ ⟨_, List.prefix_rfl, rfl⟩) herror
    have hsplit := lastSplit_of_parts hparts hlast.1
    have hplace : files.lastPlace path = .ok (some (lexical base inside ++ [last])) := by
      rw [lastPlace_of_walk hcheck (by rw [hsplit]; exact hfirst) habove, hsplit]
      dsimp only
      rw [if_neg (not_or.2 ⟨hname.1, not_or.2 hname.2⟩), if_neg (by simpa using hlast.2.2)]
    refine ⟨_, by rw [makeDirectory_of_lastPlace hplace, hnone]; rfl, ?_⟩
    rintro place ⟨way, hway, rfl⟩
    rw [isDirectoryAt, beq_iff_eq, entry_put (by simp)]
    rcases List.prefix_concat_iff.1 hway with rfl | hway
    · rw [if_pos (hend hname)]
    · have hd := hdirs _ ⟨way, hway, rfl⟩
      split
      · rfl
      · rwa [isDirectoryAt, beq_iff_eq] at hd

theorem IsRooted.put_directory {name : Text} (h : files.IsRooted)
    (hd : files.isDirectoryAt place = true) :
    (files.put (place ++ [name]) .directory).IsRooted := by
  intro other ho
  rw [isDirectoryAt, beq_iff_eq, entry_put (by simp)] at ho ⊢
  have hkept : files.isDirectoryAt other.dropLast = true := by
    split at ho
    · next he =>
      rw [he, List.dropLast_concat]
      exact hd
    · exact h other (by rwa [isDirectoryAt, beq_iff_eq])
  split
  · rfl
  · rwa [isDirectoryAt, beq_iff_eq] at hkept

theorem IsRooted.put_file {contents : Contents} (h : files.IsRooted) (hn : place ≠ [])
    (hd : files.isDirectoryAt place = false) : (files.put place (.file contents)).IsRooted := by
  intro other ho
  rw [isDirectoryAt, beq_iff_eq, entry_put hn] at ho ⊢
  split at ho
  · cases ho
  · have hkept := h other (by rwa [isDirectoryAt, beq_iff_eq])
    rw [if_neg, ← beq_iff_eq]
    · exact hkept
    · intro he
      rw [he, hd] at hkept
      cases hkept

theorem IsRooted.makeDirectory (h : files.IsRooted) (hm : files.makeDirectory path = .ok made) :
    made.IsRooted := by
  obtain ⟨_, _, _, -, -, -, hd, -, rfl⟩ := makeDirectory_eq_ok hm
  exact h.put_directory hd

theorem IsRooted.makeDirectories (h : files.IsRooted) (path : Text) (fuel : Nat) :
    (makeDirectories fuel files path).1.IsRooted := by
  induction fuel generalizing path with
  | zero => exact h
  | succ fuel ih =>
    rw [FileSystem.makeDirectories]
    split
    · exact h
    · split
      · next made hmade => exact h.makeDirectory hmade
      · split
        · exact h
        · next parent _ =>
          have hmid := ih parent
          split
          · next hm =>
            rw [hm] at hmid
            exact hmid
          · next mid hm =>
            rw [hm] at hmid
            split
            · next made hmade => exact hmid.makeDirectory hmade
            · exact hmid
      · exact h

theorem Grown.changed {allowed : Location → Prop} (hrooted : files.IsRooted)
    (h : Grown allowed files made) : Changed (fun place => files.entry? place = none) files made where
  current := h.current
  missing _ := id
  above place hd hnone := by
    have habove : files.isDirectoryAt place.dropLast = true := hrooted place hd
    rw [FileSystem.isDirectoryAt, hnone] at habove
    cases habove
  entries place := (h.entries place).imp_right fun hm => .inr hm.2.1

theorem isDirectoryAt_of_walk {links : Nat} (hd : files.isDirectoryAt base = true)
    (h : files.walk .find links place front = .ok base) : files.isDirectoryAt place = true := by
  cases front with
  | nil =>
    rw [walk] at h
    cases h
    exact hd
  | cons part front =>
    by_contra hn
    rw [walk, if_pos (by simpa using hn)] at h
    cases h

theorem Changed.walk_of_ok {fresh : Location → Prop} {links : Nat} (h : Changed fresh files made)
    (hs : ¬ fresh (files.start path))
    (hw : files.walk .find links (files.start path) front = .ok base) :
    made.walk .find links (made.start path) front = .ok base := by
  rw [h.start, (h.walk_eq hs fun _ hb =>
    absurd hb (leads_of_walk (by decide) hw).not_breaksAt).1, hw]

theorem Grown.walk_of_ok {allowed : Location → Prop} {links : Nat} (hrooted : files.IsRooted)
    (h : Grown allowed files made) (hd : files.isDirectoryAt base = true)
    (hw : files.walk .find links (files.start path) front = .ok base) :
    made.walk .find links (made.start path) front = .ok base := by
  have hstart : files.isDirectoryAt (files.start path) = true := isDirectoryAt_of_walk hd hw
  rw [FileSystem.isDirectoryAt, beq_iff_eq] at hstart
  exact (h.changed hrooted).walk_of_ok ((h.changed hrooted).not_fresh_of_some hstart) hw

theorem IsPassable.grown {allowed : Location → Prop} (hpass : files.IsPassable base rest)
    (h : Grown allowed files made) : made.IsPassable base rest := by
  intro place hon
  rcases h.entries place with he | ⟨-, -, hd⟩
  · rw [isDirectoryAt, he]
    exact hpass place hon
  · exact .inr (by rw [isDirectoryAt, hd]; rfl)

theorem makeDirectories_of_ok (fuel : Nat) (hp : path ≠ []) (hm : files.makeDirectory path = .ok made) :
    makeDirectories (fuel + 1) files path = (made, .ok ()) := by
  rw [makeDirectories, if_neg hp, hm]

theorem makeDirectories_of_isDirectory (fuel : Nat) (hp : path ≠ [])
    (hd : files.isDirectory path = true) : makeDirectories (fuel + 1) files path = (files, .ok ()) := by
  obtain ⟨cause, hm, hne⟩ := makeDirectory_of_isDirectory hd
  rw [makeDirectories, if_neg hp, hm, hd]
  cases cause <;> simp_all

theorem makeDirectories_of_notFound {fuel : Nat} {parent : Text} (hp : path ≠ [])
    (hm : files.makeDirectory path = .error .notFound) (hparent : parent? path = some parent)
    (hmade : makeDirectories fuel files parent = (made, .ok ())) :
    makeDirectories (fuel + 1) files path = match made.makeDirectory path with
      | .ok last => (last, .ok ())
      | .error e => (made, if made.isDirectory path then .ok () else .error e) := by
  rw [makeDirectories, if_neg hp, hm]
  dsimp only
  rw [hparent]
  cases hlast : made.makeDirectory path with
  | ok last => simp only [hmade, hlast]
  | error cause => simp only [hmade, hlast]

theorem makeDirectories_of_above {mid : FileSystem} {parent : Text} (fuel : Nat)
    (hrooted : files.IsRooted) (hbase : files.isDirectoryAt base = true)
    (hb : files.walk .find maxLinks (files.start path) front = .ok base)
    (hclear : files.IsClear base inside) (hpass : files.IsPassable base (inside ++ [last]))
    (hn : ∀ part ∈ inside ++ [last], part ≠ [] ∧ part ≠ ['.'] ∧ Text.byteSize part ≤ maxName)
    (hnames : names path = front ++ (inside ++ [last])) (hcheck : checkPath path = .ok ())
    (hparts : Path.parts path = before ++ [last]) (hnamed : named before = front ++ inside)
    (hmissing : files.makeDirectory path = .error .notFound) (hparent : parent? path = some parent)
    (hmid : makeDirectories fuel files parent = (mid, .ok ()))
    (hdirs : ∀ place, OnWay base inside place → mid.isDirectoryAt place = true) :
    ∃ made, makeDirectories (fuel + 1) files path = (made, .ok ()) ∧
      ∀ place, OnWay base (inside ++ [last]) place → made.isDirectoryAt place = true := by
  have hpath : path ≠ [] := by
    rintro rfl
    simp at hnames
  -- the directories above have been made, and all else is as it was
  have hgrown : Grown (OnWay base inside) files mid := by
    have hstart : files.start parent = files.start path := by
      rw [FileSystem.start, FileSystem.start, isAbsolute_parent? hparent]
    have hleads : files.Leads (files.start parent) front base :=
      leads_of_walk (by decide) (hstart ▸ hb)
    have habove : names parent <+: front ++ inside := by
      rw [names_parent? hparent, hnames, ← List.append_assoc, List.dropLast_concat]
    have hg := grown_makeDirectories fuel hleads hclear habove
    rwa [hmid] at hg
  have hmidrooted : mid.IsRooted := by
    have hr := hrooted.makeDirectories parent fuel
    rwa [hmid] at hr
  rw [makeDirectories_of_notFound hpath hmissing hparent hmid]
  rcases makeDirectory_of_dirs hmidrooted (hgrown.isDirectoryAt hbase)
    (hgrown.walk_of_ok hrooted hbase hb) (hpass.grown hgrown) hn hdirs hcheck hparts hnamed with
    ⟨made, hmade, hall⟩ | ⟨hdir, hall⟩
  · rw [hmade]
    exact ⟨made, rfl, hall⟩
  · obtain ⟨cause, hcause, -⟩ := makeDirectory_of_isDirectory hdir
    rw [hcause, hdir]
    exact ⟨mid, rfl, hall⟩

theorem makeDirectories_of_isPassable (fuel : Nat) (hfuel : path.length < fuel)
    (hrooted : files.IsRooted) (hbase : files.isDirectoryAt base = true)
    (hb : files.walk .find maxLinks (files.start path) front = .ok base)
    (hclear : files.IsClear base inside) (hpass : files.IsPassable base inside)
    (hn : ∀ part ∈ inside, part ≠ [] ∧ part ≠ ['.'] ∧ Text.byteSize part ≤ maxName)
    (hnames : names path = front ++ inside) (hcheck : path ≠ [] → checkPath path = .ok ())
    (hend : EndsInName path) : ∃ made, makeDirectories fuel files path = (made, .ok ()) ∧
      ∀ place, OnWay base inside place → made.isDirectoryAt place = true := by
  induction fuel generalizing path inside with
  | zero => omega
  | succ fuel ih =>
    by_cases hpath : path = []
    · subst hpath
      obtain ⟨rfl, rfl⟩ := List.append_eq_nil_iff.1 (hnames.symm.trans names_nil)
      refine ⟨files, by rw [makeDirectories, if_pos rfl], ?_⟩
      rintro place ⟨way, hway, rfl⟩
      rw [List.prefix_nil.1 hway]
      exact hbase
    have hfits := hcheck hpath
    rcases walk_parts_of_isPassable hrooted hbase hb hpass hn hnames with ⟨hok, hdirs⟩ | ⟨-, hmissing⟩
    · have hdir : files.isDirectory path = true :=
        isDirectory_eq_true_iff.2 ⟨hfits, _, hok, hdirs _ ⟨_, List.prefix_rfl, rfl⟩⟩
      exact ⟨files, makeDirectories_of_isDirectory fuel hpath hdir, hdirs⟩
    -- something is missing beyond the base, so the path ends in a name beyond it
    rcases List.eq_nil_or_concat' inside with rfl | ⟨inside, last, rfl⟩
    · obtain ⟨place, ⟨way, hway, rfl⟩, hnone⟩ := hmissing
      rw [List.prefix_nil.1 hway, lexical_nil] at hnone
      rw [isDirectoryAt, hnone] at hbase
      cases hbase
    obtain ⟨before, name, hparts, hne, hdot⟩ := hend.resolve_left (by simp [hnames])
    have hsplit : named before ++ [name] = front ++ inside ++ [last] := by
      rw [List.append_assoc, ← hnames, names_of_parts hparts hne hdot]
    obtain ⟨hnamed, hlast⟩ := List.append_inj' hsplit rfl
    cases hlast
    have hinside : files.IsPassable base inside := hpass.of_isPrefix (List.prefix_append _ _)
    have hshort := fun part (hm : part ∈ inside) => hn part (List.mem_append_left _ hm)
    rcases walk_parts_of_isPassable hrooted hbase hb hinside hshort hnamed with
      ⟨-, hdirs⟩ | ⟨herror, -⟩
    · rcases makeDirectory_of_dirs hrooted hbase hb hpass hn hdirs hfits hparts hnamed with
        ⟨made, hmade, hall⟩ | ⟨hdir, hall⟩
      · exact ⟨made, makeDirectories_of_ok fuel hpath hmade, hall⟩
      · exact ⟨files, makeDirectories_of_isDirectory fuel hpath hdir, hall⟩
    · have hmade : files.makeDirectory path = .error .notFound := by
        rw [makeDirectory, lastPlace_of_walk_error hfits (by rwa [lastSplit_of_parts hparts hne])]
        rfl
      have hfull : names path ≠ [] := by simp [hnames]
      obtain ⟨parent, hparent⟩ := exists_parent? hfull
      have hlength := length_parent?_lt hfull hparent
      have hstart : files.start parent = files.start path := by
        rw [FileSystem.start, FileSystem.start, isAbsolute_parent? hparent]
      have habove : names parent = front ++ inside := by
        rw [names_parent? hparent, hnames, ← List.append_assoc, List.dropLast_concat]
      have hclear' : files.IsClear base inside := hclear.of_isPrefix (List.prefix_append _ _)
      obtain ⟨mid, hmid, hdirs⟩ := ih (by omega) (hstart ▸ hb) hclear' hinside hshort habove
        (checkPath_of_isPrefix hfits (prefix_of_parent? hparent)) (endsInName_parent? hparent)
      exact makeDirectories_of_above fuel hrooted hbase hb hclear' hpass hn hnames hfits hparts hnamed
        hmade hparent hmid hdirs

end

end FileSystem
end MailTemplate
