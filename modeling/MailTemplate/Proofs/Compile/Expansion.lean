import MailTemplate.Proofs.Compile.Splicing
import Mathlib

/-! Which texts can be spliced, and what they become. Each tag names a file, whose own tags name
further files, and so on. A text can be spliced exactly if no way along these files breaks off, comes
back to one of its files or grows too long; then every tag gives way to the spliced text of its file. -/

namespace MailTemplate
namespace Include
open Layout (includeTag)

section
variable (files : FileSystem) (root : Location)

/-- A reference names a file with its text: of the directory and the source root, the first in which
it leads anywhere leads to that file, which is at or below the source root. -/
def Names (directory reference : Text) (location : Location) (body : Text) : Prop :=
  ∃ path, [Path.join directory (reference.dropWhile (· == '/')),
      Path.join root.path (reference.dropWhile (· == '/'))].find? files.pathExists = some path ∧
    files.follow path = .ok location ∧ root <+: location ∧
      files.entry? location = some (.file (.text body))

/-- Files on a way from a text in a directory: each is named by a tag of the text before it. The way
ends at the text of the last file, in the directory of that file. -/
inductive Way : (content directory : Text) → List Location → (text last : Text) → Prop
  | here {content directory : Text} : Way content directory [] content directory
  | on {content directory body text last : Text} {location : Location} {way : List Location}
      {tag : ReferenceTag "include".toList} : tag ∈ includeTag.items content →
        Names files root directory tag.reference location body →
          Way body (Location.path location.dropLast) way text last →
            Way content directory (location :: way) text last

/-- A text with each tag replaced by the text of its file, in which each tag is replaced in turn. -/
inductive Expands : (content directory result : Text) → Prop
  | tags {content directory : Text} {location : ReferenceTag "include".toList → Location}
      {body expansion : ReferenceTag "include".toList → Text} :
      (∀ tag ∈ includeTag.items content,
        Names files root directory tag.reference (location tag) (body tag)) →
        (∀ tag ∈ includeTag.items content,
          Expands (body tag) (Location.path (location tag).dropLast) (expansion tag)) →
          Expands content directory (includeTag.replace expansion content)

/-- Every way from a text goes on at each tag, to no file twice and to none that is being spliced
already, and has at most as many files as may be nested. -/
def Goes (maxDepth : Nat) (visiting : List Location) (content directory : Text) : Prop :=
  ∀ way text last, Way files root content directory way text last →
    (way.reverse ++ visiting).Nodup ∧ (way.reverse ++ visiting).length ≤ maxDepth ∧
      ∀ tag ∈ includeTag.items text, ∃ location body,
        Names files root last tag.reference location body

end

section
variable {files : FileSystem} {root location other : Location} {maxDepth fuel : Nat}
  {content directory result text last body reference name : Text} {visiting way : List Location}
  {tag : ReferenceTag "include".toList}

theorem Names.unique {found : Text} (h : Names files root directory reference location body)
    (ho : Names files root directory reference other found) : location = other ∧ body = found := by
  obtain ⟨path, hpath, hfollow, -, hentry⟩ := h
  obtain ⟨path', hpath', hfollow', -, hentry'⟩ := ho
  rw [hpath] at hpath'
  obtain rfl := Option.some.inj hpath'
  rw [hfollow] at hfollow'
  obtain rfl := Except.ok.inj hfollow'
  rw [hentry] at hentry'
  cases hentry'
  exact ⟨rfl, rfl⟩

theorem names_iff : Names files root directory reference location body ↔
    locate files root directory reference = .ok location ∧ Source.read files location = .ok body := by
  constructor
  · rintro ⟨path, hpath, hfollow, hroot, hentry⟩
    constructor
    · have hbelow : root.isPrefixOf location = true := List.isPrefixOf_iff_prefix.2 hroot
      have hfile : files.isFileAt location = true := FileSystem.isFileAt_iff.2 ⟨_, hentry⟩
      simp only [locate, hpath, Source.within]
      refine bind_eq_ok_iff.2 ⟨location, by rw [Source.place, hfollow], ?_⟩
      rw [hbelow, hfile]
      rfl
    · rw [Source.read, FileSystem.readAt, hentry]
      rfl
  · rintro ⟨hlocate, hread⟩
    obtain ⟨path, hpath, hwithin⟩ := locate_eq_ok hlocate
    obtain ⟨hplace, hroot, -⟩ := Source.within_eq_ok hwithin
    exact ⟨path, hpath, Source.place_eq_ok_iff.1 hplace, hroot,
      FileSystem.readAt_eq_ok_iff.1 (mapError_eq_ok_iff.1 hread)⟩

theorem expand_eq_ok_iff : (expand files root maxDepth fuel directory tag visiting).1 = .ok text ↔
    ∃ location body, Names files root directory tag.reference location body ∧ location ∉ visiting ∧
      visiting.length < maxDepth ∧ (spliceAll files root maxDepth fuel body
        (Location.path location.dropLast) (location :: visiting)).1 = .ok text := by
  constructor
  · intro h
    unfold expand at h
    split at h
    · cases h
    · next location hlocate =>
      split at h
      · cases h
      · next hv =>
        split at h
        · cases h
        · next hd =>
          split at h
          · cases h
          · next body hread =>
            exact ⟨location, body, names_iff.2 ⟨hlocate, hread⟩, mt List.contains_iff_mem.2 hv,
              Nat.lt_of_not_le hd, h⟩
  · rintro ⟨location, body, hnames, hv, hd, h⟩
    obtain ⟨hlocate, hread⟩ := names_iff.1 hnames
    simp only [expand, hlocate, List.contains_iff_mem, if_neg hv, if_neg (Nat.not_le.2 hd), hread]
    exact h

theorem goes_iff (hn : visiting.Nodup) (hd : visiting.length ≤ maxDepth) :
    Goes files root maxDepth visiting content directory ↔
      ∀ tag ∈ includeTag.items content, ∃ location body,
        Names files root directory tag.reference location body ∧ location ∉ visiting ∧
          visiting.length < maxDepth ∧ Goes files root maxDepth (location :: visiting) body
            (Location.path location.dropLast) := by
  constructor
  · intro h tag htag
    obtain ⟨-, -, htags⟩ := h [] content directory .here
    obtain ⟨location, body, hnames⟩ := htags tag htag
    obtain ⟨hnodup, hlength, -⟩ := h [location] body _ (.on htag hnames .here)
    refine ⟨location, body, hnames, (List.nodup_cons.1 hnodup).1, hlength, ?_⟩
    intro way text last hway
    have hon := h (location :: way) text last (.on htag hnames hway)
    rwa [List.reverse_cons, List.append_assoc] at hon
  · intro h way text last hway
    cases hway with
    | here =>
      refine ⟨hn, hd, fun tag htag => ?_⟩
      obtain ⟨location, body, hnames, -⟩ := h tag htag
      exact ⟨location, body, hnames⟩
    | on htag hnames hrest =>
      obtain ⟨location, body, hnames', -, -, hgoes⟩ := h _ htag
      obtain ⟨rfl, rfl⟩ := hnames.unique hnames'
      have hon := hgoes _ text last hrest
      rwa [List.reverse_cons, List.append_assoc]

theorem Names.unvisited_lt (h : Names files root directory reference location body)
    (hv : location ∉ visiting) : (unvisited files root (location :: visiting)).ncard <
      (unvisited files root visiting).ncard := by
  obtain ⟨-, -, -, hroot, hentry⟩ := h
  exact ncard_unvisited_lt ⟨hroot, FileSystem.isFileAt_iff.2 ⟨_, hentry⟩, hv⟩

theorem exists_spliceAll_iff (hf : (unvisited files root visiting).ncard < fuel)
    (hn : visiting.Nodup) (hd : visiting.length ≤ maxDepth) :
    (∃ result, (spliceAll files root maxDepth fuel content directory visiting).1 = .ok result) ↔
      Goes files root maxDepth visiting content directory := by
  induction fuel generalizing content directory visiting with
  | zero => omega
  | succ fuel ih =>
    have hkept : ∀ tag, (expand files root maxDepth fuel directory tag visiting).2 = visiting :=
      fun tag => snd_expand (snd_spliceAll fuel)
    simp only [spliceAll_succ, joinPieces_eq_ok_iff hkept, exists_and_left, exists_eq, and_true]
    rw [goes_iff hn hd]
    simp only [Pattern.mem_items, expand_eq_ok_iff]
    refine forall₂_congr fun tag _ => ?_
    constructor
    · rintro ⟨text, location, body, hnames, hv, hlt, hok⟩
      have hless := hnames.unvisited_lt hv
      exact ⟨location, body, hnames, hv, hlt,
        (ih (by omega) (List.nodup_cons.2 ⟨hv, hn⟩) hlt).1 ⟨text, hok⟩⟩
    · rintro ⟨location, body, hnames, hv, hlt, hgoes⟩
      have hless := hnames.unvisited_lt hv
      obtain ⟨text, hok⟩ := (ih (by omega) (List.nodup_cons.2 ⟨hv, hn⟩) hlt).2 hgoes
      exact ⟨text, location, body, hnames, hv, hlt, hok⟩

theorem expands_of_spliceAll
    (h : (spliceAll files root maxDepth fuel content directory visiting).1 = .ok result) :
    Expands files root content directory result := by
  induction fuel generalizing content directory visiting result with
  | zero => cases h
  | succ fuel ih =>
    have hkept : ∀ tag, (expand files root maxDepth fuel directory tag visiting).2 = visiting :=
      fun tag => snd_expand (snd_spliceAll fuel)
    rw [spliceAll_succ, joinPieces_eq_ok_iff hkept] at h
    obtain ⟨hok, rfl⟩ := h
    have hnamed : ∀ tag ∈ includeTag.items content, ∃ location body,
        Names files root directory tag.reference location body ∧
          Expands files root body (Location.path location.dropLast)
            ((expand files root maxDepth fuel directory tag visiting).1.toOption.getD []) := by
      intro tag htag
      obtain ⟨text, htext⟩ := hok tag (Pattern.mem_items.1 htag)
      obtain ⟨location, body, hnames, -, -, hinner⟩ := expand_eq_ok_iff.1 htext
      refine ⟨location, body, hnames, ?_⟩
      rw [htext]
      exact ih hinner
    choose! location body hnames hexpands using hnamed
    rw [← Pattern.replace_eq_flatMap]
    exact .tags hnames hexpands

theorem Expands.unique (h : Expands files root content directory result)
    (ho : Expands files root content directory text) : result = text := by
  induction h generalizing text with
  | @tags content directory location body expansion hnames hexpands ih =>
    cases ho with
    | @tags _ _ location' body' expansion' hnames' hexpands' =>
      rw [Pattern.replace_eq_flatMap, Pattern.replace_eq_flatMap, List.flatMap_def, List.flatMap_def]
      refine congrArg List.flatten (List.map_congr_left fun piece hpiece => ?_)
      cases piece with
      | char c => rfl
      | item tag =>
        have htag := Pattern.mem_items.2 hpiece
        obtain ⟨hl, hb⟩ := (hnames tag htag).unique (hnames' tag htag)
        refine ih tag htag ?_
        rw [hl, hb]
        exact hexpands' tag htag

theorem Way.concat (h : Way files root content directory way text last)
    (htag : tag ∈ includeTag.items text)
    (hnames : Names files root last tag.reference location body) :
    Way files root content directory (way ++ [location]) body (Location.path location.dropLast) := by
  induction h with
  | here => exact .on htag hnames .here
  | on hfirst hnamed _ ih => exact .on hfirst hnamed (ih htag hnames)

theorem Way.exists_entry (h : Way files root content directory way text last)
    (hm : location ∈ way) : ∃ body, files.entry? location = some (.file (.text body)) := by
  induction h with
  | here => cases hm
  | on _ hnamed _ ih =>
    rcases List.mem_cons.1 hm with rfl | hm
    · obtain ⟨-, -, -, -, hentry⟩ := hnamed
      exact ⟨_, hentry⟩
    · exact ih hm

/-- Splicing takes for a circle only a way that comes to a file on it, or to one that is being spliced
already. -/
theorem exists_way_of_circular (hf : (unvisited files root visiting).ncard < fuel)
    (h : (spliceAll files root maxDepth fuel content directory visiting).1 =
      .error (.circular name)) :
    ∃ way text last location, Way files root content directory way text last ∧
      (∃ tag ∈ includeTag.items text, locate files root last tag.reference = .ok location) ∧
        location ∈ way.reverse ++ visiting ∧ name = location.path := by
  induction fuel generalizing content directory visiting with
  | zero => omega
  | succ fuel ih =>
    rw [spliceAll_succ] at h
    obtain ⟨tag, hm, h⟩ := exists_of_joinPieces_eq_error (fun tag => snd_expand (snd_spliceAll fuel)) h
    have htag := Pattern.mem_items.2 hm
    unfold expand at h
    split at h
    · next cause hlocate =>
      cases h
      exact (isOfFile_locate hlocate).elim
    · next location hlocate =>
      split at h
      · next hv =>
        cases h
        exact ⟨[], content, directory, location, .here, ⟨tag, htag, hlocate⟩,
          List.contains_iff_mem.1 hv, rfl⟩
      · next hv =>
        split at h
        · cases h
        · split at h
          · next cause hread =>
            cases h
            exact (Source.isOfFile_read hread).elim
          · next body hread =>
            have hnames := names_iff.2 ⟨hlocate, hread⟩
            have hless := hnames.unvisited_lt (mt List.contains_iff_mem.2 hv)
            obtain ⟨way, text, last, found, hway, hfound, hin, hname⟩ := ih (by omega) h
            refine ⟨location :: way, text, last, found, .on htag hnames hway, hfound, ?_, hname⟩
            rwa [List.reverse_cons, List.append_assoc]

/-- A text is spliced exactly if every way from it goes on at each tag, to no file twice and to at most
as many files as may be nested; then it becomes what it expands to. A file is called circular only if
a way comes back to it, so not for being named at several places. -/
theorem splice_eq_ok_iff (files : FileSystem) (root : Location) (maxDepth : Nat)
    (content directory : Text) :
    let spliced := (splice files root maxDepth content directory []).1
    let goes := ∀ way text last, Way files root content directory way text last →
      way.Nodup ∧ way.length ≤ maxDepth ∧ ∀ tag ∈ includeTag.items text,
        ∃ location body, Names files root last tag.reference location body
    ((∃ result, spliced = .ok result) ↔ goes) ∧
      (∀ result, spliced = .ok result ↔ goes ∧ Expands files root content directory result) ∧
        ∀ name, spliced = .error (.circular name) → ∃ way location text last,
          Way files root content directory (way ++ [location]) text last ∧ location ∈ way ∧
            name = location.path := by
  intro spliced goes
  have hfuel : (unvisited files root []).ncard < files.regularFiles.length + 1 :=
    Nat.lt_succ_of_le (ncard_unvisited_le files root [])
  have hgoes : Goes files root maxDepth [] content directory ↔ goes := by
    simp only [Goes, goes, List.append_nil, List.nodup_reverse, List.length_reverse]
  have hexists : (∃ result, spliced = .ok result) ↔ goes :=
    (exists_spliceAll_iff hfuel List.nodup_nil (Nat.zero_le _)).trans hgoes
  refine ⟨hexists, fun result => ⟨fun h => ?_, ?_⟩, fun name h => ?_⟩
  · exact ⟨hexists.1 ⟨result, h⟩, expands_of_spliceAll h⟩
  · rintro ⟨hg, hexpands⟩
    obtain ⟨other, hother⟩ := hexists.2 hg
    rw [hother, hexpands.unique (expands_of_spliceAll hother)]
  · obtain ⟨way, text, last, location, hway, ⟨tag, htag, hlocate⟩, hin, rfl⟩ :=
      exists_way_of_circular hfuel h
    have hmem : location ∈ way := by simpa using hin
    obtain ⟨body, hentry⟩ := hway.exists_entry hmem
    have hread : Source.read files location = .ok body := by
      rw [Source.read, FileSystem.readAt_eq_ok_iff.2 hentry]
      rfl
    exact ⟨way, location, body, _, hway.concat htag (names_iff.2 ⟨hlocate, hread⟩), hmem, rfl⟩

end

def letterTag (name : Char) : ReferenceTag "include".toList :=
  ⟨⟨false, [' ']⟩, [' '], ⟨'\'', [name], '\''⟩, ⟨[' '], false⟩⟩

def diamond : FileSystem where
  entries := [([['s']], .directory), ([['s'], ['a']], .file (.text (letterTag 'c').text)),
    ([['s'], ['b']], .file (.text (letterTag 'c').text)), ([['s'], ['c']], .file (.text ['c']))]
  current := []

/-- A file that is spliced in by two files and by the text itself. -/
theorem splice_diamond :
    let content := (letterTag 'a').text ++ (letterTag 'b').text ++ (letterTag 'c').text
    (splice diamond [['s']] 2 content ['/', 's'] []).1 = .ok "ccc".toList ∧
      Expands diamond [['s']] content ['/', 's'] "ccc".toList ∧
        ∀ way text last, Way diamond [['s']] content ['/', 's'] way text last →
          way.Nodup ∧ way.length ≤ 2 := by
  intro content
  have hcontent : includeTag.pieces content =
      [.item (letterTag 'a'), .item (letterTag 'b'), .item (letterTag 'c')] := by decide +kernel
  have hpair : includeTag.pieces (letterTag 'c').text = [.item (letterTag 'c')] := by decide +kernel
  have hletter : includeTag.pieces ['c'] = [.char 'c'] := by decide +kernel
  have hthird : Names diamond [['s']] ['/', 's'] (letterTag 'c').reference [['s'], ['c']] ['c'] :=
    names_iff.2 ⟨by cbv, rfl⟩
  have hothers : ∀ name ∈ ['a', 'b'], Names diamond [['s']] ['/', 's'] (letterTag name).reference
      [['s'], [name]] (letterTag 'c').text := by
    intro name hm
    rcases List.mem_pair.1 hm with rfl | rfl
    · exact names_iff.2 ⟨by cbv, rfl⟩
    · exact names_iff.2 ⟨by cbv, rfl⟩
  have hexpand : ∀ fuel visiting, [['s'], ['c']] ∉ visiting → visiting.length < 2 →
      expand diamond [['s']] 2 (fuel + 1) ['/', 's'] (letterTag 'c') visiting =
        (.ok ['c'], visiting) := by
    intro fuel visiting hv hd
    refine Prod.ext (expand_eq_ok_iff.2 ⟨_, _, hthird, hv, hd, ?_⟩) (snd_expand (snd_spliceAll _))
    rw [spliceAll_succ, hletter]
    rfl
  have hexpands : ∀ name ∈ ['a', 'b'],
      expand diamond [['s']] 2 3 ['/', 's'] (letterTag name) [] = (.ok ['c'], []) := by
    intro name hm
    refine Prod.ext (expand_eq_ok_iff.2 ⟨_, _, hothers name hm, List.not_mem_nil, by decide, ?_⟩)
      (snd_expand (snd_spliceAll _))
    have hfresh : [['s'], ['c']] ∉ [[['s'], [name]]] := by
      rcases List.mem_pair.1 hm with rfl | rfl <;> decide
    have hdirectory : Location.path [['s'], [name]].dropLast = ['/', 's'] := rfl
    rw [spliceAll_succ, hpair, hdirectory]
    simp only [joinPieces, hexpand 1 [[['s'], [name]]] hfresh Nat.one_lt_two]
    rfl
  have hspliced : (splice diamond [['s']] 2 content ['/', 's'] []).1 = .ok "ccc".toList := by
    change (spliceAll diamond [['s']] 2 4 content ['/', 's'] []).1 = _
    rw [spliceAll_succ, hcontent]
    simp only [joinPieces, hexpands 'a' (by simp), hexpands 'b' (by simp),
      hexpand 2 [] (by simp) (by simp)]
    rfl
  obtain ⟨hgoes, hresult, -⟩ := splice_eq_ok_iff diamond [['s']] 2 content ['/', 's']
  refine ⟨hspliced, ((hresult _).1 hspliced).2, fun way text last hway => ?_⟩
  obtain ⟨hnodup, hlength, -⟩ := hgoes.1 ⟨_, hspliced⟩ way text last hway
  exact ⟨hnodup, hlength⟩

end Include
end MailTemplate
