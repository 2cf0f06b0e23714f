import MailTemplate.Proofs.Files.Walk
import MailTemplate.Proofs.Text.Success

/-! File systems of which one has more than the other, and other texts in its files. A path leads to the
same place in both, or fails in the same way, unless it breaks off where something appears. Where nothing
appears and only the texts differ, every path is followed alike. -/

namespace MailTemplate
namespace FileSystem
open MailTemplate.Path (IsName isName_of)

/-- A path breaks off: it goes on from a directory by a name that nothing there has. -/
inductive BreaksAt (files : FileSystem) : Location → List Text → Location → Prop where
  | here {place : Location} {part : Text} {rest : List Text} :
      files.isDirectoryAt place = true → IsName part → files.entry? (place ++ [part]) = none →
        BreaksAt files place (part :: rest) (place ++ [part])
  | on {place next gap : Location} {part : Text} {more rest : List Text} :
      files.next? place part = some (next, more) → BreaksAt files next (more ++ rest) gap →
        BreaksAt files place (part :: rest) gap

theorem Leads.not_breaksAt {files : FileSystem} {place result gap : Location} {parts : List Text}
    (h : files.Leads place parts result) : ¬ files.BreaksAt place parts gap := by
  intro hb
  induction h with
  | here => cases hb
  | on hnext _ ih =>
    cases hb with
    | here _ hn he => cases (next?_missing hn he).symm.trans hnext
    | on hother hb =>
      cases hnext.symm.trans hother
      exact ih hb

theorem BreaksAt.exists_isPrefix {files : FileSystem} {place gap : Location} {parts : List Text}
    (h : files.BreaksAt place parts gap) (hc : files.IsClear place parts) :
    ∃ front, front <+: parts ∧ gap = Path.lexical place front := by
  induction h with
  | @here place part rest _ hname _ =>
    exact ⟨[part], List.cons_prefix_cons.2 ⟨rfl, List.nil_prefix⟩, (Path.step_of_isName hname place).symm⟩
  | @on place next gap part more rest hnext _ ih =>
    obtain ⟨rfl, rfl⟩ := next?_eq_some hnext (hc [part] (List.cons_prefix_cons.2 ⟨rfl, List.nil_prefix⟩))
    obtain ⟨front, hfront, rfl⟩ := ih hc.tail
    exact ⟨part :: front, List.cons_prefix_cons.2 ⟨rfl, hfront⟩, rfl⟩

/-- Something may appear where nothing is, though not above a directory, and files may hold other
texts. Nothing else changes. -/
structure Changed (fresh : Location → Prop) (files later : FileSystem) : Prop where
  current : later.current = files.current
  missing : ∀ place, fresh place → files.entry? place = none
  above : ∀ place, files.isDirectoryAt place = true → ¬ fresh place.dropLast
  entries : ∀ place, later.entry? place = files.entry? place ∨
    files.isFileAt place = true ∧ later.isFileAt place = true ∨ fresh place

namespace Changed

section
variable {fresh : Location → Prop} {files later : FileSystem} (h : Changed fresh files later)
  {purpose : Purpose} {links : Nat} {place : Location} {part : Text} {parts rest : List Text}
include h

theorem not_fresh_of_some {entry : Entry} (he : files.entry? place = some entry) : ¬ fresh place := by
  intro hf
  rw [h.missing place hf] at he
  cases he

theorem isFileAt (hf : ¬ fresh place) : later.isFileAt place = files.isFileAt place := by
  rcases h.entries place with he | ⟨hfile, hlater⟩ | hfresh
  · rw [FileSystem.isFileAt, FileSystem.isFileAt, he]
  · rw [hfile, hlater]
  · exact absurd hfresh hf

theorem eq_some_iff (hf : ¬ fresh place) {entry : Entry} (hn : ∀ contents, entry ≠ .file contents) :
    later.entry? place = some entry ↔ files.entry? place = some entry := by
  rcases h.entries place with he | ⟨hfile, hlater⟩ | hfresh
  · rw [he]
  · obtain ⟨contents, hc⟩ := isFileAt_iff.1 hfile
    obtain ⟨found, hfound⟩ := isFileAt_iff.1 hlater
    rw [hc, hfound, Option.some.injEq, Option.some.injEq]
    exact iff_of_false (hn found).symm (hn contents).symm
  · exact absurd hfresh hf

theorem isDirectoryAt (hf : ¬ fresh place) :
    later.isDirectoryAt place = files.isDirectoryAt place := by
  rw [Bool.eq_iff_iff, FileSystem.isDirectoryAt, FileSystem.isDirectoryAt, beq_iff_eq, beq_iff_eq]
  exact h.eq_some_iff hf fun _ => Entry.noConfusion

theorem eq_none_iff (hf : ¬ fresh place) :
    later.entry? place = none ↔ files.entry? place = none := by
  rcases h.entries place with he | ⟨hfile, hlater⟩ | hfresh
  · rw [he]
  · obtain ⟨contents, hc⟩ := isFileAt_iff.1 hfile
    obtain ⟨found, hfound⟩ := isFileAt_iff.1 hlater
    rw [hc, hfound]
    exact iff_of_false (Option.some_ne_none _) (Option.some_ne_none _)
  · exact absurd hfresh hf

theorem start (path : Text) : later.start path = files.start path := by
  rw [FileSystem.start, FileSystem.start, h.current]

theorem walk_eq (hp : ¬ fresh place) (hb : ∀ gap, files.BreaksAt place parts gap → ¬ fresh gap) :
    later.walk purpose links place parts = files.walk purpose links place parts ∧
      ∀ result, files.walk purpose links place parts = .ok result → ¬ fresh result := by
  fun_induction files.walk purpose links place parts with
  | case1 links place =>
    rw [walk]
    refine ⟨rfl, fun result hr => ?_⟩
    cases hr
    exact hp
  | case2 links place part rest hd =>
    rw [walk, h.isDirectoryAt hp, if_pos hd]
    exact ⟨rfl, fun _ hr => by cases hr⟩
  | case3 links place part rest hd hpart ih =>
    rw [walk, h.isDirectoryAt hp, if_neg hd, if_pos hpart]
    exact ih hp fun gap hg => hb gap (.on (next?_stay (by simpa using hd) hpart) hg)
  | case4 links place rest hd hpart ih =>
    have hup : ¬ fresh place.dropLast := h.above place (by simpa using hd)
    rw [walk, h.isDirectoryAt hp, if_neg hd, if_neg hpart, if_pos rfl]
    exact ih hup fun gap hg => hb gap (.on (next?_up (by simpa using hd)) hg)
  | case5 links place part rest hd hpart hu hs =>
    rw [walk_of_isName (by rw [h.isDirectoryAt hp]; simpa using hd) (isName_of hpart hu), if_pos hs]
    exact ⟨rfl, fun _ hr => by cases hr⟩
  | case6 links place part rest hd hpart hu hs hl =>
    rw [walk_of_isName (by rw [h.isDirectoryAt hp]; simpa using hd) (isName_of hpart hu), if_neg hs,
      if_pos hl]
    exact ⟨rfl, fun _ hr => by cases hr⟩
  | case7 links place part rest hd hpart hu hs hl he hc =>
    have hgap : ¬ fresh (place ++ [part]) :=
      hb _ (.here (by simpa using hd) (isName_of hpart hu) he)
    rw [walk_of_isName (by rw [h.isDirectoryAt hp]; simpa using hd) (isName_of hpart hu), if_neg hs,
      if_neg hl, (h.eq_none_iff hgap).2 he]
    refine ⟨if_pos hc, fun result hr => ?_⟩
    cases hr
    exact hgap
  | case8 links place part rest hd hpart hu hs hl he hc =>
    have hgap : ¬ fresh (place ++ [part]) :=
      hb _ (.here (by simpa using hd) (isName_of hpart hu) he)
    rw [walk_of_isName (by rw [h.isDirectoryAt hp]; simpa using hd) (isName_of hpart hu), if_neg hs,
      if_neg hl, (h.eq_none_iff hgap).2 he]
    exact ⟨if_neg hc, fun _ hr => by cases hr⟩
  | case9 place part rest hd hpart hu hs hl target he =>
    have hsame := (h.eq_some_iff (h.not_fresh_of_some he) fun _ => Entry.noConfusion).2 he
    rw [walk_of_isName (by rw [h.isDirectoryAt hp]; simpa using hd) (isName_of hpart hu), if_neg hs,
      if_neg hl, hsame]
    exact ⟨rfl, fun _ hr => by cases hr⟩
  | case10 place part rest hd hpart hu hs hl target he links ih =>
    rw [dite_eq_ite] at ih
    have hsame := (h.eq_some_iff (h.not_fresh_of_some he) fun _ => Entry.noConfusion).2 he
    have hnext := next?_link (by simpa using hd) (isName_of hpart hu) he
    have hstart : ¬ fresh (if Path.isAbsolute target then [] else place) := by
      split
      · have hroot : files.entry? [] = some .directory := rfl
        exact h.not_fresh_of_some hroot
      · exact hp
    rw [walk_of_isName (by rw [h.isDirectoryAt hp]; simpa using hd) (isName_of hpart hu), if_neg hs,
      if_neg hl, hsame]
    exact ih hstart fun gap hg => hb gap (.on hnext hg)
  | case11 links place part rest hd hpart hu hs hl entry hlink he ih =>
    have hf := h.not_fresh_of_some he
    have hnext := next?_enter (by simpa using hd) (isName_of hpart hu) he hlink
    have hon := ih hf fun gap hg => hb gap (.on hnext (by simpa using hg))
    rw [walk_of_isName (by rw [h.isDirectoryAt hp]; simpa using hd) (isName_of hpart hu), if_neg hs,
      if_neg hl]
    split
    · next hnone => simp [(h.eq_none_iff hf).1 hnone] at he
    · next target hfound =>
      have hsame := (h.eq_some_iff hf fun _ => Entry.noConfusion).1 hfound
      rw [he] at hsame
      exact (hlink target (Option.some.inj hsame)).elim
    · exact hon

end
end Changed

def Avoids (files : FileSystem) (fresh : Location → Prop) (path : Text) : Prop :=
  ¬ fresh (files.start path) ∧
    ∀ gap, files.BreaksAt (files.start path) (Path.parts path) gap → ¬ fresh gap

theorem avoids_of_follow {files : FileSystem} {fresh : Location → Prop} {path : Text}
    {result : Location} (hs : ¬ fresh (files.start path)) (h : files.follow path = .ok result) :
    files.Avoids fresh path := by
  obtain ⟨_, -, hwalk⟩ := bind_eq_ok_iff.1 h
  exact ⟨hs, fun _ hb => absurd hb (leads_of_walk (by decide) hwalk).not_breaksAt⟩

namespace Changed

section
variable {fresh : Location → Prop} {files later : FileSystem} {path : Text} {result : Location}
  (h : Changed fresh files later) (ha : files.Avoids fresh path)
include h ha

theorem locate : later.locate path = files.locate path := by
  rw [FileSystem.locate, FileSystem.locate, h.start, (h.walk_eq ha.1 ha.2).1]

theorem follow : later.follow path = files.follow path := by
  rw [FileSystem.follow, FileSystem.follow, h.start, (h.walk_eq ha.1 ha.2).1]

theorem not_fresh_of_locate (hl : files.locate path = .ok result) : ¬ fresh result := by
  obtain ⟨_, -, hwalk⟩ := bind_eq_ok_iff.1 hl
  exact (h.walk_eq ha.1 ha.2).2 _ hwalk

theorem not_fresh_of_follow (hf : files.follow path = .ok result) : ¬ fresh result := by
  obtain ⟨_, -, hwalk⟩ := bind_eq_ok_iff.1 hf
  exact (h.walk_eq ha.1 ha.2).2 _ hwalk

theorem pathExists : later.pathExists path = files.pathExists path := by
  rw [FileSystem.pathExists, FileSystem.pathExists, stat?, stat?, h.locate ha]
  cases hl : files.locate path with
  | error cause => rfl
  | ok result =>
    rw [Bool.eq_iff_iff, Option.isSome_iff_ne_none, Option.isSome_iff_ne_none]
    exact not_congr (h.eq_none_iff (h.not_fresh_of_locate ha hl))

end
end Changed

/-- Two file systems with the same directories, links and regular files. What the files hold may
differ. -/
structure Alike (files other : FileSystem) : Prop where
  current : other.current = files.current
  entries : ∀ place, other.entry? place = files.entry? place ∨
    files.isFileAt place = true ∧ other.isFileAt place = true

namespace Alike

section
variable {files other : FileSystem} (h : files.Alike other)
include h

theorem changed : Changed (fun _ => False) files other where
  current := h.current
  missing _ := False.elim
  above _ _ := id
  entries place := (h.entries place).imp_right .inl

theorem isFileAt (place : Location) : other.isFileAt place = files.isFileAt place :=
  h.changed.isFileAt id

theorem follow (path : Text) : other.follow path = files.follow path :=
  h.changed.follow ⟨id, fun _ _ => id⟩

theorem pathExists (path : Text) : other.pathExists path = files.pathExists path :=
  h.changed.pathExists ⟨id, fun _ _ => id⟩

end
end Alike

end FileSystem
end MailTemplate
