import MailTemplate.Files.FileSystem

/-! What there is at a place: the entry that is listed for it, and the root's own directory. -/

namespace MailTemplate
namespace FileSystem

section
variable {files : FileSystem} {location : Location} {entry : Entry} {text : Text}

theorem mem_entries (h : files.entry? location = some entry) :
    location = [] ∧ entry = .directory ∨ (location, entry) ∈ files.entries := by
  unfold entry? at h
  split at h
  · next hroot =>
    cases h
    exact .inl ⟨hroot, rfl⟩
  · obtain ⟨⟨place, found⟩, hfound, hentry⟩ := Option.map_eq_some_iff.1 h
    obtain rfl : found = entry := hentry
    obtain rfl : place = location := by simpa using List.find?_some hfound
    exact .inr (List.mem_of_find?_eq_some hfound)

theorem isFileAt_iff :
    files.isFileAt location = true ↔ ∃ contents, files.entry? location = some (.file contents) := by
  unfold isFileAt
  split
  · next contents he => exact iff_of_true rfl ⟨contents, he⟩
  · next hnone =>
    refine iff_of_false Bool.false_ne_true ?_
    rintro ⟨contents, he⟩
    exact hnone contents he

theorem mem_regularFiles (h : files.isFileAt location = true) : location ∈ files.regularFiles := by
  obtain ⟨contents, he⟩ := isFileAt_iff.1 h
  rcases mem_entries he with ⟨-, hd⟩ | hm
  · cases hd
  · exact List.mem_filterMap.2 ⟨_, hm, rfl⟩

theorem readAt_eq_ok_iff :
    files.readAt location = .ok text ↔ files.entry? location = some (.file (.text text)) := by
  unfold readAt
  split
  · next found he =>
    rw [he]
    simp
  all_goals
    next he => simp_all

end
end FileSystem
end MailTemplate
