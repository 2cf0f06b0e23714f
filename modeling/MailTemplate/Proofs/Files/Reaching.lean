import MailTemplate.Proofs.Files.Growth

/-! Ways in parts. The walk along a path is the walk along its first parts and on from there with the
links that are left; parts that are no names make no difference. Beyond a way that is there, names lead
on through directories until one is missing. -/

namespace MailTemplate
namespace FileSystem
open MailTemplate.Path

section
variable {files : FileSystem} {links left : Nat} {place base middle result : Location}
  {parts front inside rest : List Text} {cause : FileError}

/-- The length of a name matters in the same way for using and for writing a file. -/
theorem isTooLong_eq {purpose : Purpose} (hp : purpose ≠ .name) (place : Location) (name : Text) :
    isTooLong purpose place name = decide (maxName < Text.byteSize name) := by
  cases purpose <;> simp_all [isTooLong]

/-- From where the first parts lead to, the walk goes on with the links that are left. -/
theorem walk_append_of_ok (h : files.walk .find links place front = .ok middle) :
    ∃ left, ∀ purpose rest, purpose ≠ .name → (purpose = .create → ∃ part ∈ rest, part ≠ []) →
      files.walk purpose links place (front ++ rest) = files.walk purpose left middle rest := by
  fun_induction files.walk .find links place front with
  | case1 links place =>
    cases h
    exact ⟨links, fun _ _ _ _ => rfl⟩
  | case2 => cases h
  | case3 links place part front hd hp ih =>
    obtain ⟨left, hon⟩ := ih h
    refine ⟨left, fun purpose rest hname hcreate => ?_⟩
    rw [← hon purpose rest hname hcreate, List.cons_append, walk, if_neg hd, if_pos hp]
  | case4 links place front hd hp ih =>
    obtain ⟨left, hon⟩ := ih h
    refine ⟨left, fun purpose rest hname hcreate => ?_⟩
    rw [← hon purpose rest hname hcreate, List.cons_append, walk, if_neg hd, if_neg hp, if_pos rfl]
  | case5 => cases h
  | case6 => cases h
  | case7 _ _ _ _ _ _ _ _ _ _ hc => cases hc.1
  | case8 => cases h
  | case9 => cases h
  | case10 place part front hd hp hu hs hl target he links ih =>
    rw [dite_eq_ite] at ih
    obtain ⟨left, hon⟩ := ih h
    refine ⟨left, fun purpose rest hname hcreate => ?_⟩
    have hrest : ¬ (purpose = .create ∧ front ++ rest ≠ [] ∧ (front ++ rest).all (· = [])) := by
      rintro ⟨hc, -, hall⟩
      obtain ⟨name, hm, hne⟩ := hcreate hc
      exact hne (by simpa using List.all_eq_true.1 hall name (List.mem_append_right _ hm))
    rw [isTooLong_eq (by decide)] at hl
    rw [← hon purpose rest hname hcreate, List.cons_append,
      walk_of_isName (by simpa using hd) (isName_of hp hu), if_neg hrest, isTooLong_eq hname, if_neg hl,
      he, List.append_assoc]
  | case11 links place part front hd hp hu hs hl entry hlink he ih =>
    obtain ⟨left, hon⟩ := ih h
    refine ⟨left, fun purpose rest hname hcreate => ?_⟩
    have hrest : ¬ (purpose = .create ∧ front ++ rest ≠ [] ∧ (front ++ rest).all (· = [])) := by
      rintro ⟨hc, -, hall⟩
      obtain ⟨name, hm, hne⟩ := hcreate hc
      exact hne (by simpa using List.all_eq_true.1 hall name (List.mem_append_right _ hm))
    rw [isTooLong_eq (by decide)] at hl
    rw [← hon purpose rest hname hcreate, List.cons_append,
      walk_of_isName (by simpa using hd) (isName_of hp hu), if_neg hrest, isTooLong_eq hname, if_neg hl,
      he]
    cases entry with
    | link target => exact absurd rfl (hlink target)
    | directory => rfl
    | file contents => rfl

theorem walk_append_of_error (h : files.walk .find links place front = .error cause) :
    files.walk .find links place (front ++ rest) = .error cause := by
  fun_induction files.walk .find links place front with
  | case1 => cases h
  | case2 links place part front hd => rw [List.cons_append, walk, if_pos hd, h]
  | case3 links place part front hd hp ih => rw [List.cons_append, walk, if_neg hd, if_pos hp, ih h]
  | case4 links place front hd hp ih =>
    rw [List.cons_append, walk, if_neg hd, if_neg hp, if_pos rfl, ih h]
  | case5 _ _ _ _ _ _ _ hs => cases hs.1
  | case6 links place part front hd hp hu hs hl =>
    rw [List.cons_append, walk_of_isName (by simpa using hd) (isName_of hp hu), if_neg (by simp),
      if_pos hl, h]
  | case7 _ _ _ _ _ _ _ _ _ _ hc => cases hc.1
  | case8 links place part front hd hp hu hs hl he hc =>
    rw [List.cons_append, walk_of_isName (by simpa using hd) (isName_of hp hu), if_neg (by simp),
      if_neg hl, he, ← h]
    exact if_neg (by simp)
  | case9 place part front hd hp hu hs hl target he =>
    rw [List.cons_append, walk_of_isName (by simpa using hd) (isName_of hp hu), if_neg (by simp),
      if_neg hl, he, h]
  | case10 place part front hd hp hu hs hl target he links ih =>
    rw [dite_eq_ite] at ih
    rw [List.cons_append, walk_of_isName (by simpa using hd) (isName_of hp hu), if_neg (by simp),
      if_neg hl, he, ← ih h, List.append_assoc]
  | case11 links place part front hd hp hu hs hl entry hlink he ih =>
    rw [List.cons_append, walk_of_isName (by simpa using hd) (isName_of hp hu), if_neg (by simp),
      if_neg hl, he, ← ih h]
    cases entry with
    | link target => exact absurd rfl (hlink target)
    | directory => rfl
    | file contents => rfl

def named (parts : List Text) : List Text := parts.filter fun part => part != [] && part != ['.']

theorem named_cons_of_not {part : Text} (hp : part = [] ∨ part = ['.']) (rest : List Text) :
    named (part :: rest) = named rest :=
  List.filter_cons_of_neg (by simpa [or_iff_not_imp_left] using hp)

theorem named_cons {part : Text} (hp : ¬ (part = [] ∨ part = ['.'])) (rest : List Text) :
    named (part :: rest) = part :: named rest :=
  List.filter_cons_of_pos (by simpa [not_or] using hp)

theorem walk_of_named (hd : files.isDirectoryAt result = true)
    (h : files.walk .find links place (named parts) = .ok result) :
    files.walk .find links place parts = .ok result := by
  induction parts generalizing links place with
  | nil => exact h
  | cons part rest ih =>
    by_cases hp : part = [] ∨ part = ['.']
    · rw [named_cons_of_not hp] at h
      have hplace : files.isDirectoryAt place = true := by
        cases hrest : named rest with
        | nil =>
          rw [hrest, walk] at h
          cases h
          exact hd
        | cons next more =>
          by_contra hn
          rw [hrest, walk, if_pos (by simpa using hn)] at h
          cases h
      rw [walk, if_neg (by simpa using hplace), if_pos hp]
      exact ih h
    · rw [named_cons hp, ← List.singleton_append] at h
      cases hfirst : files.walk .find links place [part] with
      | error cause =>
        rw [walk_append_of_error hfirst] at h
        cases h
      | ok middle =>
        obtain ⟨left, hon⟩ := walk_append_of_ok hfirst
        rw [hon .find _ (by decide) (by simp)] at h
        rw [← List.singleton_append, hon .find _ (by decide) (by simp)]
        exact ih h

theorem walk_of_named_error (h : files.walk .find links place (named parts) = .error cause) :
    files.walk .find links place parts = .error cause := by
  induction parts generalizing links place with
  | nil => exact h
  | cons part rest ih =>
    by_cases hp : part = [] ∨ part = ['.']
    · rw [named_cons_of_not hp] at h
      by_cases hplace : files.isDirectoryAt place = true
      · rw [walk, if_neg (by simpa using hplace), if_pos hp]
        exact ih h
      · rw [walk, if_pos (by simpa using hplace)]
        cases hrest : named rest with
        | nil =>
          rw [hrest, walk] at h
          cases h
        | cons next more =>
          rwa [hrest, walk, if_pos (by simpa using hplace)] at h
    · rw [named_cons hp, ← List.singleton_append] at h
      rw [← List.singleton_append]
      cases hfirst : files.walk .find links place [part] with
      | error found =>
        rw [walk_append_of_error hfirst] at h ⊢
        exact h
      | ok middle =>
        obtain ⟨left, hon⟩ := walk_append_of_ok hfirst
        rw [hon .find _ (by decide) (by simp)] at h ⊢
        exact ih h

theorem byteSize_le_of_walk {purpose : Purpose} (h : files.walk purpose links place parts = .ok result)
    {part : Text} (hm : part ∈ parts) : Text.byteSize part ≤ maxName := by
  fun_induction files.walk purpose links place parts with
  | case1 => cases hm
  | case2 => cases h
  | case3 links place first rest hd hp ih =>
    rcases List.mem_cons.1 hm with rfl | hm
    · rcases hp with rfl | rfl <;> decide
    · exact ih h hm
  | case4 links place rest hd hp ih =>
    rcases List.mem_cons.1 hm with rfl | hm
    · decide
    · exact ih h hm
  | case5 => cases h
  | case6 => cases h
  | case7 links place first rest hd hp hu hs hl he hc =>
    rw [hc.2] at hm
    rw [List.mem_singleton.1 hm]
    simp only [isTooLong, Bool.or_eq_true, not_or, decide_eq_true_eq] at hl
    omega
  | case8 => cases h
  | case9 => cases h
  | case10 place first rest hd hp hu hs hl target he links ih =>
    rw [dite_eq_ite] at ih
    rcases List.mem_cons.1 hm with rfl | hm
    · simp only [isTooLong, Bool.or_eq_true, not_or, decide_eq_true_eq] at hl
      omega
    · exact ih h (List.mem_append_right _ hm)
  | case11 links place first rest hd hp hu hs hl entry hlink he ih =>
    rcases List.mem_cons.1 hm with rfl | hm
    · simp only [isTooLong, Bool.or_eq_true, not_or, decide_eq_true_eq] at hl
      omega
    · exact ih h hm

variable (files) in
def IsRooted : Prop :=
  ∀ place, files.isDirectoryAt place = true → files.isDirectoryAt place.dropLast = true

variable (files) in
def IsPassable (base : Location) (names : List Text) : Prop :=
  ∀ place, OnWay base names place → files.entry? place = none ∨ files.isDirectoryAt place = true

theorem IsPassable.of_isPrefix (h : files.IsPassable base rest) (hp : inside <+: rest) :
    files.IsPassable base inside := by
  rintro place ⟨front, hf, rfl⟩
  exact h _ ⟨front, hf.trans hp, rfl⟩

theorem IsPassable.tail {part : Text} (h : files.IsPassable base (part :: rest)) :
    files.IsPassable (step base part) rest := by
  rintro place ⟨front, hf, rfl⟩
  exact h _ ⟨part :: front, List.cons_prefix_cons.2 ⟨rfl, hf⟩, rfl⟩

theorem walk_of_isPassable (hrooted : files.IsRooted) (hbase : files.isDirectoryAt base = true)
    (hpass : files.IsPassable base inside)
    (hn : ∀ part ∈ inside, part ≠ [] ∧ part ≠ ['.'] ∧ Text.byteSize part ≤ maxName) :
    (files.walk .find links base inside = .ok (lexical base inside) ∧
      ∀ place, OnWay base inside place → files.isDirectoryAt place = true) ∨
    files.walk .find links base inside = .error .notFound ∧
      ∃ place, OnWay base inside place ∧ files.entry? place = none := by
  induction inside generalizing base with
  | nil =>
    refine .inl ⟨by rw [walk, lexical_nil], ?_⟩
    rintro place ⟨front, hf, rfl⟩
    rw [List.prefix_nil.1 hf]
    exact hbase
  | cons part rest ih =>
    obtain ⟨hne, hdot, hsize⟩ := hn part List.mem_cons_self
    have hrest := fun part hm => hn part (List.mem_cons_of_mem _ hm)
    -- once the first name leads to a directory, the rest of the names decides
    have hon : files.isDirectoryAt (step base part) = true →
        files.walk .find links base (part :: rest) = files.walk .find links (step base part) rest →
        (files.walk .find links base (part :: rest) = .ok (lexical base (part :: rest)) ∧
          ∀ place, OnWay base (part :: rest) place → files.isDirectoryAt place = true) ∨
        files.walk .find links base (part :: rest) = .error .notFound ∧
          ∃ place, OnWay base (part :: rest) place ∧ files.entry? place = none := by
      intro hstep hwalk
      rw [hwalk, lexical_cons]
      refine (ih hstep hpass.tail hrest).imp (fun hok => ⟨hok.1, ?_⟩) fun herror => ⟨herror.1, ?_⟩
      · rintro place ⟨front, hf, rfl⟩
        cases front with
        | nil => exact hbase
        | cons first front =>
          obtain ⟨rfl, hmore⟩ := List.cons_prefix_cons.1 hf
          exact hok.2 _ ⟨front, hmore, rfl⟩
      · obtain ⟨_, ⟨front, hf, rfl⟩, hnone⟩ := herror.2
        exact ⟨_, ⟨part :: front, List.cons_prefix_cons.2 ⟨rfl, hf⟩, rfl⟩, hnone⟩
    by_cases hu : part = ['.', '.']
    · subst hu
      refine hon (hrooted base hbase) ?_
      rw [walk, if_neg (by simpa using hbase), if_neg (by simp), if_pos rfl]
      rfl
    · have hname : IsName part := ⟨hne, hdot, hu⟩
      have hshort : ¬ isTooLong .find base part = true := by
        simp only [isTooLong_eq (by decide : Purpose.find ≠ .name), decide_eq_true_eq]
        omega
      have hplace := hpass _ ⟨[part], by simp, rfl⟩
      rw [lexical_cons, lexical_nil, step_of_isName hname] at hplace
      rcases hplace with hnone | hdir
      · rw [← step_of_isName hname base] at hnone
        refine .inr ⟨?_, _, ⟨[part], by simp, rfl⟩, hnone⟩
        rw [step_of_isName hname] at hnone
        rw [walk_of_isName hbase hname, if_neg (by simp), if_neg hshort, hnone]
        exact if_neg (by simp)
      · refine hon (step_of_isName hname base ▸ hdir) ?_
        rw [isDirectoryAt, beq_iff_eq] at hdir
        rw [walk_of_isName hbase hname, if_neg (by simp), if_neg hshort, hdir, step_of_isName hname]

theorem walk_parts_of_isPassable (hrooted : files.IsRooted) (hbase : files.isDirectoryAt base = true)
    (hb : files.walk .find links place front = .ok base) (hpass : files.IsPassable base inside)
    (hn : ∀ part ∈ inside, part ≠ [] ∧ part ≠ ['.'] ∧ Text.byteSize part ≤ maxName)
    (hp : named parts = front ++ inside) :
    (files.walk .find links place parts = .ok (lexical base inside) ∧
      ∀ place, OnWay base inside place → files.isDirectoryAt place = true) ∨
    files.walk .find links place parts = .error .notFound ∧
      ∃ place, OnWay base inside place ∧ files.entry? place = none := by
  obtain ⟨left, hon⟩ := walk_append_of_ok hb
  have hnames : files.walk .find links place (named parts) = files.walk .find left base inside := by
    rw [hp, hon .find _ (by decide) (by simp)]
  rcases walk_of_isPassable hrooted hbase hpass hn with ⟨hok, hdirs⟩ | ⟨herror, hnone⟩
  · exact .inl ⟨walk_of_named (hdirs _ ⟨inside, List.prefix_rfl, rfl⟩) (hnames.trans hok), hdirs⟩
  · exact .inr ⟨walk_of_named_error (hnames.trans herror), hnone⟩

end
end FileSystem
end MailTemplate
