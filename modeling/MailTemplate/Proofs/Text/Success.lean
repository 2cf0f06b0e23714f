import Mathlib.Init

/-! Steps that may fail: what is known when they succeed, and when they fail. -/

namespace MailTemplate

section
variable {α β ε ε' : Type}

theorem bind_eq_ok_iff {step : Except ε α} {next : α → Except ε β} {result : β} :
    (step >>= next) = .ok result ↔ ∃ value, step = .ok value ∧ next value = .ok result := by
  cases step with
  | error cause =>
    constructor
    · intro h
      cases h
    · rintro ⟨value, h, -⟩
      cases h
  | ok value =>
    constructor
    · intro h
      exact ⟨value, rfl, h⟩
    · rintro ⟨other, h, hn⟩
      cases h
      exact hn

theorem bind_eq_error_iff {step : Except ε α} {next : α → Except ε β} {cause : ε} :
    (step >>= next) = .error cause ↔
      step = .error cause ∨ ∃ value, step = .ok value ∧ next value = .error cause := by
  cases step with
  | error found =>
    constructor
    · intro h
      cases h
      exact .inl rfl
    · rintro (h | ⟨value, h, -⟩)
      · cases h
        rfl
      · cases h
  | ok value =>
    constructor
    · intro h
      exact .inr ⟨value, rfl, h⟩
    · rintro (h | ⟨other, h, hn⟩)
      · cases h
      · cases h
        exact hn

theorem bind_congr_of_ok {step : Except ε α} {next other : α → Except ε β}
    (h : ∀ value, step = .ok value → other value = next value) :
    (step >>= other) = (step >>= next) := by
  cases step with
  | error cause => rfl
  | ok value => exact h value rfl

theorem map_eq_ok_iff {step : Except ε α} {f : α → β} {result : β} :
    step.map f = .ok result ↔ ∃ value, step = .ok value ∧ f value = result := by
  cases step <;> simp [Except.map]

theorem map_eq_error_iff {step : Except ε α} {f : α → β} {cause : ε} :
    step.map f = .error cause ↔ step = .error cause := by
  cases step <;> simp [Except.map]

theorem mapError_eq_ok_iff {step : Except ε α} {f : ε → ε'} {result : α} :
    step.mapError f = .ok result ↔ step = .ok result := by
  constructor
  · intro h
    cases step with
    | error cause => cases h
    | ok value =>
      cases h
      rfl
  · rintro rfl
    rfl

theorem mapError_map (step : Except ε α) (f : α → β) (g : ε → ε') :
    (step.map f).mapError g = (step.mapError g).map f := by
  cases step <;> rfl

theorem mem_of_mapM_eq_ok {f : α → Except ε β} {inputs : List α} {outputs : List β}
    (h : inputs.mapM f = .ok outputs) {output : β} (hm : output ∈ outputs) :
    ∃ input ∈ inputs, f input = .ok output := by
  induction inputs generalizing outputs with
  | nil =>
    cases h
    cases hm
  | cons first rest ih =>
    rw [List.mapM_cons] at h
    obtain ⟨value, hf, h⟩ := bind_eq_ok_iff.1 h
    obtain ⟨values, hr, h⟩ := bind_eq_ok_iff.1 h
    cases h
    rcases List.mem_cons.1 hm with rfl | hm
    · exact ⟨first, List.mem_cons_self, hf⟩
    · obtain ⟨input, hi, he⟩ := ih hr hm
      exact ⟨input, List.mem_cons_of_mem _ hi, he⟩

theorem exists_mapM_eq_error_iff {f : α → Except ε β} {inputs : List α} :
    (∃ cause, inputs.mapM f = .error cause) ↔ ∃ input ∈ inputs, ∃ cause, f input = .error cause := by
  induction inputs with
  | nil =>
    constructor
    · rintro ⟨cause, h⟩
      cases h
    · rintro ⟨input, hm, -⟩
      cases hm
  | cons first rest ih =>
    rw [List.mapM_cons]
    constructor
    · rintro ⟨cause, h⟩
      rcases bind_eq_error_iff.1 h with hf | ⟨value, -, h⟩
      · exact ⟨first, List.mem_cons_self, cause, hf⟩
      · rcases bind_eq_error_iff.1 h with hr | ⟨values, -, h⟩
        · obtain ⟨input, hm, he⟩ := ih.1 ⟨cause, hr⟩
          exact ⟨input, List.mem_cons_of_mem _ hm, he⟩
        · cases h
    · rintro ⟨input, hm, he⟩
      cases hf : f first with
      | error cause => exact ⟨cause, bind_eq_error_iff.2 (.inl rfl)⟩
      | ok value =>
        have hrest : ∃ cause, rest.mapM f = .error cause := by
          rcases List.mem_cons.1 hm with rfl | hm
          · obtain ⟨cause, he⟩ := he
            cases hf.symm.trans he
          · exact ih.2 ⟨input, hm, he⟩
        obtain ⟨cause, hr⟩ := hrest
        exact ⟨cause, bind_eq_error_iff.2 (.inr ⟨value, rfl, bind_eq_error_iff.2 (.inl hr)⟩)⟩

end
end MailTemplate
