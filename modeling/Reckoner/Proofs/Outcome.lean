import Reckoner.Error
/-!
What a computation has gone through that succeeds, or that fails.
-/
namespace Reckoner

variable {ε ε' α β : Type}

theorem bind_eq_ok_iff {x : Except ε α} {f : α → Except ε β} {y : β} :
    x >>= f = .ok y ↔ ∃ v, x = .ok v ∧ f v = .ok y := by
  constructor
  · intro h
    cases x with
    | error e => cases h
    | ok v => exact ⟨v, rfl, h⟩
  · rintro ⟨v, rfl, h⟩
    exact h

theorem bind_eq_error_iff {x : Except ε α} {f : α → Except ε β} {e : ε} :
    x >>= f = .error e ↔ x = .error e ∨ ∃ v, x = .ok v ∧ f v = .error e := by
  constructor
  · intro h
    cases x with
    | error e' => exact .inl (congrArg Except.error (Except.error.inj h))
    | ok v => exact .inr ⟨v, rfl, h⟩
  · rintro (rfl | ⟨v, rfl, h⟩)
    · rfl
    · exact h

theorem mapError_eq_ok_iff {x : Except ε α} {f : ε → ε'} {y : α} :
    x.mapError f = .ok y ↔ x = .ok y := by
  constructor
  · intro h
    cases x with
    | error e => cases h
    | ok v => exact congrArg Except.ok (Except.ok.inj h)
  · rintro rfl
    rfl

theorem mapError_eq_error_iff {x : Except ε α} {f : ε → ε'} {e : ε'} :
    x.mapError f = .error e ↔ ∃ cause, x = .error cause ∧ e = f cause := by
  constructor
  · intro h
    cases x with
    | error cause => exact ⟨cause, rfl, (Except.error.inj h).symm⟩
    | ok v => cases h
  · rintro ⟨cause, rfl, rfl⟩
    rfl

/-- A computation that also changes a state. -/
theorem run_bind_eq_ok_iff {σ : Type} {x : ExceptT ε (StateM σ) α} {f : α → ExceptT ε (StateM σ) β}
    {y : β} {s s'' : σ} :
    (x >>= f) s = (.ok y, s'') ↔ ∃ v s', x s = (.ok v, s') ∧ f v s' = (.ok y, s'') := by
  have hbind : (x >>= f) s =
      match x s with
      | (.ok v, s') => f v s'
      | (.error e, s') => (.error e, s') := by
    simp only [Bind.bind, ExceptT.bind, ExceptT.mk, StateT.bind]
    rcases x s with ⟨e | v, s'⟩ <;> rfl
  rw [hbind]
  constructor
  · intro h
    rcases hx : x s with ⟨e | v, s'⟩
    · rw [hx] at h
      cases h
    · rw [hx] at h
      exact ⟨v, s', rfl, h⟩
  · rintro ⟨v, s', hx, h⟩
    rw [hx]
    exact h

/-- It fails where its first part does, or else where what follows does. -/
theorem run_bind_eq_error_iff {σ : Type} {x : ExceptT ε (StateM σ) α}
    {f : α → ExceptT ε (StateM σ) β} {e : ε} {s s'' : σ} :
    (x >>= f) s = (.error e, s'') ↔
      x s = (.error e, s'') ∨ ∃ v s', x s = (.ok v, s') ∧ f v s' = (.error e, s'') := by
  simp only [Bind.bind, ExceptT.bind, ExceptT.mk, StateT.bind]
  rcases x s with ⟨e' | v, s'⟩
  · constructor
    · intro h
      cases h
      exact .inl rfl
    · rintro (h | ⟨v, s', h, -⟩) <;> cases h
      rfl
  · constructor
    · intro h
      exact .inr ⟨v, s', rfl, h⟩
    · rintro (h | ⟨v, s', h, h'⟩) <;> cases h
      exact h'

end Reckoner
