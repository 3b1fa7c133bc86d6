import Reckoner.Proofs.Outcome
import Reckoner.Reals.Memory
/-!
Computations with the memory: how their parts follow each other, and what one has gone through that
succeeds or that fails.
-/
namespace Reckoner.Reals.Recall

variable {ε ε' ε'' α β : Type} {x : Recall ε α} {m m' : Memory}

theorem bind_apply (x : Recall ε α) (f : α → Recall ε β) (m : Memory) :
    (x >>= f) m = match x m with
      | (.ok v, m) => f v m
      | (.error e, m) => (.error e, m) := by
  simp only [Bind.bind, ExceptT.bind, ExceptT.mk, StateT.bind]
  rcases x m with ⟨e | v, m'⟩ <;> rfl

theorem bind_of_ok {f : α → Recall ε β} {v : α} (h : x m = (.ok v, m')) :
    (x >>= f) m = f v m' := by
  rw [bind_apply, h]

theorem bind_of_error {f : α → Recall ε β} {e : ε} (h : x m = (.error e, m')) :
    (x >>= f) m = (.error e, m') := by
  rw [bind_apply, h]

theorem pure_apply (v : α) (m : Memory) : (pure v : Recall ε α) m = (.ok v, m) := rfl

theorem ofExcept_apply (x : Except ε α) (m : Memory) : ofExcept x m = (x, m) := rfl

theorem mapError_apply (f : ε → ε') (x : Recall ε α) (m : Memory) :
    x.mapError f m = ((x m).1.mapError f, (x m).2) := rfl

@[simp]
theorem ofExcept_ok (v : α) : ofExcept (.ok v : Except ε α) = pure v := rfl

theorem ofExcept_bind (x : Except ε α) (f : α → Except ε β) :
    ofExcept (x >>= f) = ofExcept x >>= fun v => ofExcept (f v) := by
  cases x <;> rfl

theorem mapError_ofExcept (f : ε → ε') (x : Except ε α) :
    (ofExcept x).mapError f = ofExcept (x.mapError f) := rfl

theorem mapError_bind (f : ε → ε') (x : Recall ε α) (k : α → Recall ε β) :
    (x >>= k).mapError f = x.mapError f >>= fun v => (k v).mapError f := by
  funext m
  simp only [mapError_apply, bind_apply]
  rcases x m with ⟨e | v, m'⟩ <;> rfl

theorem mapError_mapError (f : ε → ε') (g : ε' → ε'') (x : Recall ε α) :
    (x.mapError f).mapError g = x.mapError fun e => g (f e) := by
  funext m
  simp only [mapError_apply]
  rcases x m with ⟨e | v, m'⟩ <;> rfl

theorem ofExcept_eq_ok_iff {x : Except ε α} {v : α} :
    ofExcept x m = (.ok v, m') ↔ x = .ok v ∧ m = m' := by
  rw [ofExcept_apply, Prod.mk.injEq]

theorem mapError_eq_ok_iff {f : ε → ε'} {v : α} :
    x.mapError f m = (.ok v, m') ↔ x m = (.ok v, m') := by
  rw [mapError_apply, Prod.mk.injEq, Reckoner.mapError_eq_ok_iff, Prod.ext_iff]

theorem mapError_eq_error_iff {f : ε → ε'} {e : ε'} :
    x.mapError f m = (.error e, m') ↔ ∃ cause, x m = (.error cause, m') ∧ e = f cause := by
  rw [mapError_apply, Prod.mk.injEq, Reckoner.mapError_eq_error_iff]
  constructor
  · rintro ⟨⟨cause, hx, rfl⟩, rfl⟩
    exact ⟨cause, Prod.ext hx rfl, rfl⟩
  · rintro ⟨cause, hx, rfl⟩
    rw [hx]
    exact ⟨⟨cause, rfl, rfl⟩, rfl⟩

end Reckoner.Reals.Recall
