import Reckoner.Proofs.Retyping
/-!
Keys that are taken back. `delete` takes back the key that was taken last, whether it began a token or
went on with a number; so as many deletions as keys have been taken give back the expression, with
those that were refused left out of count (`run_undo`).
-/
namespace Reckoner

namespace Expression

variable {e : Expression}

/-- The expression after some keys. -/
def typed (e : Expression) (keys : List Key) : Expression := keys.foldl (fun e k => (e.add k).2) e

/-- How many of some keys are taken, one after the other. -/
def taken : Expression → List Key → Nat
  | _, [] => 0
  | e, k :: keys =>
    match e.add k with
    | (true, e') => taken e' keys + 1
    | (false, e') => taken e' keys

/-- As many deletions as keys were taken lead back to where they began. -/
theorem iterate_delete_typed (he : e.Tidy) (keys : List Key) :
    delete^[e.taken keys] (e.typed keys) = e := by
  induction keys generalizing e with
  | nil => rfl
  | cons k keys ih =>
    rw [typed, List.foldl_cons, taken]
    have htidy := he.add k
    rcases hadd : e.add k with ⟨_ | _, e'⟩ <;> rw [hadd] at htidy
    · have hsame : (e.add k).2 = e := add_of_refused (congrArg Prod.fst hadd)
      rw [hadd] at hsame
      subst hsame
      exact ih htidy
    · have hback : delete^[e'.taken keys] (e'.typed keys) = e' := ih htidy
      rw [Function.iterate_succ_apply']
      exact (congrArg delete hback).trans (delete_add he hadd)

end Expression

namespace Edit

variable {store : List Expression} {e : Expression} {i : Nat}

theorem set_eq_self (he : store[i]? = some e) : store.set i e = store := by
  obtain ⟨hi, rfl⟩ := List.getElem?_eq_some_iff.1 he
  exact List.set_getElem_self hi

/-- Edits of one expression, each of which changes it as `f` says. -/
theorem run_map_set {α : Type} {f : Expression → α → Expression} {edit : α → Edit}
    (hedit : ∀ {store e} x, store[i]? = some e → apply store (edit x) = some (store.set i (f e x)))
    (he : store[i]? = some e) (xs : List α) :
    run store (xs.map edit) = some (store.set i (xs.foldl f e)) := by
  induction xs generalizing store e with
  | nil => exact congrArg some (set_eq_self he).symm
  | cons x xs ih =>
    have hi := (List.getElem?_eq_some_iff.1 he).1
    have hset : (store.set i (f e x))[i]? = some (f e x) := List.getElem?_set_self hi
    have hrest := ih hset
    rw [List.set_set] at hrest
    rw [List.map_cons, run, List.foldlM_cons, hedit x he]
    exact hrest

theorem apply_add (k : Key) (he : store[i]? = some e) :
    apply store (.add i k) = some (store.set i (e.add k).2) := by
  rw [apply, he]
  rfl

theorem apply_delete (he : store[i]? = some e) :
    apply store (.delete i) = some (store.set i e.delete) := by
  rw [apply, he]
  rfl

theorem run_add (he : store[i]? = some e) (keys : List Key) :
    run store (keys.map (.add i)) = some (store.set i (e.typed keys)) :=
  run_map_set apply_add he keys

theorem run_delete (he : store[i]? = some e) (n : Nat) :
    run store (List.replicate n (.delete i)) = some (store.set i (Expression.delete^[n] e)) := by
  have hrun := run_map_set (f := fun e (_ : Unit) => e.delete) (fun _ => apply_delete) he
    (List.replicate n ())
  rwa [List.map_replicate, List.foldl_const, List.length_replicate] at hrun

/-- Of expressions that come of edits of empty ones, a key that one of them refuses changes none; and
after any keys, as many deletions as it has taken of them give all of them back. -/
theorem run_undo {edits : List Edit} (hrun : run [] edits = some store) (he : store[i]? = some e)
    (keys : List Key) :
    (∀ k, (e.add k).1 = false → apply store (.add i k) = some store) ∧
      ∃ store', run store (keys.map (.add i)) = some store' ∧
        run store' (List.replicate (e.taken keys) (.delete i)) = some store := by
  have htidy := tidy_run (fun _ h => absurd h List.not_mem_nil) hrun e (List.mem_of_getElem? he)
  refine ⟨fun k hk => ?_, store.set i (e.typed keys), run_add he keys, ?_⟩
  · rw [apply_add k he, Expression.add_of_refused hk, set_eq_self he]
  · have hi := (List.getElem?_eq_some_iff.1 he).1
    have hset : (store.set i (e.typed keys))[i]? = some (e.typed keys) := List.getElem?_set_self hi
    rw [run_delete hset, Expression.iterate_delete_typed htidy, List.set_set, set_eq_self he]

/-- After 7.3 has been typed on to 7.35! − √2, with a second point and a second sign refused. -/
theorem run_undo_number :
    let edits : List Edit := [.new, .add 0 (.digit 7), .add 0 .point, .clone 0, .add 0 (.digit 3)]
    let store : List Expression := [[.literal ⟨"7", true, "3"⟩], [.literal ⟨"7", true, ""⟩]]
    let e : Expression := [.literal ⟨"7", true, "3"⟩]
    let keys : List Key := [.point, .digit 5, .suffix .factorial, .binary .minus, .binary .times, .root,
      .digit 2]
    let typed : Expression := [.literal ⟨"7", true, "35"⟩, .operator (.suffix .factorial),
      .operator (.binary .minus), .operator .root, .literal ⟨"2", false, ""⟩]
    run [] edits = some store ∧ store[0]? = some e ∧ e.taken keys = 5 ∧
      apply store (.add 0 .point) = some store ∧
      run store (keys.map (.add 0)) = some (store.set 0 typed) ∧
      run (store.set 0 typed) (List.replicate 5 (.delete 0)) = some store := by
  intro edits store e keys typed
  have hrun : run [] edits = some store := rfl
  have he : store[0]? = some e := rfl
  have htaken : e.taken keys = 5 := rfl
  have htyped : run store (keys.map (.add 0)) = some (store.set 0 typed) := rfl
  obtain ⟨hrefused, store', hstore', hback⟩ := run_undo hrun he keys
  obtain rfl : store.set 0 typed = store' := Option.some.inj (htyped.symm.trans hstore')
  exact ⟨hrun, he, htaken, hrefused .point rfl, htyped, htaken ▸ hback⟩

end Edit

end Reckoner
