import Mathlib.Data.List.Chain
import Reckoner.Proofs.History
/-!
Edits keep expressions tidy: numbers do not touch each other or collapsed tokens, each has something
typed, and digits and points are never operators. This holds of every expression that comes out of
edits of empty ones, and of every expression that a collapsed token came from (`tidy_run`).
-/
namespace Reckoner

/-- Of two tokens side by side, one is an operator. -/
def Expression.Spaced (e : Expression) : Prop :=
  e.IsChain fun s t => s.isOperator ∨ t.isOperator

/-- A number with something typed, an operator that is neither digit nor point, or a collapsed token over
tokens that do not touch. -/
def Token.Tidy : Token → Prop
  | .literal l => l.WellFormed ∧ l.isEmpty = false
  | .operator k => k.digit? = none ∧ k ≠ .point
  | .collapsed _ _ source _ _ => Expression.Spaced source

/-- At every depth: tokens that do not touch, each of them tidy. -/
structure Expression.Tidy (e : Expression) : Prop where
  spaced : e.Spaced
  within : ∀ t ∈ e.within, t.Tidy

namespace Literal

variable {l : Literal} {k : Key}

theorem isEmpty_append_digit (s : String) (d : Fin 10) :
    (s ++ digitText (.digit d)).isEmpty = false := by
  have hdigit : (digitText (.digit d)).isEmpty = false := by
    revert d
    decide
  simp only [String.isEmpty_eq_false_iff] at hdigit ⊢
  intro h
  exact hdigit (String.append_eq_empty_iff.1 h).2

theorem isEmpty_type (hk : k = .point ∨ ∃ d, k = .digit d) : (l.type k).2.isEmpty = false := by
  unfold Literal.type
  rcases hk with rfl | ⟨d, rfl⟩
  · rw [if_pos rfl]
    split
    · rename_i hpoint
      simp [isEmpty, hpoint]
    · rfl
  · rw [if_neg (by simp)]
    split
    · rename_i hpoint
      simp [isEmpty, hpoint]
    · simp [isEmpty, isEmpty_append_digit]

end Literal

namespace Expression

variable {e e' : Expression} {t : Token} {l : Literal} {k : Key}

namespace Tidy

theorem nil : Tidy [] :=
  ⟨List.isChain_nil, fun _ ht => absurd ht List.not_mem_nil⟩

theorem source {name : Nat} {value : Dual} {source : Expression} {context : Context} {short : String}
    (h : e.Tidy) (ht : .collapsed name value source context short ∈ e.within) : source.Tidy :=
  ⟨h.within _ ht, fun _ hs => h.within _ (within_trans ht hs)⟩

theorem of_initial (h : e.Tidy) (hp : e' <+: e) : e'.Tidy := by
  obtain ⟨rest, rfl⟩ := hp
  exact ⟨(List.isChain_append.1 h.spaced).1,
    fun t ht => h.within t (within_subset (List.subset_append_left e' rest) ht)⟩

theorem append (h : e.Tidy) (h' : e'.Tidy)
    (hseam : ∀ s ∈ e.getLast?, ∀ t ∈ e'.head?, s.isOperator ∨ t.isOperator) : (e ++ e').Tidy := by
  refine ⟨List.isChain_append.2 ⟨h.spaced, h'.spaced, hseam⟩, fun t ht => ?_⟩
  rw [within_append, List.mem_append] at ht
  exact ht.elim (h.within t) (h'.within t)

theorem operator (hk : k.digit? = none ∧ k ≠ .point) : Tidy [.operator k] := by
  refine ⟨List.isChain_singleton _, fun t ht => ?_⟩
  simp only [Expression.within, Token.within, List.append_nil, List.mem_singleton] at ht
  exact ht ▸ hk

theorem number (hl : l.WellFormed) (hempty : l.isEmpty = false) : Tidy [.literal l] := by
  refine ⟨List.isChain_singleton _, fun t ht => ?_⟩
  simp only [Expression.within, Token.within, List.append_nil, List.mem_singleton] at ht
  exact ht ▸ ⟨hl, hempty⟩

theorem appendOperator (h : e.Tidy) (hk : k.digit? = none ∧ k ≠ .point) :
    Tidy (e ++ [.operator k]) := by
  refine h.append (operator hk) fun s _ t ht => .inr ?_
  obtain rfl := Option.some.inj ht
  rfl

theorem last (h : e.Tidy) (hl : e.getLast? = some (.literal l)) :
    l.WellFormed ∧ l.isEmpty = false :=
  h.within _ (mem_within_of_mem (List.mem_of_getLast? hl))

/-- The number at the end gives way to another. -/
theorem replaceLast {l' : Literal} (h : e.Tidy) (hl : e.getLast? = some (.literal l))
    (hl' : l'.WellFormed) (hempty : l'.isEmpty = false) : Tidy (e.dropLast ++ [.literal l']) := by
  obtain ⟨init, rfl⟩ := List.getLast?_eq_some_iff.1 hl
  rw [List.dropLast_concat]
  have hseam := (List.isChain_append.1 h.spaced).2.2
  refine (h.of_initial (List.prefix_append _ _)).append (number hl' hempty) fun s hs t ht => ?_
  obtain rfl := Option.some.inj ht
  exact hseam s hs (.literal l) rfl

theorem addToNumber (h : e.Tidy) (hk : k = .point ∨ ∃ d, k = .digit d) : (e.addToNumber k).2.Tidy := by
  have hnew : (∀ s ∈ e.getLast?, s.isOperator) →
      Tidy (e ++ [.literal (Literal.empty.type k).2]) := fun hlast =>
    h.append (number (Literal.wellFormed_empty.type hk) (Literal.isEmpty_type hk))
      fun s hs t _ => .inl (hlast s hs)
  unfold Expression.addToNumber
  split
  · rename_i l hlast
    exact h.replaceLast hlast ((h.last hlast).1.type hk) (Literal.isEmpty_type hk)
  · rename_i t hnumber hlast
    split
    · exact h
    · rename_i hcloses
      refine hnew fun s hs => ?_
      obtain rfl := Option.some.inj (hs.symm.trans hlast)
      -- what does not close an operand and is no number is an operator
      cases s with
      | operator k => rfl
      | literal l => exact absurd rfl (hnumber l)
      | collapsed => exact absurd rfl hcloses
  · rename_i hlast
    exact hnew (by simp [hlast])

theorem add (h : e.Tidy) (k : Key) : (e.add k).2.Tidy := by
  unfold Expression.add
  split
  · exact h.addToNumber (.inr ⟨_, rfl⟩)
  · exact h.addToNumber (.inl rfl)
  · split
    · exact h
    · exact h.appendOperator ⟨rfl, Key.noConfusion⟩
  · rename_i hdigit hpoint _
    refine h.appendOperator ⟨?_, hpoint⟩
    cases k with
    | digit d => exact absurd rfl (hdigit d)
    | _ => rfl

theorem delete (h : e.Tidy) : e.delete.Tidy := by
  have hinit := h.of_initial (List.dropLast_prefix e)
  unfold Expression.delete
  split
  · rename_i l hlast
    split
    · exact hinit
    · rename_i hempty
      exact h.replaceLast hlast (h.last hlast).1.delete (by simpa using hempty)
  · exact hinit

theorem join (h : e.Tidy) (h' : e'.Tidy) : (e.join e').Tidy := by
  unfold Expression.join
  split
  · rename_i last first hlast hfirst
    split
    · -- the sign between two operands touches neither
      have hsign : Tidy (e ++ [.operator (.binary .times)]) := h.appendOperator ⟨rfl, by simp⟩
      have hjoined := hsign.append h' fun s hs t _ => .inl ?_
      · simpa using hjoined
      · rw [List.getLast?_concat, Option.mem_some_iff] at hs
        rw [← hs]
        rfl
    · rename_i hoperands
      refine h.append h' fun s hs t ht => ?_
      obtain rfl := Option.some.inj (hs.symm.trans hlast)
      obtain rfl := Option.some.inj (ht.symm.trans hfirst)
      simp only [Bool.and_eq_true, Bool.not_eq_true', not_and, Bool.not_eq_false] at hoperands
      cases ht' : t.isOperator with
      | true => exact .inr rfl
      | false => exact .inl (hoperands ht')
  · rename_i hnone
    refine h.append h' fun s hs t ht => absurd ht ?_
    exact fun ht => hnone s t hs ht

theorem abbreviate (h : e.Tidy) (name : Nat) (value : Dual) (degrees : Bool) (short : String) :
    (e.abbreviate name value degrees short).Tidy := by
  refine ⟨List.isChain_singleton _, fun t ht => ?_⟩
  simp only [Expression.abbreviate, Expression.within, Token.within, List.append_nil,
    List.mem_cons] at ht
  rcases ht with rfl | ht
  · exact h.spaced
  · exact h.within t ht

end Tidy

end Expression

/-- What is done to expressions, which are told by their places. An expression that is made comes after
the others. -/
inductive Edit where
  | new
  | add (i : Nat) (k : Key)
  | delete (i : Nat)
  | clear (i : Nat)
  | clone (i : Nat)
  | join (i j : Nat)
  | abbreviate (i name : Nat) (value : Dual) (degrees : Bool) (short : String)

/-- The expressions after an edit, if it is one of expressions that there are. An expression cannot be
joined to itself. -/
def Edit.apply (store : List Expression) : Edit → Option (List Expression)
  | new => some (store ++ [[]])
  | add i k => do
    let e ← store[i]?
    return store.set i (e.add k).2
  | delete i => do
    let e ← store[i]?
    return store.set i e.delete
  | clear i => do
    let _ ← store[i]?
    return store.set i []
  | clone i => do
    let e ← store[i]?
    return store ++ [e]
  | join i j => do
    let e ← store[i]?
    let other ← store[j]?
    if i = j then none else return store.set i (e.join other)
  | abbreviate i name value degrees short => do
    let e ← store[i]?
    return store ++ [e.abbreviate name value degrees short]

/-- The expressions after some edits. -/
def Edit.run (store : List Expression) (edits : List Edit) : Option (List Expression) :=
  edits.foldlM apply store

namespace Edit

variable {store store' : List Expression} {edit : Edit} {i : Nat} {e : Expression}

theorem tidy_set (h : ∀ e ∈ store, e.Tidy) (he : e.Tidy) : ∀ e' ∈ store.set i e, e'.Tidy := by
  intro e' he'
  rcases List.mem_or_eq_of_mem_set he' with he' | rfl
  · exact h e' he'
  · exact he

theorem tidy_concat (h : ∀ e ∈ store, e.Tidy) (he : e.Tidy) : ∀ e' ∈ store ++ [e], e'.Tidy :=
  List.forall_mem_append.2 ⟨h, by simpa using he⟩

/-- One edit. -/
theorem tidy_apply (h : ∀ e ∈ store, e.Tidy) (hedit : edit.apply store = some store') :
    ∀ e ∈ store', e.Tidy := by
  have hget : ∀ (i : Nat) (e : Expression), store[i]? = some e → e.Tidy :=
    fun i e he => h e (List.mem_of_getElem? he)
  cases edit with simp only [apply, Option.bind_eq_bind, Option.bind_eq_some_iff,
    Option.ite_none_left_eq_some, Option.pure_def, Option.some.injEq] at hedit
  | new =>
    exact hedit ▸ tidy_concat h .nil
  | add i k =>
    obtain ⟨e, he, rfl⟩ := hedit
    exact tidy_set h ((hget i e he).add k)
  | delete i =>
    obtain ⟨e, he, rfl⟩ := hedit
    exact tidy_set h (hget i e he).delete
  | clear i =>
    obtain ⟨e, -, rfl⟩ := hedit
    exact tidy_set h .nil
  | clone i =>
    obtain ⟨e, he, rfl⟩ := hedit
    exact tidy_concat h (hget i e he)
  | join i j =>
    obtain ⟨e, he, other, hother, -, rfl⟩ := hedit
    exact tidy_set h ((hget i e he).join (hget j other hother))
  | abbreviate i name value degrees short =>
    obtain ⟨e, he, rfl⟩ := hedit
    exact tidy_concat h ((hget i e he).abbreviate name value degrees short)

/-- Every run. -/
theorem tidy_run {edits : List Edit} (h : ∀ e ∈ store, e.Tidy) (hrun : run store edits = some store') :
    ∀ e ∈ store', e.Tidy := by
  induction edits generalizing store with
  | nil =>
    obtain rfl := Option.some.inj hrun
    exact h
  | cons edit edits ih =>
    rw [run, List.foldlM_cons] at hrun
    obtain ⟨next, hnext, hrun⟩ := Option.bind_eq_some_iff.1 hrun
    exact ih (tidy_apply h hnext) hrun

/-- Expressions that come of edits of empty ones are tidy, and so are all that their collapsed tokens
came from. -/
theorem tidy_of_edits (edits : List Edit) (hrun : run [] edits = some store) (he : e ∈ store) :
    e.Tidy ∧ ∀ name value source context short,
      Token.collapsed name value source context short ∈ e.within → Expression.Tidy source := by
  have htidy := tidy_run (fun _ h => absurd h List.not_mem_nil) hrun e he
  exact ⟨htidy, fun _ _ _ _ _ ht => htidy.source ht⟩

/-- A number with a point is collapsed, joined to its collapsed token with a sign between them, and typed
on after the point is taken back; all of it is collapsed again. -/
theorem tidy_of_edits_joined :
    let seven : Token :=
      .collapsed 0 (.keptAs 0 (.ofRat 7)) [.literal ⟨"7", true, ""⟩] ⟨false, 1⟩ "7"
    let product : Expression := [seven, .operator (.binary .times), .literal ⟨"73", false, ""⟩]
    let total : Token := .collapsed 1 (.keptAs 1 (.ofRat 511)) product ⟨true, 3⟩ "511"
    let edits : List Edit :=
      [.new, .add 0 (.digit 7), .add 0 .point, .abbreviate 0 0 (.ofRat 7) false "7", .join 1 0,
        .delete 1, .add 1 (.digit 3), .abbreviate 1 1 (.ofRat 511) true "511", .clear 1]
    run [] edits = some [[.literal ⟨"7", true, ""⟩], [], [total]] ∧ Expression.Tidy [total] ∧
      Expression.Tidy product := by
  intro seven product total edits
  have hrun : run [] edits = some [[.literal ⟨"7", true, ""⟩], [], [total]] := rfl
  have htidy := tidy_of_edits edits hrun (e := [total]) (by simp)
  exact ⟨hrun, htidy.1, htidy.2 _ _ _ _ _ (Expression.mem_within_of_mem List.mem_cons_self)⟩

end Edit

end Reckoner
