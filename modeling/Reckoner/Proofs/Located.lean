import Reckoner.Positions
import Reckoner.Proofs.Parallel
/-!
Reading by positions. From the tokens that count and from the position where they start, a rule reads the
same (`parseAt_located`): the same value and memory, and the tokens that are left are those from the
position where it stops. It looks at no token but through a look that is bounded by what counts, so
that other tokens behind change nothing (`SameCounted.parseAt`).
-/
namespace Reckoner.Grammar

open Reals

variable {mode : Mode} {span span' : ℤ} {ts ts' : List Token} {i pos depth count : ℕ} {t : Token}
  {k : Key} {m m' : Memory} {x : Dual}

/-! What is seen at a position. -/

theorem length_range_eq (span : ℤ) (ts : List Token) : (range span ts).length = bound span ts :=
  List.length_take

theorem token?_eq (span : ℤ) (ts : List Token) (i : ℕ) : token? span ts i = (range span ts)[i]? := by
  rw [token?, range, List.getElem?_take]
  by_cases h : span ≤ i
  · rw [if_pos h, if_neg (by omega)]
  · rw [if_neg h, if_pos (by omega)]

theorem drop_of_token? (h : token? span ts i = some t) :
    (range span ts).drop i = t :: (range span ts).drop (i + 1) := by
  rw [token?_eq] at h
  obtain ⟨hi, rfl⟩ := List.getElem?_eq_some_iff.1 h
  exact List.drop_eq_getElem_cons hi

theorem drop_of_token?_eq_none (h : token? span ts i = none) : (range span ts).drop i = [] := by
  rw [token?_eq, List.getElem?_eq_none_iff] at h
  exact List.drop_eq_nil_of_le h

theorem lt_of_token? (h : token? span ts i = some t) : i < (range span ts).length := by
  rw [token?_eq] at h
  exact (List.getElem?_eq_some_iff.1 h).1

theorem token?_of_isOperatorAt (h : isOperatorAt span ts i k) :
    token? span ts i = some (.operator k) := by
  unfold isOperatorAt at h
  cases ht : token? span ts i with
  | none =>
    rw [ht] at h
    cases h
  | some t =>
    rw [ht] at h
    rw [isKey_iff.1 h]

theorem isOperatorAt_iff : isOperatorAt span ts i k ↔ token? span ts i = some (.operator k) := by
  refine ⟨token?_of_isOperatorAt, fun h => ?_⟩
  rw [isOperatorAt, h]
  exact decide_eq_true rfl

theorem after?_drop (span : ℤ) (ts : List Token) (i : ℕ) (k : Key) :
    after? k ((range span ts).drop i) =
      if isOperatorAt span ts i k then some ((range span ts).drop (i + 1)) else none := by
  split
  · rename_i h
    rw [drop_of_token? (isOperatorAt_iff.1 h)]
    exact after?_eq_some_iff.2 rfl
  · rename_i h
    cases hafter : after? k ((range span ts).drop i) with
    | none => rfl
    | some rest =>
      have hdrop := after?_eq_some_iff.1 hafter
      refine absurd (isOperatorAt_iff.2 ?_) h
      rw [token?_eq, ← List.head?_drop, hdrop]
      rfl

theorem canStartFactor_drop (span : ℤ) (ts : List Token) (i : ℕ) :
    canStartFactor ((range span ts).drop i) = canStartFactorAt span ts i := by
  unfold canStartFactorAt
  cases ht : token? span ts i with
  | none => rw [drop_of_token?_eq_none ht]; rfl
  | some t =>
    rw [drop_of_token? ht]
    cases t <;> rfl

/-- What is multiplied next: whether it divides, and where it starts. -/
def nextFactorAt? (span : ℤ) (ts : List Token) (i : ℕ) : Option (Bool × ℕ) :=
  if isOperatorAt span ts i (.binary .times) then some (false, i + 1)
  else if isOperatorAt span ts i (.binary .over) then some (true, i + 1)
  else if canStartFactorAt span ts i then some (false, i)
  else none

/-- What is added next: whether it is taken away, and where it starts. -/
def nextTermAt? (span : ℤ) (ts : List Token) (i : ℕ) : Option (Bool × ℕ) :=
  if isOperatorAt span ts i (.binary .plus) then some (false, i + 1)
  else if isOperatorAt span ts i (.binary .minus) then some (true, i + 1)
  else none

/-- The operator written after an operand that stands at a position, and where it ends. -/
def suffixAt? (span : ℤ) (ts : List Token) (i : ℕ) : Option (SuffixOperator × ℕ) :=
  match token? span ts i with
  | some (.operator (.suffix op)) => some (op, i + 1)
  | _ => none

theorem suffixAt?_eq_some {op : SuffixOperator} {j : ℕ} (h : suffixAt? span ts i = some (op, j)) :
    j = i + 1 ∧ i < (range span ts).length := by
  unfold suffixAt? at h
  split at h
  · rename_i ht
    cases h
    exact ⟨rfl, lt_of_token? ht⟩
  · cases h

theorem suffixesAt_succ (mode : Mode) (span : ℤ) (ts : List Token) (count : ℕ) (x : Dual) (i : ℕ) :
    suffixesAt mode span ts (count + 1) x i = match suffixAt? span ts i with
      | some (op, j) => do suffixesAt mode span ts count (← (suffixValue mode op x).mapError .abort) j
      | none => return ⟨x, i⟩ := by
  unfold suffixAt?
  rw [suffixesAt]
  cases token? span ts i with
  | none => rfl
  | some t =>
    cases t with
    | operator k => cases k <;> rfl
    | _ => rfl

theorem suffix?_drop (span : ℤ) (ts : List Token) (i : ℕ) :
    suffix? ((range span ts).drop i) =
      (suffixAt? span ts i).map fun s => (s.1, (range span ts).drop s.2) := by
  unfold suffixAt?
  cases ht : token? span ts i with
  | none =>
    rw [drop_of_token?_eq_none ht]
    rfl
  | some t =>
    rw [drop_of_token? ht]
    cases t with
    | operator k => cases k <;> rfl
    | _ => rfl

theorem nextFactor?_drop (span : ℤ) (ts : List Token) (i : ℕ) :
    nextFactor? ((range span ts).drop i) =
      (nextFactorAt? span ts i).map fun s => (s.1, (range span ts).drop s.2) := by
  unfold nextFactorAt?
  cases ht : token? span ts i with
  | none =>
    have hoperator (k : Key) : isOperatorAt span ts i k = false := by simp [isOperatorAt, ht]
    simp [drop_of_token?_eq_none ht, nextFactor?, hoperator, canStartFactorAt, ht]
  | some t =>
    have hoperator (k : Key) : isOperatorAt span ts i k = t.isKey k := by simp [isOperatorAt, ht]
    have hstart : canStartFactor (t :: (range span ts).drop (i + 1)) = canStartFactorAt span ts i := by
      rw [← drop_of_token? ht, canStartFactor_drop]
    rw [drop_of_token? ht]
    simp only [nextFactor?, hoperator, hstart]
    split_ifs <;> simp [drop_of_token? ht]

theorem nextTerm?_drop (span : ℤ) (ts : List Token) (i : ℕ) :
    nextTerm? ((range span ts).drop i) =
      (nextTermAt? span ts i).map fun s => (s.1, (range span ts).drop s.2) := by
  unfold nextTermAt?
  cases ht : token? span ts i with
  | none =>
    have hoperator (k : Key) : isOperatorAt span ts i k = false := by simp [isOperatorAt, ht]
    simp [drop_of_token?_eq_none ht, nextTerm?, hoperator]
  | some t =>
    have hoperator (k : Key) : isOperatorAt span ts i k = t.isKey k := by simp [isOperatorAt, ht]
    rw [drop_of_token? ht]
    simp only [nextTerm?, hoperator]
    split_ifs <;> rfl

/-- A repetition that reads operands of a rule as long as `next?` finds one at the position. -/
structure RepeatsAt (sub : Rule → ℕ → Reading) (rule : Rule) (next? : ℕ → Option (Bool × ℕ))
    (combine : Bool → Dual → Dual → Except Failure Dual) (loop : ℕ → Dual → ℕ → Reading) : Prop where
  zero : ∀ {x i}, loop 0 x i = return ⟨x, i⟩
  stop : ∀ {count x i}, next? i = none → loop (count + 1) x i = return ⟨x, i⟩
  go : ∀ {count x i inverse j}, next? i = some (inverse, j) → loop (count + 1) x i = (do
    let y ← sub rule j
    loop count (← orHalt (combine inverse x y.value)) y.pos)

theorem productsAt_repeats (mode : Mode) (span : ℤ) (ts : List Token) (sub : Rule → ℕ → Reading) :
    RepeatsAt sub .signedFactor (nextFactorAt? span ts) (factorValue mode)
      (productsAt mode span ts sub) where
  zero := rfl
  stop {count x i} h := by
    unfold nextFactorAt? at h
    rw [productsAt]
    split_ifs at h ⊢
    rfl
  go {count x i inverse j} h := by
    unfold nextFactorAt? at h
    rw [productsAt]
    split_ifs at h ⊢ <;> cases h <;> rfl

theorem sumsAt_repeats (mode : Mode) (span : ℤ) (ts : List Token) (sub : Rule → ℕ → Reading) :
    RepeatsAt sub .term (nextTermAt? span ts) (termValue mode) (sumsAt mode span ts sub) where
  zero := rfl
  stop {count x i} h := by
    unfold nextTermAt? at h
    rw [sumsAt]
    split_ifs at h ⊢
    rfl
  go {count x i inverse j} h := by
    unfold nextTermAt? at h
    rw [sumsAt]
    split_ifs at h ⊢ <;> cases h <;> rfl

/-- What comes next starts at the position or behind an operator there. -/
theorem nextFactorAt?_le {inverse : Bool} {j : ℕ} (h : nextFactorAt? span ts i = some (inverse, j)) :
    i < (range span ts).length ∧ i ≤ j ∧ j ≤ (range span ts).length := by
  have hlt (k : Key) (hk : isOperatorAt span ts i k) : i < (range span ts).length :=
    lt_of_token? (isOperatorAt_iff.1 hk)
  unfold nextFactorAt? at h
  split_ifs at h with htimes hover hstart <;> cases h
  · exact ⟨hlt _ htimes, Nat.le_succ i, hlt _ htimes⟩
  · exact ⟨hlt _ hover, Nat.le_succ i, hlt _ hover⟩
  · have hlt : i < (range span ts).length := by
      unfold canStartFactorAt at hstart
      cases ht : token? span ts i with
      | none => simp [ht] at hstart
      | some t => exact lt_of_token? ht
    exact ⟨hlt, Nat.le_refl i, hlt.le⟩

theorem nextTermAt?_le {inverse : Bool} {j : ℕ} (h : nextTermAt? span ts i = some (inverse, j)) :
    i < (range span ts).length ∧ i ≤ j ∧ j ≤ (range span ts).length := by
  have hlt (k : Key) (hk : isOperatorAt span ts i k) : i < (range span ts).length :=
    lt_of_token? (isOperatorAt_iff.1 hk)
  unfold nextTermAt? at h
  split_ifs at h with hplus hminus <;> cases h
  · exact ⟨hlt _ hplus, Nat.le_succ i, hlt _ hplus⟩
  · exact ⟨hlt _ hminus, Nat.le_succ i, hlt _ hminus⟩

/-- An outcome over the tokens that count, and the same with positions. -/
inductive Located (span : ℤ) (ts : List Token) :
    Except Stop Parsed × Memory → Except Halt Placed × Memory → Prop where
  | ok {v : Dual} {pos : ℕ} {m : Memory} (h : pos ≤ (range span ts).length) :
      Located span ts (.ok ⟨v, (range span ts).drop pos⟩, m) (.ok ⟨v, pos⟩, m)
  | failure {cause : GrammarError} {pos : ℕ} {m : Memory} (h : pos ≤ (range span ts).length) :
      Located span ts (.error (.failure cause ((range span ts).drop pos)), m)
        (.error (.failure cause pos), m)
  | abort {e : Failure} {m : Memory} : Located span ts (.error (.abort e), m) (.error (.abort e), m)

namespace Located

variable {α : Type}

theorem bind {o : Outcome} {o' : Reading} {f : Parsed → Outcome} {f' : Placed → Reading}
    (h : Located span ts (o m) (o' m))
    (hf : ∀ v pos m', o m = (.ok ⟨v, (range span ts).drop pos⟩, m') →
      pos ≤ (range span ts).length →
      Located span ts (f ⟨v, (range span ts).drop pos⟩ m') (f' ⟨v, pos⟩ m')) :
    Located span ts ((o >>= f) m) ((o' >>= f') m) := by
  rw [Recall.bind_apply, Recall.bind_apply]
  generalize ho : o m = r, o' m = r' at h
  cases h with
  | ok h => exact hf _ _ _ ho h
  | failure h => exact .failure h
  | abort => exact .abort

/-- The same value is found, or the same failure of it, before both go on. -/
theorem bind_same {x : Recall Failure Dual} {f : Dual → Outcome} {f' : Dual → Reading}
    (hf : ∀ v m', Located span ts (f v m') (f' v m')) :
    Located span ts ((x.mapError .abort >>= f) m) ((x.mapError .abort >>= f') m) := by
  rw [Recall.bind_apply, Recall.bind_apply, Recall.mapError_apply, Recall.mapError_apply]
  rcases x m with ⟨e | v, m'⟩
  · exact .abort
  · exact hf v m'

theorem bind_value {x : Except Failure Dual} {f : Dual → Outcome} {f' : Dual → Reading}
    (hf : ∀ v, Located span ts (f v m) (f' v m)) :
    Located span ts ((orAbort x >>= f) m) ((orHalt x >>= f') m) := by
  cases x with
  | error e => exact .abort
  | ok v => exact hf v

end Located

/-- Phrases in which rules nest to at most `depth` are the same by positions. -/
def LocatedTo (mode : Mode) (span : ℤ) (ts : List Token) (depth : ℕ) : Prop :=
  ∀ r i m, i ≤ (range span ts).length →
    Located span ts (parse mode depth r ((range span ts).drop i) m) (parseAt mode span ts depth r i m)

section

variable (hsub : LocatedTo mode span ts depth)

theorem skipClosing_drop (span : ℤ) (ts : List Token) (i : ℕ) :
    skipClosing ((range span ts).drop i) = (range span ts).drop (skipClosingAt span ts i) := by
  rw [skipClosing_eq, after?_drop, skipClosingAt]
  split <;> rfl

theorem skipClosingAt_le (hi : i ≤ (range span ts).length) :
    skipClosingAt span ts i ≤ (range span ts).length := by
  unfold skipClosingAt
  split
  · rename_i h
    exact lt_of_token? (isOperatorAt_iff.1 h)
  · exact hi

theorem skipMinus_drop (span : ℤ) (ts : List Token) (i : ℕ) :
    skipMinus ((range span ts).drop i) =
      (isOperatorAt span ts i (.binary .minus),
        (range span ts).drop (if isOperatorAt span ts i (.binary .minus) then i + 1 else i)) := by
  rw [skipMinus_eq, after?_drop]
  cases isOperatorAt span ts i (.binary .minus) <;> rfl

include hsub

theorem located_unary (hi : i ≤ (range span ts).length) :
    Located span ts (unary mode (parse mode depth) ((range span ts).drop i) m)
      (unaryAt mode span ts (parseAt mode span ts depth) i m) := by
  unfold unaryAt
  cases ht : token? span ts i with
  | none =>
    have hnil := drop_of_token?_eq_none ht
    have hfailure : Located span ts
        (.error (.failure .unexpectedEnd ((range span ts).drop i)), m)
        (.error (.failure .unexpectedEnd i), m) := .failure hi
    rw [hnil] at hfailure ⊢
    exact hfailure
  | some t =>
    have hlt : i + 1 ≤ (range span ts).length := lt_of_token? ht
    have hdrop := drop_of_token? ht
    rw [hdrop]
    cases t with
    | literal l => exact .bind_value fun v => .ok hlt
    | collapsed name value source context short => exact .ok hlt
    | operator k =>
      cases k with
      | constant c => cases c <;> exact .ok hlt
      | root =>
        simp only [unary, skipMinus_drop]
        have hnext : (if isOperatorAt span ts (i + 1) (.binary .minus) then i + 2 else i + 1) ≤
            (range span ts).length := by
          split
          · rename_i h
            exact lt_of_token? (isOperatorAt_iff.1 h)
          · exact hlt
        exact (hsub .unary _ m hnext).bind fun v pos m' _ hpos => .bind_value fun w => .ok hpos
      | opening =>
        refine (hsub .expr _ m hlt).bind fun v pos m' _ hpos => ?_
        simp only [skipClosing_drop]
        exact .ok (skipClosingAt_le hpos)
      | function f =>
        refine (hsub .expr _ m hlt).bind fun v pos m' _ hpos => ?_
        simp only [skipClosing_drop]
        exact .bind_value fun w => .ok (skipClosingAt_le hpos)
      | _ =>
        have hfailure : Located span ts
            (.error (.failure .unrecognizedToken ((range span ts).drop i)), m)
            (.error (.failure .unrecognizedToken i), m) := .failure hi
        rw [hdrop] at hfailure
        exact hfailure

omit hsub in
theorem located_suffixes (hi : i ≤ (range span ts).length)
    (hcount : (range span ts).length - i ≤ count) :
    Located span ts (suffixes mode x ((range span ts).drop i) m)
      (suffixesAt mode span ts count x i m) := by
  induction count generalizing x i m with
  | zero =>
    have hend : (range span ts).drop i = [] := List.drop_eq_nil_of_le (by omega)
    have hdone : Located span ts (.ok ⟨x, (range span ts).drop i⟩, m) (.ok ⟨x, i⟩, m) := .ok hi
    rw [hend] at hdone ⊢
    exact hdone
  | succ count ih =>
    rw [suffixes_eq, suffix?_drop, suffixesAt_succ]
    cases hnext : suffixAt? span ts i with
    | none => exact .ok hi
    | some s =>
      obtain ⟨op, j⟩ := s
      obtain ⟨rfl, hlt⟩ := suffixAt?_eq_some hnext
      exact .bind_same fun v m' => ih hlt (by omega)

theorem located_suffix (hi : i ≤ (range span ts).length) :
    Located span ts (suffix mode (parse mode depth) ((range span ts).drop i) m)
      (suffixAt mode span ts (parseAt mode span ts depth) i m) := by
  refine (hsub .unary i m hi).bind fun v pos m' _ hpos => located_suffixes hpos ?_
  rw [length_range_eq]
  exact Nat.sub_le _ _

theorem located_factor (hi : i ≤ (range span ts).length) :
    Located span ts (factor mode depth (parse mode depth) ((range span ts).drop i) m)
      (factorAt mode span ts depth (parseAt mode span ts depth) i m) := by
  rw [factor_eq]
  refine (hsub .suffix i m hi).bind fun v pos m' _ hpos => ?_
  simp only [after?_drop]
  split
  · rename_i hpower
    have hlt : pos + 1 ≤ (range span ts).length := lt_of_token? (isOperatorAt_iff.1 hpower)
    exact (hsub .signedFactor _ m' hlt).bind fun w pos m' _ hpos => .bind_value fun u => .ok hpos
  · exact .ok hpos

theorem located_signedFactor (hi : i ≤ (range span ts).length) :
    Located span ts (signedFactor (parse mode depth) ((range span ts).drop i) m)
      (signedFactorAt span ts (parseAt mode span ts depth) i m) := by
  unfold signedFactor signedFactorAt
  rw [skipMinus_drop]
  cases hminus : isOperatorAt span ts i (.binary .minus) with
  | false => exact hsub .factor i m hi
  | true =>
    have hlt : i + 1 ≤ (range span ts).length := lt_of_token? (isOperatorAt_iff.1 hminus)
    exact (hsub .factor _ m hlt).bind fun v pos m' _ hpos => .ok hpos

theorem located_repetition {r : Rule} {next? : List Token → Option (Bool × List Token)}
    {nextAt? : ℕ → Option (Bool × ℕ)} {combine : Bool → Dual → Dual → Except Failure Dual}
    {loop : ℕ → Dual → List Token → Outcome} {loopAt : ℕ → Dual → ℕ → Reading}
    (hloop : Repeats (parse mode depth) r next? combine loop)
    (hloopAt : RepeatsAt (parseAt mode span ts depth) r nextAt? combine loopAt)
    (hnext : ∀ i, next? ((range span ts).drop i) =
      (nextAt? i).map fun s => (s.1, (range span ts).drop s.2))
    (hle : ∀ {i inverse j}, nextAt? i = some (inverse, j) →
      i < (range span ts).length ∧ i ≤ j ∧ j ≤ (range span ts).length)
    {count' : ℕ} (hi : i ≤ (range span ts).length) (hcount : (range span ts).length - i ≤ count)
    (hcount' : (range span ts).length - i ≤ count') :
    Located span ts (loop count x ((range span ts).drop i) m) (loopAt count' x i m) := by
  induction count' generalizing count x i m with
  | zero =>
    have hend : nextAt? i = none := by
      cases hs : nextAt? i with
      | none => rfl
      | some s => exact absurd (hle hs).1 (by omega)
    rw [hloop.stop ((hnext i).trans (by rw [hend]; rfl)), hloopAt.zero]
    exact .ok hi
  | succ count' ih =>
    cases hs : nextAt? i with
    | none =>
      rw [hloop.stop ((hnext i).trans (by rw [hs]; rfl)), hloopAt.stop hs]
      exact .ok hi
    | some s =>
      obtain ⟨inverse, j⟩ := s
      obtain ⟨-, hij, hj⟩ := hle hs
      have hlength : ((range span ts).drop i).length ≤ count := by
        rw [List.length_drop]
        exact hcount
      rw [hloop.go ((hnext i).trans (by rw [hs]; rfl)) hlength, hloopAt.go hs]
      refine (hsub r j m hj).bind fun v pos m' hread hpos => .bind_value fun w => ?_
      -- an operand has tokens of its own
      obtain ⟨t, ht, -⟩ := parse_sound hread
      have hlt := ht.length_lt
      rw [List.length_drop, List.length_drop] at hlt
      exact ih hpos (by omega) (by omega)

theorem located_term (hi : i ≤ (range span ts).length) :
    Located span ts (term mode (parse mode depth) ((range span ts).drop i) m)
      (termAt mode span ts (parseAt mode span ts depth) i m) := by
  refine (hsub .signedFactor i m hi).bind fun v pos m' hread hpos => ?_
  obtain ⟨t, ht, -⟩ := parse_sound hread
  have hlt := ht.length_lt
  rw [List.length_drop, List.length_drop] at hlt
  refine located_repetition hsub (products_repeats mode _) (productsAt_repeats mode span ts _)
    (nextFactor?_drop span ts) nextFactorAt?_le hpos ?_ ?_
  · simp only [List.length_drop]
    omega
  · rw [length_range_eq]
    exact Nat.sub_le _ _

theorem located_expr (hi : i ≤ (range span ts).length) :
    Located span ts (expr mode (parse mode depth) ((range span ts).drop i) m)
      (exprAt mode span ts (parseAt mode span ts depth) i m) := by
  refine (hsub .term i m hi).bind fun v pos m' hread hpos => ?_
  obtain ⟨t, ht, -⟩ := parse_sound hread
  have hlt := ht.length_lt
  rw [List.length_drop, List.length_drop] at hlt
  refine located_repetition hsub (sums_repeats mode _) (sumsAt_repeats mode span ts _)
    (nextTerm?_drop span ts) nextTermAt?_le hpos ?_ ?_
  · simp only [List.length_drop]
    omega
  · rw [length_range_eq]
    exact Nat.sub_le _ _

end

/-- From a position among those that count every rule reads the same as from the tokens there. -/
theorem parseAt_located (mode : Mode) (span : ℤ) (ts : List Token) (depth : ℕ) :
    LocatedTo mode span ts depth := by
  induction depth with
  | zero => exact fun r i m hi => .abort
  | succ depth ih =>
    intro r i m hi
    cases r with
    | unary => exact located_unary ih hi
    | suffix => exact located_suffix ih hi
    | factor => exact located_factor ih hi
    | signedFactor => exact located_signedFactor ih hi
    | term => exact located_term ih hi
    | expr => exact located_expr ih hi

/-! Reading looks only at tokens that count. -/

/-- The same tokens count, at every position. -/
structure SameCounted (span : ℤ) (ts : List Token) (span' : ℤ) (ts' : List Token) : Prop where
  token : ∀ i, token? span ts i = token? span' ts' i
  bound : bound span ts = bound span' ts'

namespace SameCounted

variable (h : SameCounted span ts span' ts') (sub : Rule → ℕ → Reading)

include h

theorem isOperatorAt (i : ℕ) (k : Key) :
    isOperatorAt span ts i k = Grammar.isOperatorAt span' ts' i k := by
  rw [Grammar.isOperatorAt, h.token, Grammar.isOperatorAt]

theorem canStartFactorAt (i : ℕ) :
    canStartFactorAt span ts i = Grammar.canStartFactorAt span' ts' i := by
  rw [Grammar.canStartFactorAt, h.token, Grammar.canStartFactorAt]

theorem skipClosingAt (i : ℕ) : skipClosingAt span ts i = Grammar.skipClosingAt span' ts' i := by
  rw [Grammar.skipClosingAt, h.isOperatorAt, Grammar.skipClosingAt]

theorem unaryAt (mode : Mode) (i : ℕ) :
    unaryAt mode span ts sub i = Grammar.unaryAt mode span' ts' sub i := by
  simp only [Grammar.unaryAt, h.token, h.isOperatorAt, h.skipClosingAt]

theorem suffixesAt (mode : Mode) (count : ℕ) (x : Dual) (i : ℕ) :
    suffixesAt mode span ts count x i = Grammar.suffixesAt mode span' ts' count x i := by
  induction count generalizing x i with
  | zero => rfl
  | succ count ih => simp only [Grammar.suffixesAt, h.token, ih]

theorem suffixAt (mode : Mode) (i : ℕ) :
    suffixAt mode span ts sub i = Grammar.suffixAt mode span' ts' sub i := by
  simp only [Grammar.suffixAt, h.bound, h.suffixesAt]

theorem factorAt (mode : Mode) (depth i : ℕ) :
    factorAt mode span ts depth sub i = Grammar.factorAt mode span' ts' depth sub i := by
  simp only [Grammar.factorAt, h.isOperatorAt]

theorem signedFactorAt (i : ℕ) :
    signedFactorAt span ts sub i = Grammar.signedFactorAt span' ts' sub i := by
  rw [Grammar.signedFactorAt, h.isOperatorAt, Grammar.signedFactorAt]

theorem productsAt (mode : Mode) (count : ℕ) (x : Dual) (i : ℕ) :
    productsAt mode span ts sub count x i = Grammar.productsAt mode span' ts' sub count x i := by
  induction count generalizing x i with
  | zero => rfl
  | succ count ih => simp only [Grammar.productsAt, h.isOperatorAt, h.canStartFactorAt, ih]

theorem termAt (mode : Mode) (i : ℕ) :
    termAt mode span ts sub i = Grammar.termAt mode span' ts' sub i := by
  simp only [Grammar.termAt, h.bound, h.productsAt]

theorem sumsAt (mode : Mode) (count : ℕ) (x : Dual) (i : ℕ) :
    sumsAt mode span ts sub count x i = Grammar.sumsAt mode span' ts' sub count x i := by
  induction count generalizing x i with
  | zero => rfl
  | succ count ih => simp only [Grammar.sumsAt, h.isOperatorAt, ih]

theorem exprAt (mode : Mode) (i : ℕ) :
    exprAt mode span ts sub i = Grammar.exprAt mode span' ts' sub i := by
  simp only [Grammar.exprAt, h.bound, h.sumsAt]

/-- So every rule reads the same, from every position and every memory. -/
theorem parseAt (mode : Mode) (depth : ℕ) :
    parseAt mode span ts depth = Grammar.parseAt mode span' ts' depth := by
  induction depth with
  | zero => rfl
  | succ depth ih =>
    funext r i
    rw [Grammar.parseAt, Grammar.parseAt, ih]
    cases r with
    | unary => exact h.unaryAt _ mode i
    | suffix => exact h.suffixAt _ mode i
    | factor => exact h.factorAt _ mode depth i
    | signedFactor => exact h.signedFactorAt _ i
    | term => exact h.termAt _ mode i
    | expr => exact h.exprAt _ mode i

end SameCounted

/-- The tokens from the bound on can be replaced, or removed. -/
theorem sameCounted_replace {us : List Token} (hus : us = [] ∨ span ≤ ts.length) :
    SameCounted span (ts.take (bound span ts) ++ us) span ts where
  token i := by
    unfold token?
    by_cases hspan : span ≤ i
    · rw [if_pos hspan, if_pos hspan]
    · rw [if_neg hspan, if_neg hspan]
      by_cases hi : i < bound span ts
      · have hlt : i < (ts.take (bound span ts)).length := by
          rw [List.length_take]
          exact lt_min hi (hi.trans_le (Nat.min_le_right _ _))
        rw [List.getElem?_append_left hlt, List.getElem?_take_of_lt hi]
      · -- the list has ended before the span, so that nothing is put in place of more of it
        unfold bound at hi
        have hend : ts.length ≤ i := by omega
        obtain rfl : us = [] := hus.resolve_right (by omega)
        have htake : (ts.take (bound span ts)).length ≤ i :=
          (List.length_take_le' _ _).trans hend
        rw [List.append_nil, List.getElem?_eq_none htake, List.getElem?_eq_none hend]
  bound := by
    unfold bound
    rw [List.length_append, List.length_take]
    rcases hus with rfl | hspan
    · rw [List.length_nil]
      omega
    · omega

end Reckoner.Grammar
