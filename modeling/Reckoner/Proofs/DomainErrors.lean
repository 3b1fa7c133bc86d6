import Mathlib.Analysis.Real.Pi.Bounds
import Mathlib.Logic.Relation
import Reckoner.Proofs.Accuracy
/-!
Errors are about the operands. When a run fails, the computation of some node fails in its course
(`approximate_eq_error_iff`); and if the operands of this node have values, these are outside the domain
of its operation, or so close to a pole that they count as zero. So nothing fails in a graph whose nodes
all have values, with a margin around the poles (`approximate_refuses`).
-/
namespace Reckoner.Reals

variable {α ε : Type} {programs : Programs α ε} {s t : Configuration α ε} {cache cache' : Cache α}
  {node : ℕ} {p : ℤ} {e : ε}

/-- A run from a configuration comes to another. -/
def Reaches (programs : Programs α ε) : Configuration α ε → Configuration α ε → Prop :=
  Relation.ReflTransGen fun s t => step programs s = .inr t

theorem run_of_reaches (h : Reaches programs s t) : run programs s = run programs t := by
  induction h with
  | refl => rfl
  | tail _ hstep ih => rw [ih, run_of_step hstep]

/-- A step that fails is that of a computation that fails. -/
theorem eq_running_of_step (h : step programs s = .inl (.error e, cache')) :
    ∃ n p stack, s = .running n p (.fail e) stack cache' := by
  cases s with
  | running n p request stack cache =>
    cases request with
    | done value => cases h
    | fail error =>
      cases h
      exact ⟨n, p, stack, rfl⟩
    | ask i q resume =>
      simp only [step] at h
      split at h <;> cases h
  | returning value stack cache =>
    cases stack <;> cases h

theorem exists_reaches_of_run (h : run programs s = (.error e, cache')) :
    ∃ n p stack, Reaches programs s (.running n p (.fail e) stack cache') := by
  induction s using (wellFounded_next programs).induction with
  | _ s ih =>
    rcases hstep : step programs s with answer | t
    · rw [run_of_ended hstep] at h
      obtain ⟨n, p, stack, rfl⟩ := eq_running_of_step (h ▸ hstep)
      exact ⟨n, p, stack, .refl⟩
    · rw [run_of_step hstep] at h
      obtain ⟨n, p, stack, hreaches⟩ := ih t hstep h
      exact ⟨n, p, stack, .head hstep hreaches⟩

/-- While a node is approximated, the computation of a node fails. -/
def Raises (programs : Programs α ε) (node : ℕ) (p : ℤ) (cache : Cache α) (n : ℕ) (e : ε) : Prop :=
  cache.find? node p = none ∧ ∃ p' stack cache',
    Reaches programs (.running node p (programs node p) [] cache) (.running n p' (.fail e) stack cache')

/-- A node's approximation fails just if the computation of some node does. -/
theorem approximate_eq_error_iff :
    (approximate programs node p cache).1 = .error e ↔ ∃ n, Raises programs node p cache n e := by
  unfold approximate Raises
  cases hfound : cache.find? node p with
  | some value => simp
  | none =>
    simp only [true_and]
    constructor
    · intro h
      obtain ⟨n, p', stack, hreaches⟩ := exists_reaches_of_run (Prod.ext h rfl)
      exact ⟨n, p', stack, _, hreaches⟩
    · rintro ⟨n, p', stack, cache', hreaches⟩
      rw [run_of_reaches hreaches, run_of_ended rfl]

theorem Contract.OnTheWay.reaches {c : Contract α ε} {root : ℕ} {wanted : ℤ}
    (hp : ∀ n p, c.Keeps n p (programs n p)) (h : c.OnTheWay root wanted s)
    (hreaches : Reaches programs s t) : c.OnTheWay root wanted t := by
  induction hreaches with
  | refl => exact h
  | tail _ hstep ih => exact (ih.step hp).2 _ hstep

/-- Failures are acceptable for the nodes whose computations fail. -/
theorem Contract.Cached.refuses_of_raises {c : Contract α ε} (hp : ∀ n p, c.Keeps n p (programs n p))
    (hcached : c.Cached cache) {n : ℕ} (h : Raises programs node p cache n e) : c.refuses n e := by
  obtain ⟨-, p', stack, cache', hreaches⟩ := h
  have hstart : c.OnTheWay node p (.running node p (programs node p) [] cache) :=
    .running (hp node p) ⟨rfl, rfl⟩ hcached
  cases hstart.reaches hp hreaches with
  | running keeps _ _ => exact keeps

/-- Whether an operand at a pole of the operation's is away from it by a margin. -/
def Op.IsClear {ι : Type} (r : ι → ℝ) : Op ι → Prop
  | inverse a | ln a => zeroMargin ≤ |r a|
  | _ => True

theorem Op.not_faults {ι : Type} {r : ι → ℝ} {op : Op ι} (hdefined : op.IsDefined r)
    (hclear : op.IsClear r) (e : ArithmeticError) : ¬ op.Faults r e := by
  cases op with
  | inverse a => exact fun h => absurd h.2 (not_lt.2 hclear)
  | sqrt a => exact fun h => absurd h.2 (not_lt.2 hdefined)
  | ln a => exact fun h => absurd h.2 (not_lt.2 (hclear.trans (abs_of_pos hdefined).le))
  | arcsin a | arccos a => exact fun h => absurd h.2 (not_lt.2 (abs_le.2 hdefined))
  | _ => exact id

/-- After any questions about a graph. If every node has a value, and none is inverted or has its
logarithm taken that is within `zeroMargin` of zero, every node can be approximated to every precision.
Else, if a computation of a node fails whose operands have values, the error is about these. -/
theorem approximate_refuses {kernel : Kernel} (hk : kernel.Accurate) (g : Graph)
    (asked : List (ℕ × ℤ)) (node : ℕ) (p : ℤ) :
    let programs := g.programs kernel
    let cache := afterwards programs asked (Array.replicate g.size none)
    let answer := approximate programs node p cache
    ((∀ (n : ℕ) (h : n < g.ops.size), g.IsDefined n ∧ (g.ops[n]).IsClear g.value) →
        ∃ v, answer.1 = .ok v) ∧
      (∀ e, answer.1 = .error e ↔ ∃ n, Raises programs node p cache n e) ∧
      ∀ n e, Raises programs node p cache n e → ∃ h : n < g.ops.size,
        (∀ i ∈ (g.ops[n]).operands, g.IsDefined i) → (g.ops[n]).Faults g.value e := by
  intro programs cache answer
  have hkeeps := g.keeps_programs hk
  have hcached := (g.accuracy.cached_empty g.size).afterwards hkeeps asked
  have hrefuses : ∀ n e, Raises programs node p cache n e → g.accuracy.refuses n e :=
    fun n e h => hcached.refuses_of_raises hkeeps h
  refine ⟨fun hclear => ?_, fun e => approximate_eq_error_iff, hrefuses⟩
  cases hanswer : answer.1 with
  | ok v => exact ⟨v, rfl⟩
  | error e =>
    obtain ⟨n, hraises⟩ := approximate_eq_error_iff.1 hanswer
    obtain ⟨hn, hfaults⟩ := hrefuses n e hraises
    obtain ⟨hdefined, hmargin⟩ := hclear n hn
    obtain ⟨hop, hoperands⟩ := (Graph.isDefined_iff hn).1 hdefined
    exact absurd (hfaults hoperands) (Op.not_faults hop hmargin e)

/-- 1 / (√2 · √2 − π) and the logarithm of 3. -/
def inverseAndLog : Graph where
  ops := #[.rational 2, .sqrt 0, .mul 1 1, .pi, .sub 2 3, .inverse 4, .rational 3, .ln 6]
  ordered := by decide

theorem approximate_refuses_inverse :
    Kernel.ideal.Accurate ∧
      (∀ (n : ℕ) (h : n < inverseAndLog.ops.size),
        inverseAndLog.IsDefined n ∧ (inverseAndLog.ops[n]).IsClear inverseAndLog.value) ∧
      ∃ v, (approximate (inverseAndLog.programs Kernel.ideal) 5 100
        (afterwards (inverseAndLog.programs Kernel.ideal) [(5, 3), (7, 20), (4, -1)]
          (Array.replicate inverseAndLog.size none))).1 = .ok v := by
  have hpi : (1 : ℝ) ≤ |2 - Real.pi| := by
    rw [abs_sub_comm, abs_of_pos] <;> linarith [Real.pi_gt_three]
  have hne : 2 - Real.pi ≠ 0 := by linarith [Real.pi_gt_three]
  have hsmall : zeroMargin ≤ 1 := (two_zpow_le (by decide : -4094 ≤ 0)).trans (zpow_zero 2).le
  have hclear : ∀ (n : ℕ) (h : n < inverseAndLog.ops.size),
      inverseAndLog.IsDefined n ∧ (inverseAndLog.ops[n]).IsClear inverseAndLog.value := by
    intro n hn
    have hlt : n < 8 := hn
    interval_cases n <;>
      simp [Graph.isDefined_iff, Graph.value_of_lt, inverseAndLog, Op.IsDefined, Op.IsClear, Op.value,
        Op.operands, hne]
    · exact hsmall.trans hpi
    · exact hsmall.trans (by norm_num)
  exact ⟨Kernel.ideal_accurate, hclear,
    (approximate_refuses Kernel.ideal_accurate inverseAndLog [(5, 3), (7, 20), (4, -1)] 5 100).1 hclear⟩

end Reckoner.Reals
