import Reckoner.Proofs.Comparison
/-!
Numbers whose integer test does not depend on what is kept. A node that is defined, with a margin around
the poles, is approximated whatever is kept (`exists_fetch`), for its computation asks only for nodes of
this kind. If its number is also clearly close to an integer or clearly not, where approximations may
be off, every sound memory gives the test the same answer (`Term.Settled.ask`), and so a factorial has
the same outcome.
-/
namespace Reckoner.Reals

variable {kernel : Kernel} {g : Graph} {cache : Cache BigFloat} {names : ℕ → Term} {m : Memory}
  {t : Term} {n : ℕ} {p : ℤ}

/-- Whatever it is answered, the request asks only for nodes with a property. -/
def Request.AsksOnly {α ε : Type} (ok : Fin n → Prop) : Request n α ε → Prop
  | .done _ | .fail _ => True
  | .ask i _ resume => ok i ∧ ∀ value, (resume value).AsksOnly ok

variable {ok : Fin n → Prop} {i : Fin n}

theorem asksOnly_lowerBound (hi : ok i) {next : Option (ℤ × BigFloat) → Inquiry n}
    (hnext : ∀ found, (next found).AsksOnly ok) (tests : List ℕ) :
    (lowerBound i next tests).AsksOnly ok := by
  induction tests with
  | nil => exact hnext none
  | cons q tests ih =>
    refine ⟨hi, fun x => ?_⟩
    dsimp only
    split
    · exact hnext _
    · exact ih

theorem asksOnly_unitRange (hi : ok i) {next : BigFloat → Inquiry n}
    (hnext : ∀ x, (next x).AsksOnly ok) : (unitRange i p next).AsksOnly ok := by
  refine ⟨hi, fun x => ?_⟩
  dsimp only
  split
  · trivial
  · exact hnext _

/-- An operation asks for its operands. -/
theorem asksOnly_approximateOp (kernel : Kernel) (p : ℤ) {op : Op (Fin n)}
    (h : ∀ i ∈ op.operands, ok i) : (approximateOp kernel p op).AsksOnly ok := by
  cases op with
  | rational q | pi | e => trivial
  | add i j | sub i j =>
    have hi := h i (by simp [Op.operands])
    have hj := h j (by simp [Op.operands])
    exact ⟨hi, fun _ => ⟨hj, fun _ => trivial⟩⟩
  | mul i j =>
    have hi := h i (by simp [Op.operands])
    have hj := h j (by simp [Op.operands])
    exact ⟨hi, fun _ => ⟨hj, fun _ => ⟨hj, fun _ => ⟨hi, fun _ => trivial⟩⟩⟩⟩
  | neg i | sin i | cos i | arctan i => exact ⟨List.forall_mem_singleton.1 h, fun _ => trivial⟩
  | exp i =>
    have hi := List.forall_mem_singleton.1 h
    exact ⟨hi, fun _ => ⟨hi, fun _ => trivial⟩⟩
  | sqrt i =>
    refine ⟨List.forall_mem_singleton.1 h, fun x => ?_⟩
    dsimp only
    split_ifs <;> trivial
  | inverse i =>
    have hi := List.forall_mem_singleton.1 h
    refine asksOnly_lowerBound hi (fun found => ?_) _
    rcases found with _ | ⟨low, x⟩
    · trivial
    · exact ⟨hi, fun _ => trivial⟩
  | ln i =>
    have hi := List.forall_mem_singleton.1 h
    refine asksOnly_lowerBound hi (fun found => ?_) _
    rcases found with _ | ⟨low, x⟩
    · trivial
    · dsimp only
      split
      · trivial
      · exact ⟨hi, fun _ => trivial⟩
  | arcsin i | arccos i =>
    rw [approximateOp]
    refine asksOnly_unitRange (List.forall_mem_singleton.1 h) fun x => ?_
    trivial

theorem Op.IsRegular.not_faults {r : ℕ → ℝ} {op : Op ℕ} (h : op.IsRegular zeroMargin r)
    (e : ArithmeticError) : ¬ op.Faults r e := by
  refine Op.not_faults h.1 ?_ e
  cases op with
  | inverse a | ln a => exact h.2
  | _ => trivial

/-- The requests of a regular node are answered if those for regular nodes below it are. -/
theorem exists_carryOut (hk : kernel.Accurate) (hn : g.IsRegular zeroMargin n)
    (hbelow : ∀ i < n, g.IsRegular zeroMargin i → ∀ q cache, g.accuracy.Cached cache →
      ∃ v, (fetch (g.programs kernel) i q cache).1 = .ok v)
    {request : Inquiry n} (hasks : request.AsksOnly fun i => g.IsRegular zeroMargin i)
    (hkeeps : g.accuracy.Keeps n p request) (hcached : g.accuracy.Cached cache) :
    ∃ v, (request.carryOut (fun i => fetch (g.programs kernel) i) cache).1 = .ok v := by
  induction request generalizing cache with
  | done value => exact ⟨value, rfl⟩
  | fail e =>
    obtain ⟨hlt, hfaults⟩ := hkeeps
    obtain ⟨hop, hoperands⟩ := (Graph.isRegular_iff hlt).1 hn
    have hdefined : ∀ i ∈ (g.ops[n]).operands, g.IsDefined i :=
      fun i hi => (hoperands i hi).isDefined
    exact absurd (hfaults hdefined) (hop.not_faults e)
  | ask i q resume ih =>
    obtain ⟨v, hv⟩ := hbelow i i.isLt hasks.1 q cache hcached
    have hsettles := g.accuracy.settles_approximate (g.keeps_programs hk) hcached i q
    rw [approximate_eq_fetch] at hsettles
    rw [Request.carryOut]
    rcases hanswer : fetch (g.programs kernel) i q cache with ⟨answer, cache'⟩
    rw [hanswer] at hv hsettles
    obtain rfl : answer = .ok v := hv
    exact ih v (hasks.2 v) (hkeeps v (hsettles.value v rfl)) hsettles.cache

/-- A regular node is approximated to every precision, whatever is kept. -/
theorem exists_fetch (hk : kernel.Accurate) (hn : g.IsRegular zeroMargin n) (p : ℤ)
    (hcached : g.accuracy.Cached cache) : ∃ v, (fetch (g.programs kernel) n p cache).1 = .ok v := by
  induction n using Nat.strong_induction_on generalizing p cache with
  | _ n ih =>
    unfold fetch
    split
    · exact ⟨_, rfl⟩
    · have hasks : (g.programs kernel n p).AsksOnly fun i => g.IsRegular zeroMargin i := by
        unfold Graph.programs
        split
        · rename_i hlt
          have hoperands := ((Graph.isRegular_iff hlt).1 hn).2
          exact asksOnly_approximateOp kernel p ((Op.forall_operands_below _ _).2 hoperands)
        · trivial
      obtain ⟨v, hv⟩ := exists_carryOut hk hn (fun i hi hregular q cache hcached =>
        ih i hi hregular q hcached) hasks (g.keeps_programs hk n p) hcached
      rw [evaluate_eq]
      rcases hanswer : (g.programs kernel n p).carryOut (fun i => fetch (g.programs kernel) i) cache
        with ⟨answer, cache'⟩
      rw [hanswer] at hv
      obtain rfl : answer = .ok v := hv
      exact ⟨v, rfl⟩

/-- So it is to several precisions, one after the other. -/
theorem materialize_of_isRegular (hk : kernel.Accurate) (hn : g.IsRegular zeroMargin n)
    (precisions : List ℤ) (hcached : g.accuracy.Cached cache) :
    Materialize (g.programs kernel) (precisions.map (Prod.mk n)) cache := by
  induction precisions generalizing cache with
  | nil => trivial
  | cons p precisions ih =>
    obtain ⟨v, hv⟩ := exists_fetch hk hn p hcached
    rw [← approximate_eq_fetch] at hv
    have hsettles := g.accuracy.settles_approximate (g.keeps_programs hk) hcached n p
    exact ⟨v, _, Prod.ext hv rfl, ih hsettles.cache⟩

open Reckoner.Dual (integerTest)

/-- A number can be approximated, and clearly is close to an integer or clearly is not, where the test of
a factorial may err by a quarter of its tolerance either way. -/
structure Term.Settled (t : Term) : Prop where
  isRegular : t.IsRegular zeroMargin
  clear : (∃ n : ℤ, |t.value - n| ≤ 3 / 4 * 2 ^ (-integerTest)) ∨
    ∀ n : ℤ, 5 / 4 * 2 ^ (-integerTest) < |t.value - n|

open Classical in
/-- The integer that a number is close to, if there is one. -/
noncomputable def Term.closeInteger? (t : Term) : Option ℤ :=
  if Within integerTest t.value (round t.value) then some (round t.value) else none

/-- The integer test of a settled number has one answer, whatever is kept. -/
theorem Term.Settled.ask (h : t.Settled) (hk : kernel.Accurate) (hm : m.Sound names)
    (ht : t.Consistent names) :
    ((t.ask fun g node => integer? kernel g node integerTest) m).1 = .ok t.closeInteger? := by
  obtain ⟨g, node, cache, hshows, hkept, hask⟩ :=
    exists_ask hm ht fun g node => integer? kernel g node integerTest
  have hregular := hshows.isRegular zeroMargin h.isRegular
  obtain ⟨answer, cache', hanswer⟩ := exists_of_materialize
    (materialize_of_isRegular hk hregular [integerTest + 2, 2] hkept.cached)
  rw [hask, hanswer]
  have hpos := two_zpow_pos (-integerTest)
  have hround : ∀ n : ℤ, |t.value - n| ≤ 5 / 4 * 2 ^ (-integerTest) → n = round t.value :=
    fun n hn => eq_round_of_abs_sub_le (by decide) hn
  cases answer with
  | none =>
    have hfar := fun n => lt_abs_sub_of_integer? hk hkept.cached hregular.isDefined hanswer n
    rw [hshows.value] at hfar
    rcases h.clear with ⟨n, hn⟩ | hclear
    · exact absurd hn (not_le.2 (hfar n))
    · have hnot : ¬ Within integerTest t.value (round t.value) := by
        unfold Within
        linarith [hclear (round t.value)]
      rw [closeInteger?, if_neg hnot]
  | some n =>
    have hn := abs_sub_le_of_integer? hk hkept.cached hregular.isDefined (by decide) hanswer
    rw [hshows.value] at hn
    rcases h.clear with ⟨l, hl⟩ | hclear
    · obtain rfl := hround l (by linarith)
      have hclose : Within integerTest t.value (round t.value) := by
        unfold Within
        linarith
      rw [closeInteger?, if_pos hclose, hround n hn]
    · exact absurd hn (not_le.2 (hclear n))

end Reckoner.Reals

namespace Reckoner.Dual

open Reals

variable {kernel : Kernel} {x : Dual} {names : ℕ → Term} {m : Memory}

/-- The factorial, where the integer test is made on the number itself. -/
noncomputable def idealFactorial (x : Dual) : Except ArithmeticError Dual :=
  match x.exact with
  | some q => (orReal · x.real) <$> Exact.factorial (some q)
  | none => x.factorialAs x.real.closeInteger?

/-- The factorial of a number with an exact value, or of a settled one, does not depend on what is kept.
-/
theorem factorial_of_settled (hk : kernel.Accurate) (hm : m.Sound names)
    (hx : x.real.Consistent names) (hsettled : x.exact = none → x.real.Settled) :
    (x.factorial kernel m).1 = x.idealFactorial := by
  unfold idealFactorial
  cases hexact : x.exact with
  | some q => rw [factorial_of_exact hexact]
  | none =>
    have hask := (hsettled hexact).ask hk hm hx
    rw [factorial_of_ask hexact (Prod.ext hask rfl)]

theorem factorial_sound (hk : kernel.Accurate) (hm : m.Sound names) (hx : x.real.Consistent names) :
    (x.factorial kernel m).2.Sound names := by
  have hsound := Term.ask_sound hm hx fun g node => Query.Keeps.integer? hk g node integerTest
  cases hexact : x.exact with
  | some q =>
    rw [factorial_of_exact hexact]
    exact hm
  | none =>
    rcases hask : (x.real.ask fun g node => integer? kernel g node integerTest) m with ⟨answer, m'⟩
    rw [hask] at hsound
    cases answer with
    | error e =>
      rw [factorial_of_ask_error hexact hask]
      exact hsound
    | ok answer =>
      rw [factorial_of_ask hexact hask]
      exact hsound

end Reckoner.Dual
