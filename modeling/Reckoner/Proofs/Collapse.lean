import Reckoner.Proofs.Failures
import Reckoner.Proofs.Restore
import Reckoner.Proofs.Rounding
import Reckoner.Proofs.Answers
/-!
Collapsing a buffer. A buffer that has a value becomes one token of that value, if the value can be shown
(`Arithmetic.Unshown` says when it cannot); one that has none stays as it is.
-/
namespace Reckoner

open Reals

namespace Grammar

/-- A collapsed token has its value in every mode. -/
theorem evaluate_collapsed (mode : Mode) (name : Nat) (x : Dual) (source : Expression)
    (context : Context) (short : String) (m : Memory) :
    evaluate mode 1 [.collapsed name x source context short] m = (.ok x, m) := by
  have ht : IsExpression [.collapsed name x source context short] (.collapsed x) :=
    .expr (.term (.signedFactor (.factor (.suffix .collapsed .suffixesDone))) .productsDone)
      .sumsDone
  have hroom : (Tree.collapsed x).room mode m ≤ nestingLimit := by simp [Tree.room, nestingLimit]
  exact ht.evaluate_eq hroom

end Grammar

namespace Dual

theorem exact_keptAs (name : Nat) (x : Dual) : (x.keptAs name).exact = x.exact := by
  unfold keptAs
  split <;> rfl

theorem value_keptAs (name : Nat) (x : Dual) : (x.keptAs name).real.value = x.real.value := by
  unfold keptAs
  split <;> rfl

theorem isDefined_keptAs (name : Nat) (x : Dual) :
    (x.keptAs name).real.IsDefined ↔ x.real.IsDefined := by
  unfold keptAs
  split <;> rfl

end Dual

namespace Arithmetic

variable {a : Arithmetic} {n : Int} {x : Dual} {m : Memory}

/-- Why a result is not shown, as things are kept: it is no integer of at most `n` digits, and it cannot
be approximated to `n` digits, or there would be too many of them. -/
def Unshown (a : Arithmetic) (n : Int) (m : Memory) (x : Dual) (e : Failure) : Prop :=
  (∀ k, Exact.toInt? x.exact = some k → n < (toString k.natAbs).length) ∧
    if 2 ^ 66 < (n * 333).tdiv 100 then e = .digits .unbounded
    else ∃ cause, (x.real.approximate a.kernel ((n * 333).tdiv 100 + 8) m).1 = .error cause ∧
      e = .arithmetic cause

theorem bits_whole (hn : 1 ≤ n) :
    (DigitCount.whole n).bits =
      if 2 ^ 66 < (n * 333).tdiv 100 then .error .unbounded else .ok ((n * 333).tdiv 100 + 8) := by
  have hnonneg : 0 ≤ (n * 333).tdiv 100 := Int.tdiv_nonneg (by omega) (by decide)
  have hlow : ¬ (n * 333).tdiv 100 < -((powTwo 1024 : Nat) : Int) := by omega
  have hpow : ((powTwo 66 : Nat) : Int) = 2 ^ 66 := by decide
  simp only [DigitCount.bits, hlow, hpow, decide_false, Bool.false_or, decide_eq_true_eq]

theorem render_whole (hn : 1 ≤ n) (x : BigFloat) :
    (DigitCount.whole n).render x = .ok (Decimal.render n.toNat x) := by
  rw [DigitCount.render, if_pos (by omega)]

theorem renderTo_eq_error_iff (hn : 1 ≤ n) {e : Failure} :
    (a.renderTo (.integer n) x m).1 = .error e ↔
      if 2 ^ 66 < (n * 333).tdiv 100 then e = .digits .unbounded
      else ∃ cause, (x.real.approximate a.kernel ((n * 333).tdiv 100 + 8) m).1 = .error cause ∧
        e = .arithmetic cause := by
  have hcount : DigitCount.of (.integer n) = .ok (.whole n) := rfl
  simp only [renderTo, hcount, Except.mapError, Recall.ofExcept_ok, pure_bind, render_whole hn]
  rw [bits_whole hn]
  by_cases hbits : 2 ^ 66 < (n * 333).tdiv 100
  · rw [if_pos hbits, if_pos hbits]
    exact ⟨fun h => (Except.error.inj h).symm, fun h => h ▸ rfl⟩
  · rw [if_neg hbits, if_neg hbits]
    simp only [Recall.ofExcept_ok, pure_bind]
    rw [Recall.bind_apply, Recall.mapError_apply]
    rcases (x.real.approximate a.kernel ((n * 333).tdiv 100 + 8) m) with ⟨cause | v, m'⟩
    · simp only [Except.mapError, Except.error.injEq, exists_eq_left', eq_comm]
    · simp [Except.mapError, Recall.pure_apply]

/-- A number has a short text unless it is `Unshown`. Integers that are too long to be converted at all
are left out. -/
theorem shortText_eq_error_iff (hn : 1 ≤ n) {e : Failure}
    (hshort : ∀ k, Exact.toInt? x.exact = some k → (toString k.natAbs).length ≤ Text.digitLimit) :
    (a.shortText (.integer n) x m).1 = .error e ↔ Unshown a n m x e := by
  unfold shortText Unshown
  rw [← renderTo_eq_error_iff hn]
  cases hk : Exact.toInt? x.exact with
  | none => simp
  | some k =>
    have htext : Text.integerText k =
        .ok (if k < 0 then "-" ++ toString k.natAbs else toString k.natAbs) := by
      rw [Text.integerText, if_neg (Nat.not_lt.2 (hshort k hk))]
    have hlength : (if k < 0 then "-" ++ toString k.natAbs else toString k.natAbs).length -
        (if k < 0 then 1 else 0) = (toString k.natAbs).length := by
      split
      · rw [String.length_append]
        exact Nat.add_sub_cancel_left _ _
      · rfl
    have hcount : DigitCount.of (.integer n) = .ok (.whole n) := rfl
    simp only [htext, hcount, Except.mapError, Recall.ofExcept_ok, pure_bind, hlength,
      DigitCount.admits, decide_eq_true_eq, Option.some.injEq, forall_eq']
    by_cases hadmits : ((toString k.natAbs).length : Int) ≤ n
    · rw [if_pos hadmits]
      constructor
      · intro h
        cases h
      · rintro ⟨hlong, -⟩
        omega
    · rw [if_neg hadmits]
      exact ⟨fun h => ⟨by omega, h⟩, And.right⟩

end Arithmetic

namespace Reals

theorem neg_root_lt :
    (BigFloat.sqrt 72 (BigFloat.ofInt 2)).neg.lt (BigFloat.twoPow (-68)).neg = true := by
  have hnear := BigFloat.near_sqrt 72 (BigFloat.ofInt 2)
  rw [BigFloat.Near, BigFloat.value_ofInt, Int.cast_ofNat,
    abs_of_nonneg (Real.sqrt_nonneg _)] at hnear
  rw [BigFloat.lt_iff, BigFloat.value_neg, BigFloat.value_neg, BigFloat.value_twoPow]
  have hroot : 1 ≤ √(2 : ℝ) := by
    rw [Real.one_le_sqrt]
    norm_num
  have hbits : √(2 : ℝ) * 2 ^ (-((72 : ℕ) : ℤ)) ≤ √(2 : ℝ) * (1 / 4) := by
    gcongr
    norm_num
  have hlow := (abs_le.1 (hnear.trans hbits)).1
  have hvalue : 1 / 4 ≤ (BigFloat.sqrt 72 (BigFloat.ofInt 2)).value := by linarith only [hlow, hroot]
  have hallowance : (2 : ℝ) ^ (-68 : ℤ) < 1 / 4 := by norm_num
  exact neg_lt_neg (hallowance.trans_le hvalue)

/-- The root of minus the root of two fails only when it is approximated. -/
theorem approximate_root_neg_root (kernel : Kernel) (bits : Int) (name : ℕ) :
    ((Term.named (.name name) (.sqrt (.neg (.sqrt (.rational 2))))).approximate kernel bits
      Memory.empty).1 = .error .rootOfNegative := by
  let t : Term := .named (.name name) (.sqrt (.neg (.sqrt (.rational 2))))
  let g := (Draft.draw t Draft.empty).draft.graph
  let v := BigFloat.sqrt 72 (BigFloat.ofInt 2)
  let c₁ : Cache BigFloat := #[some (140, BigFloat.ofInt 2), none, none, none]
  let c₂ : Cache BigFloat := #[some (140, BigFloat.ofInt 2), some (68, v), none, none]
  let c₃ : Cache BigFloat := #[some (140, BigFloat.ofInt 2), some (68, v), some (68, v.neg), none]
  have hroot : approximateTo kernel g 3 guardBits (Array.replicate 4 none) =
      (.error .rootOfNegative, c₃) := by
    change run (g.programs kernel) (.running 3 32 _ [] (Array.replicate 4 none)) = _
    rw [run_of_step (t := .running 2 68 _ _ (Array.replicate 4 none)) rfl,
      run_of_step (t := .running 1 68 _ _ (Array.replicate 4 none)) rfl,
      run_of_step (t := .running 0 140 _ _ (Array.replicate 4 none)) rfl,
      run_of_step (t := .returning (BigFloat.ofInt 2) _ c₁) rfl,
      run_of_step (t := .running 1 68 _ _ c₁) rfl,
      run_of_step (t := .returning v _ c₂) rfl,
      run_of_step (t := .running 2 68 _ _ c₂) rfl,
      run_of_step (t := .returning v.neg _ c₃) rfl,
      run_of_step (t := .running 3 32 (if v.neg.lt (BigFloat.twoPow (-68)).neg = true then
        .fail .rootOfNegative else _) [] c₃) rfl, if_pos neg_root_lt]
    exact run_of_ended rfl
  have happroximate : approximateBits kernel g 3 bits (Array.replicate 4 none) =
      (.error .rootOfNegative, c₃) :=
    run_bind_eq_error_iff.2 (.inl hroot)
  exact congrArg Prod.fst happroximate

end Reals

namespace Calculator

variable {a : Arithmetic} {c c' : Calculator} {x : Dual} {n : Int}

/-- The same calculator but for the memory and the names that are taken. -/
structure SameState (c c' : Calculator) : Prop where
  degrees : c'.degrees = c.degrees
  shortDigits : c'.shortDigits = c.shortDigits
  buffer : c'.buffer = c.buffer

/-- A calculator that is `c` with its buffer collapsed to the value `x`: the one token in its buffer
holds the old one, and has in both modes the value that the old one had in its own. -/
structure CollapsesTo (a : Arithmetic) (c c' : Calculator) (x : Dual) : Prop where
  degrees : c'.degrees = c.degrees
  shortDigits : c'.shortDigits = c.shortDigits
  buffer : ∃ short, c'.buffer =
    [.collapsed c.names (x.keptAs c.names) c.buffer ⟨c.degrees, c.buffer.length⟩ short]
  value : ∀ degrees m, ∃ y, a.evaluate degrees true c'.buffer m = (.ok y, m) ∧ y.exact = x.exact ∧
    y.real.value = x.real.value ∧ (y.real.IsDefined ↔ x.real.IsDefined)

theorem collapsesTo_abbreviate (a : Arithmetic) (c : Calculator) (x : Dual) (short : String)
    (names : ℕ) (m : Memory) :
    CollapsesTo a c ⟨c.degrees, c.shortDigits, c.buffer.abbreviate c.names x c.degrees short, names, m⟩
      x where
  degrees := rfl
  shortDigits := rfl
  buffer := ⟨short, rfl⟩
  value degrees m := by
    refine ⟨x.keptAs c.names, ?_, x.exact_keptAs _, x.value_keptAs _, x.isDefined_keptAs _⟩
    exact Grammar.evaluate_collapsed (a.mode degrees) c.names (x.keptAs c.names) c.buffer
      ⟨c.degrees, c.buffer.length⟩ short m

/-- Well-formed numbers can be converted if they are short enough, so an evaluation that fails says that
there is no value. -/
theorem isRefusal_of_wellFormed (hwell : ∀ l, .literal l ∈ c.buffer → l.WellFormed)
    (hshort : ∀ l, .literal l ∈ c.buffer →
      l.integral.length + l.fraction.length ≤ Text.digitLimit)
    {e : Failure} (he : (c.evaluate a true).1 = .error e) : isRefusal e = true := by
  have hevaluate : (Grammar.evaluateWithin (a.mode c.degrees) Grammar.nestingLimit c.buffer.length
      c.buffer c.memory).1 = .error e := he
  rcases Grammar.evaluateWithin_error hevaluate with ⟨cause, rfl⟩ | ⟨cause, rfl⟩ |
    ⟨cause, l, rfl, hl, hnot⟩
  · rfl
  · rfl
  · have hmem : .literal l ∈ c.buffer := List.take_subset _ _ hl
    have hnumeric := (hwell l hmem).numeric
    exact absurd ⟨hnumeric.whole, hnumeric.fraction, hshort l hmem⟩ hnot

/-- Whether there is nothing to collapse: the buffer is empty, or a single number, or has no value. -/
def Stays (a : Arithmetic) (c : Calculator) : Prop :=
  c.buffer = [] ∨ c.buffer.isConstant = true ∨ ∃ e, (c.evaluate a true).1 = .error e

/-- The short text of a value that has just been found and named. -/
def shortOf (a : Arithmetic) (c : Calculator) (x : Dual) : Except Failure String × Memory :=
  a.shortText c.shortDigits (x.keptAs c.names) (c.evaluate a true).2.memory

theorem collapse_of_value (hsize : ¬ (c.buffer.isEmpty || c.buffer.isConstant) = true)
    (hx : (c.evaluate a true).1 = .ok x) :
    c.collapse a = match c.shortOf a x with
      | (.error e, m) => (.error e, ⟨c.degrees, c.shortDigits, c.buffer, c.names + 1, m⟩)
      | (.ok short, m) => (.ok true, ⟨c.degrees, c.shortDigits,
          c.buffer.abbreviate c.names x c.degrees short, c.names + 1, m⟩) := by
  have hevaluate : c.evaluate a true =
      ((c.evaluate a true).1, { c with memory := (c.evaluate a true).2.memory }) := rfl
  rw [collapse, if_neg hsize, hevaluate, hx]
  dsimp only [name, shortText, recalling, shortOf]
  rcases a.shortText c.shortDigits (x.keptAs c.names) (c.evaluate a true).2.memory with
    ⟨e | short, m⟩ <;> rfl

/-- What collapsing does after any run from an empty buffer: nothing if there is nothing to collapse;
else the value takes the place of the buffer, unless it cannot be shown, and then collapsing fails. -/
theorem collapse_outcome {files : Files} {degrees : Option Bool} {names : Nat} {m : Memory}
    {c₀ : Calculator} (hstart : start files degrees names m = .ok c₀) (actions : List Action)
    (hc : c₀.run a actions = c) (hn : 1 ≤ n) (hdigits : c.shortDigits = .integer n)
    (hliterals : ∀ l, .literal l ∈ c.buffer →
      l.integral.length + l.fraction.length ≤ Text.digitLimit)
    (hintegers : ∀ x k, (c.evaluate a true).1 = .ok x → Exact.toInt? x.exact = some k →
      (toString k.natAbs).length ≤ Text.digitLimit) :
    (c.Stays a ∧ (c.collapse a).1 = .ok false ∧ SameState c (c.collapse a).2) ∨
      ∃ x, (c.evaluate a true).1 = .ok x ∧
        (((∀ e, ¬ a.Unshown n (c.evaluate a true).2.memory (x.keptAs c.names) e) ∧
            (c.collapse a).1 = .ok true ∧ CollapsesTo a c (c.collapse a).2 x) ∨
          ∃ e, a.Unshown n (c.evaluate a true).2.memory (x.keptAs c.names) e ∧
            (c.collapse a).1 = .error e ∧ SameState c (c.collapse a).2) := by
  have hmade : Made (fun t => ∀ l, t = .literal l → l.WellFormed) c.buffer := by
    rw [← hc]
    refine made_run ⟨?_, ?_⟩ ?_ hstart actions <;> simp
  by_cases hsize : (c.buffer.isEmpty || c.buffer.isConstant) = true
  · refine .inl ⟨?_, ?_⟩
    · rcases Bool.or_eq_true_iff.1 hsize with hempty | hconstant
      · exact .inl (List.isEmpty_iff.1 hempty)
      · exact .inr (.inl hconstant)
    · rw [collapse, if_pos hsize]
      exact ⟨rfl, rfl, rfl, rfl⟩
  · rcases hvalue : (c.evaluate a true).1 with e | x
    · refine .inl ⟨.inr (.inr ⟨e, hvalue⟩), ?_⟩
      have hevaluate : c.evaluate a true =
          ((c.evaluate a true).1, { c with memory := (c.evaluate a true).2.memory }) := rfl
      have hrefusal : isRefusal e = true := isRefusal_of_wellFormed
        (fun l hl => hmade.tokens _ (Expression.mem_within_of_mem hl) l rfl) hliterals hvalue
      rw [collapse, if_neg hsize, hevaluate, hvalue]
      exact ⟨if_pos hrefusal, rfl, rfl, rfl⟩
    · right
      have hcollapse := collapse_of_value hsize hvalue
      have hfails : ∀ e, (c.shortOf a x).1 = .error e ↔
          a.Unshown n (c.evaluate a true).2.memory (x.keptAs c.names) e := by
        intro e
        rw [shortOf, hdigits]
        refine Arithmetic.shortText_eq_error_iff hn fun k hk => hintegers x k hvalue ?_
        rwa [Dual.exact_keptAs] at hk
      refine ⟨x, rfl, ?_⟩
      rw [hcollapse]
      rcases hshort : c.shortOf a x with ⟨e | short, m⟩ <;> rw [hshort] at hfails
      · exact .inr ⟨e, (hfails e).1 rfl, rfl, rfl, rfl, rfl⟩
      · refine .inl ⟨fun e he => ?_, rfl, collapsesTo_abbreviate a c x short _ _⟩
        cases (hfails e).2 he

/-- Every hypothesis holds of a sum of two numbers, and its value can be shown. -/
theorem collapse_outcome_sum :
    let c := fresh.run shippedArithmetic [.type "1+2"]
    start ⟨none, none, true⟩ (some false) 0 Memory.empty = .ok fresh ∧
      (c.collapse shippedArithmetic).1 = .ok true ∧
      CollapsesTo shippedArithmetic c (c.collapse shippedArithmetic).2 (Dual.ofRat 3) := by
  intro c
  have hstart : start ⟨none, none, true⟩ (some false) 0 Memory.empty = .ok fresh := by cbv
  have hc : c = { fresh with buffer :=
      [.literal ⟨"1", false, ""⟩, .operator (.binary .plus), .literal ⟨"2", false, ""⟩] } := by
    show fresh.run shippedArithmetic [.type "1+2"] = _
    cbv
  have hvalue : (c.evaluate shippedArithmetic true).1 = .ok (Dual.ofRat 3) := by
    rw [hc]
    cbv
  have hinteger : Exact.toInt? (Dual.ofRat 3).exact = some 3 := by decide
  have houtcome := collapse_outcome (n := 12) hstart [.type "1+2"] (c := c) rfl (by decide)
    (by rw [hc]; rfl) (by rw [hc]; simp; decide) (by
      intro x k hx hk
      obtain rfl := Except.ok.inj (hvalue.symm.trans hx)
      obtain rfl := Option.some.inj (hinteger.symm.trans hk)
      decide)
  refine ⟨hstart, ?_⟩
  rcases houtcome with ⟨hstays, -⟩ | ⟨x, hx, hshown⟩
  · rw [Stays, hvalue, hc] at hstays
    rcases hstays with hempty | hconstant | ⟨e, he⟩
    · cases hempty
    · cases hconstant
    · cases he
  · obtain rfl := Except.ok.inj (hvalue.symm.trans hx)
    rcases hshown with ⟨-, hcollapsed⟩ | ⟨e, ⟨hlong, -⟩, -⟩
    · exact hcollapsed
    · exact absurd (hlong 3 hinteger) (by decide)

/-- The value of the root of minus the root of two cannot be shown, and collapsing fails for it: it
neither leaves the buffer as it is nor puts a value in its place. -/
theorem collapse_root_neg_root :
    let c := fresh.run shippedArithmetic [.type "√−√2"]
    start ⟨none, none, true⟩ (some false) 0 Memory.empty = .ok fresh ∧
      (c.evaluate shippedArithmetic true).1 = .ok ⟨.sqrt (.neg (.sqrt (.rational 2))), none⟩ ∧
      (c.collapse shippedArithmetic).1 = .error (.arithmetic .rootOfNegative) := by
  intro c
  have hstart : start ⟨none, none, true⟩ (some false) 0 Memory.empty = .ok fresh := by cbv
  have hc : c = { fresh with buffer :=
      [.operator .root, .operator (.binary .minus), .operator .root,
        .literal ⟨"2", false, ""⟩] } := by
    show fresh.run shippedArithmetic [.type "√−√2"] = _
    cbv
  have hvalue : c.evaluate shippedArithmetic true =
      (.ok ⟨.sqrt (.neg (.sqrt (.rational 2))), none⟩, c) := by
    rw [hc]
    cbv
  have hshort : (c.shortOf shippedArithmetic ⟨.sqrt (.neg (.sqrt (.rational 2))), none⟩).1 =
      .error (.arithmetic .rootOfNegative) := by
    rw [shortOf, hvalue, hc]
    refine (Arithmetic.shortText_eq_error_iff (n := 12) (by decide) (by intro k hk; cases hk)).2 ?_
    refine ⟨fun k hk => (by cases hk), ?_⟩
    rw [if_neg (by decide)]
    exact ⟨_, Reals.approximate_root_neg_root _ _ 0, rfl⟩
  refine ⟨hstart, congrArg Prod.fst hvalue, ?_⟩
  rw [collapse_of_value (by rw [hc]; decide) (congrArg Prod.fst hvalue)]
  rcases h : c.shortOf shippedArithmetic ⟨.sqrt (.neg (.sqrt (.rational 2))), none⟩ with ⟨e | s, m⟩
  · rw [h] at hshort
    obtain rfl := Except.error.inj hshort
    rfl
  · rw [h] at hshort
    cases hshort

end Calculator

end Reckoner
