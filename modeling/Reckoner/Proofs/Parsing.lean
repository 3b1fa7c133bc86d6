import Mathlib
import Reckoner.Elementary
import Reckoner.Proofs.Outcome
import Reckoner.Proofs.Recognition
/-!
What is read is a phrase. A rule that succeeds has read a phrase with the value that it gives, as far
as it goes (`parse_sound`); so evaluating the tokens that count is deriving them (`evaluate_derives`).

All of Mathlib is imported for the equations of the standard library that `cbv` evaluates by, here and
in the modules above this one; no single part of it has them.
-/
namespace Reckoner.Grammar

open Reals

variable {mode : Mode} {depth count : Nat} {r : Rule} {ts rest : List Token} {x : Tree} {v : Dual}
  {p : Parsed} {m₀ m m' : Memory}

/-- The tokens are a part with the value found from a memory, which ends at the tokens left. -/
def Reads (mode : Mode) (part : Part) (ts : List Token) (p : Parsed) (m m' : Memory) : Prop :=
  ∃ t, Derives part ts t p.rest ∧ t.value mode m = (.ok p.value, m') ∧ part.EndsAt p.rest

theorem orAbort_eq_ok_iff {α : Type} {x : Except Failure α} {y : α} :
    orAbort x m = (.ok y, m') ↔ x = .ok y ∧ m = m' := by
  rw [orAbort, Recall.ofExcept_eq_ok_iff, mapError_eq_ok_iff]

theorem orFail_eq_ok_iff {α : Type} {x : Except ArithmeticError α} {y : α} :
    orFail x m = (.ok y, m') ↔ x.mapError Failure.arithmetic = .ok y ∧ m = m' :=
  orAbort_eq_ok_iff

theorem eq_of_skipMinus_false (h : skipMinus ts = (false, rest)) : ts = rest := by
  rw [skipMinus_eq] at h
  cases hafter : after? (.binary .minus) ts with
  | none =>
    rw [hafter] at h
    exact (Prod.mk.inj h).2
  | some rest' =>
    rw [hafter] at h
    cases h

theorem eq_of_skipMinus_true (h : skipMinus ts = (true, rest)) :
    ts = .operator (.binary .minus) :: rest := by
  rw [skipMinus_eq] at h
  cases hafter : after? (.binary .minus) ts with
  | none =>
    rw [hafter] at h
    cases h
  | some rest' =>
    rw [hafter] at h
    obtain rfl := (Prod.mk.inj h).2
    exact after?_eq_some_iff.1 hafter

theorem closes_skipClosing (h : tightness ts ≤ 0) : ∃ closed, Closes ts closed (skipClosing ts) := by
  fun_cases tightness ts with
  | case1 => exact ⟨false, .ending⟩
  | case2 rest => exact ⟨true, .closing⟩
  | _ => simp_all [tightness]

theorem tightness_of_not_suffix (h : ∀ op rest, ts ≠ .operator (.suffix op) :: rest) :
    tightness ts ≤ 4 := by
  fun_cases tightness ts with
  | case6 op rest => exact absurd rfl (h op rest)
  | _ => decide

theorem tightness_of_after?_eq_none (h : after? (.binary .power) ts = none)
    (hle : tightness ts ≤ 4) : tightness ts ≤ 3 := by
  fun_cases tightness ts with
  | case5 => cases h
  | case6 => exact absurd hle (Nat.not_succ_le_self 4)
  | _ => decide

theorem tightness_of_not_canStartFactor {t : Token} (hstart : ¬ canStartFactor (t :: rest))
    (htimes : ¬ t.isKey (.binary .times)) (hover : ¬ t.isKey (.binary .over))
    (hle : tightness (t :: rest) ≤ 2) : tightness (t :: rest) ≤ 1 := by
  cases t with
  | operator k =>
    cases k with
    | binary op => cases op <;> simp_all [tightness, Token.isKey]
    | suffix op => exact absurd hle (by simp [tightness])
    | closing => exact Nat.zero_le 1
    | _ => exact absurd rfl hstart
  | _ => exact absurd rfl hstart

theorem tightness_of_not_isKey {t : Token} (hplus : ¬ t.isKey (.binary .plus))
    (hminus : ¬ t.isKey (.binary .minus)) (hle : tightness (t :: rest) ≤ 1) :
    tightness (t :: rest) ≤ 0 := by
  cases t with
  | operator k =>
    cases k with
    | binary op => cases op <;> simp_all [tightness, Token.isKey]
    | closing => exact Nat.le_refl 0
    | _ => simp [tightness] at hle
  | _ => simp [tightness] at hle

section

variable {sub : Rule → List Token → Outcome}
  (hsub : ∀ r ts p m m', sub r ts m = (.ok p, m') → Reads mode (.rule r) ts p m m')

include hsub

theorem reads_unary (h : unary mode sub ts m = (.ok p, m')) :
    Reads mode (.rule .unary) ts p m m' := by
  fun_cases unary mode sub ts with
  | case1 => cases h
  | case2 l rest =>
    obtain ⟨v, m₁, hv, h⟩ := run_bind_eq_ok_iff.1 h
    obtain ⟨hl, rfl⟩ := orAbort_eq_ok_iff.1 hv
    cases h
    exact ⟨.number l, .number, Recall.ofExcept_eq_ok_iff.2 ⟨hl, rfl⟩, tightness_le _⟩
  | case3 name value source context short rest =>
    cases h
    exact ⟨.collapsed value, .collapsed, rfl, tightness_le _⟩
  | case4 rest =>
    cases h
    exact ⟨.constant .pi, .constant, rfl, tightness_le _⟩
  | case5 rest =>
    cases h
    exact ⟨.constant .e, .constant, rfl, tightness_le _⟩
  | case6 ts negative rest hskip =>
    simp only [unary, hskip] at h
    obtain ⟨arg, m₁, harg, h⟩ := run_bind_eq_ok_iff.1 h
    obtain ⟨v, m₂, hv, h⟩ := run_bind_eq_ok_iff.1 h
    obtain ⟨hroot, rfl⟩ := orFail_eq_ok_iff.1 hv
    cases h
    obtain ⟨t, ht, hvt, hend⟩ := hsub _ _ _ _ _ harg
    have hvalue : (Tree.root negative t).value mode m = (.ok v, m') :=
      run_bind_eq_ok_iff.2 ⟨_, _, hvt, Recall.ofExcept_eq_ok_iff.2 ⟨hroot, rfl⟩⟩
    cases negative with
    | false =>
      obtain rfl := eq_of_skipMinus_false hskip
      exact ⟨.root false t, .root ht, hvalue, hend⟩
    | true =>
      obtain rfl := eq_of_skipMinus_true hskip
      exact ⟨.root true t, .rootMinus ht, hvalue, hend⟩
  | case7 rest =>
    obtain ⟨arg, m₁, harg, h⟩ := run_bind_eq_ok_iff.1 h
    cases h
    obtain ⟨t, ht, hvt, hend⟩ := hsub _ _ _ _ _ harg
    obtain ⟨closed, hc⟩ := closes_skipClosing hend
    exact ⟨.group closed t, .group ht hc, hvt, tightness_le _⟩
  | case8 rest f =>
    obtain ⟨arg, m₁, harg, h⟩ := run_bind_eq_ok_iff.1 h
    obtain ⟨v, m₂, hv, h⟩ := run_bind_eq_ok_iff.1 h
    obtain ⟨hcall, rfl⟩ := orFail_eq_ok_iff.1 hv
    cases h
    obtain ⟨t, ht, hvt, hend⟩ := hsub _ _ _ _ _ harg
    obtain ⟨closed, hc⟩ := closes_skipClosing hend
    exact ⟨.call f closed t, .call ht hc,
      run_bind_eq_ok_iff.2 ⟨_, _, hvt, Recall.ofExcept_eq_ok_iff.2 ⟨hcall, rfl⟩⟩, tightness_le _⟩
  | case9 =>
    simp only [unary] at h
    cases h

omit hsub in
theorem reads_suffixes (h : suffixes mode v ts m = (.ok p, m'))
    (hv : x.value mode m₀ = (.ok v, m)) : Reads mode (.suffixes x) ts p m₀ m' := by
  fun_induction suffixes mode v ts generalizing x m with
  | case1 v op rest ih =>
    obtain ⟨w, m₁, hw, h⟩ := run_bind_eq_ok_iff.1 h
    rw [applySuffix_eq, Recall.mapError_eq_ok_iff] at hw
    have hvalue : (Tree.suffix op x).value mode m₀ = (.ok w, m₁) :=
      run_bind_eq_ok_iff.2 ⟨v, m, hv, hw⟩
    obtain ⟨t, ht, hvt, hend⟩ := ih w h hvalue
    exact ⟨t, .suffixesMore ht, hvt, hend⟩
  | case2 v rest hne =>
    cases h
    exact ⟨x, .suffixesDone, hv, tightness_of_not_suffix hne⟩

theorem reads_suffix (h : suffix mode sub ts m = (.ok p, m')) :
    Reads mode (.rule .suffix) ts p m m' := by
  obtain ⟨base, m₁, hbase, h⟩ := run_bind_eq_ok_iff.1 h
  obtain ⟨x, hx, hv, -⟩ := hsub _ _ _ _ _ hbase
  obtain ⟨t, ht, hvt, hend⟩ := reads_suffixes h hv
  exact ⟨t, .suffix hx ht, hvt, hend⟩

theorem reads_factor (h : factor mode depth sub ts m = (.ok p, m')) :
    Reads mode (.rule .factor) ts p m m' := by
  rw [factor_eq] at h
  obtain ⟨base, m₁, hbase, h⟩ := run_bind_eq_ok_iff.1 h
  obtain ⟨s, hs, hvs, hmid⟩ := hsub _ _ _ _ _ hbase
  cases hafter : after? (.binary .power) base.rest with
  | none =>
    rw [hafter] at h
    cases h
    exact ⟨s, .factor hs, hvs, tightness_of_after?_eq_none hafter hmid⟩
  | some rest =>
    rw [hafter] at h
    obtain ⟨exponent, m₂, hexponent, h⟩ := run_bind_eq_ok_iff.1 h
    obtain ⟨v, m₃, hv, h⟩ := run_bind_eq_ok_iff.1 h
    obtain ⟨hpower, rfl⟩ := orAbort_eq_ok_iff.1 hv
    cases h
    obtain ⟨t, ht, hvt, hend⟩ := hsub _ _ _ _ _ hexponent
    rw [after?_eq_some_iff.1 hafter] at hs
    refine ⟨.power s t, .power hs ht, ?_, Nat.le_succ_of_le hend⟩
    refine run_bind_eq_ok_iff.2 ⟨_, _, hvs, run_bind_eq_ok_iff.2 ⟨_, _, hvt, ?_⟩⟩
    rcases base.value.power_eq mode.limit depth exponent.value with heq | ⟨-, heq⟩
    · exact Recall.ofExcept_eq_ok_iff.2 ⟨heq.symm.trans hpower, rfl⟩
    · cases heq.symm.trans hpower

theorem reads_signedFactor (h : signedFactor sub ts m = (.ok p, m')) :
    Reads mode (.rule .signedFactor) ts p m m' := by
  rcases hskip : skipMinus ts with ⟨_ | _, rest⟩ <;> rw [signedFactor, hskip] at h
  rotate_left
  · obtain ⟨x, m₁, hx, h⟩ := run_bind_eq_ok_iff.1 h
    cases h
    obtain rfl := eq_of_skipMinus_true hskip
    obtain ⟨t, ht, hvt, hend⟩ := hsub _ _ _ _ _ hx
    exact ⟨.opposite t, .opposite ht, run_bind_eq_ok_iff.2 ⟨_, _, hvt, rfl⟩, tightness_le_two hend⟩
  · obtain rfl := eq_of_skipMinus_false hskip
    obtain ⟨t, ht, hvt, hend⟩ := hsub _ _ _ _ _ h
    exact ⟨t, .signedFactor ht, hvt, tightness_le_two hend⟩

theorem reads_products (h : products mode sub count v ts m = (.ok p, m'))
    (hv : x.value mode m₀ = (.ok v, m)) (hcount : ts.length ≤ count) (hts : tightness ts ≤ 2) :
    Reads mode (.products x) ts p m₀ m' := by
  fun_induction products mode sub count v ts generalizing x m with
  | case1 v ts =>
    cases h
    obtain rfl := List.eq_nil_of_length_eq_zero (Nat.le_zero.1 hcount)
    exact ⟨x, .productsDone, hv, Nat.zero_le 1⟩
  | case2 count v =>
    cases h
    exact ⟨x, .productsDone, hv, Nat.zero_le 1⟩
  | case3 count v a ts hkey ih =>
    obtain ⟨y, m₁, hy, h⟩ := run_bind_eq_ok_iff.1 h
    obtain ⟨s, hs, hvs, hmid⟩ := hsub _ _ _ _ _ hy
    have hvalue : (Tree.product true x s).value mode m₀ = (.ok (v.mul mode.limit y.value), m₁) :=
      run_bind_eq_ok_iff.2 ⟨_, _, hv, run_bind_eq_ok_iff.2 ⟨_, _, hvs, rfl⟩⟩
    obtain ⟨t, ht, hvt, hend⟩ := ih y h hvalue
      (Nat.le_of_lt_succ (Nat.lt_trans hs.length_lt hcount)) hmid
    obtain rfl := isKey_iff.1 hkey
    exact ⟨t, .times hs ht, hvt, hend⟩
  | case4 count v a ts _ hkey ih =>
    obtain ⟨y, m₁, hy, h⟩ := run_bind_eq_ok_iff.1 h
    obtain ⟨w, m₂, hw, h⟩ := run_bind_eq_ok_iff.1 h
    obtain ⟨hquotient, rfl⟩ := orFail_eq_ok_iff.1 hw
    obtain ⟨s, hs, hvs, hmid⟩ := hsub _ _ _ _ _ hy
    have hvalue : (Tree.quotient x s).value mode m₀ = (.ok w, m₁) :=
      run_bind_eq_ok_iff.2 ⟨_, _, hv,
        run_bind_eq_ok_iff.2 ⟨_, _, hvs, Recall.ofExcept_eq_ok_iff.2 ⟨hquotient, rfl⟩⟩⟩
    obtain ⟨t, ht, hvt, hend⟩ := ih y w h hvalue
      (Nat.le_of_lt_succ (Nat.lt_trans hs.length_lt hcount)) hmid
    obtain rfl := isKey_iff.1 hkey
    exact ⟨t, .dividedBy hs ht, hvt, hend⟩
  | case5 count v a ts _ _ hstart ih =>
    obtain ⟨y, m₁, hy, h⟩ := run_bind_eq_ok_iff.1 h
    obtain ⟨s, hs, hvs, hmid⟩ := hsub _ _ _ _ _ hy
    have hvalue : (Tree.product false x s).value mode m₀ = (.ok (v.mul mode.limit y.value), m₁) :=
      run_bind_eq_ok_iff.2 ⟨_, _, hv, run_bind_eq_ok_iff.2 ⟨_, _, hvs, rfl⟩⟩
    obtain ⟨t, ht, hvt, hend⟩ := ih y h hvalue
      (Nat.le_of_lt_succ (Nat.lt_of_lt_of_le hs.length_lt hcount)) hmid
    cases hs with
    | signedFactor hs => exact ⟨t, .beside hs ht, hvt, hend⟩
    | opposite => cases hstart
  | case6 count v a ts htimes hover hstart =>
    cases h
    exact ⟨x, .productsDone, hv, tightness_of_not_canStartFactor hstart htimes hover hts⟩

theorem reads_term (h : term mode sub ts m = (.ok p, m')) : Reads mode (.rule .term) ts p m m' := by
  obtain ⟨x, m₁, hx, h⟩ := run_bind_eq_ok_iff.1 h
  obtain ⟨s, hs, hvs, hmid⟩ := hsub _ _ _ _ _ hx
  obtain ⟨t, ht, hvt, hend⟩ := reads_products hsub h hvs (Nat.le_of_lt hs.length_lt) hmid
  exact ⟨t, .term hs ht, hvt, hend⟩

theorem reads_sums (h : sums mode sub count v ts m = (.ok p, m'))
    (hv : x.value mode m₀ = (.ok v, m)) (hcount : ts.length ≤ count) (hts : tightness ts ≤ 1) :
    Reads mode (.sums x) ts p m₀ m' := by
  fun_induction sums mode sub count v ts generalizing x m with
  | case1 v ts =>
    cases h
    obtain rfl := List.eq_nil_of_length_eq_zero (Nat.le_zero.1 hcount)
    exact ⟨x, .sumsDone, hv, Nat.le_refl 0⟩
  | case2 count v =>
    cases h
    exact ⟨x, .sumsDone, hv, Nat.le_refl 0⟩
  | case3 count v a ts hkey ih =>
    obtain ⟨y, m₁, hy, h⟩ := run_bind_eq_ok_iff.1 h
    obtain ⟨s, hs, hvs, hmid⟩ := hsub _ _ _ _ _ hy
    have hvalue : (Tree.sum x s).value mode m₀ = (.ok (v.add mode.limit y.value), m₁) :=
      run_bind_eq_ok_iff.2 ⟨_, _, hv, run_bind_eq_ok_iff.2 ⟨_, _, hvs, rfl⟩⟩
    obtain ⟨t, ht, hvt, hend⟩ := ih y h hvalue
      (Nat.le_of_lt_succ (Nat.lt_trans hs.length_lt hcount)) hmid
    obtain rfl := isKey_iff.1 hkey
    exact ⟨t, .plus hs ht, hvt, hend⟩
  | case4 count v a ts _ hkey ih =>
    obtain ⟨y, m₁, hy, h⟩ := run_bind_eq_ok_iff.1 h
    obtain ⟨s, hs, hvs, hmid⟩ := hsub _ _ _ _ _ hy
    have hvalue : (Tree.difference x s).value mode m₀ = (.ok (v.sub mode.limit y.value), m₁) :=
      run_bind_eq_ok_iff.2 ⟨_, _, hv, run_bind_eq_ok_iff.2 ⟨_, _, hvs, rfl⟩⟩
    obtain ⟨t, ht, hvt, hend⟩ := ih y h hvalue
      (Nat.le_of_lt_succ (Nat.lt_trans hs.length_lt hcount)) hmid
    obtain rfl := isKey_iff.1 hkey
    exact ⟨t, .minus hs ht, hvt, hend⟩
  | case5 count v a ts hplus hminus =>
    cases h
    exact ⟨x, .sumsDone, hv, tightness_of_not_isKey hplus hminus hts⟩

theorem reads_expr (h : expr mode sub ts m = (.ok p, m')) : Reads mode (.rule .expr) ts p m m' := by
  obtain ⟨x, m₁, hx, h⟩ := run_bind_eq_ok_iff.1 h
  obtain ⟨s, hs, hvs, hmid⟩ := hsub _ _ _ _ _ hx
  obtain ⟨t, ht, hvt, hend⟩ := reads_sums hsub h hvs (Nat.le_of_lt hs.length_lt) hmid
  exact ⟨t, .expr hs ht, hvt, hend⟩

end

theorem parse_sound (h : parse mode depth r ts m = (.ok p, m')) :
    Reads mode (.rule r) ts p m m' := by
  induction depth generalizing r ts p m m' with
  | zero => cases h
  | succ depth ih =>
    have hsub : ∀ r ts p m m', parse mode depth r ts m = (.ok p, m') →
        Reads mode (.rule r) ts p m m' :=
      fun r ts p m m' h => ih h
    cases r with
    | unary => exact reads_unary hsub h
    | suffix => exact reads_suffix hsub h
    | factor => exact reads_factor hsub h
    | signedFactor => exact reads_signedFactor hsub h
    | term => exact reads_term hsub h
    | expr => exact reads_expr hsub h

/-- The tokens are one expression with the tree `t`. -/
def IsExpression (ts : List Token) (t : Tree) : Prop := Derives (.rule .expr) ts t []

theorem range_natCast (n : Nat) (ts : List Token) : range n ts = ts.take n := rfl

theorem settle_eq_ok_iff {span : Int} {o : Except Stop Parsed} :
    settle span ts o = .ok v ↔ o = .ok ⟨v, []⟩ ∧ (ts.length : Int) = span := by
  constructor
  · intro h
    unfold settle at h
    split at h
    · rename_i parsed
      split at h
      · rename_i hwhole
        rw [Bool.and_eq_true, List.isEmpty_iff, decide_eq_true_eq] at hwhole
        cases parsed
        exact ⟨by rw [← hwhole.1, ← Except.ok.inj h], hwhole.2⟩
      · cases h
    all_goals cases h
  · rintro ⟨rfl, hspan⟩
    simp [settle, hspan]

/-- Where all tokens count. -/
theorem evaluateWithin_length (mode : Mode) (depth : Nat) (ts : List Token) (m : Memory) :
    evaluateWithin mode depth ts.length ts m =
      (settle ts.length ts (parse mode depth .expr ts m).1, (parse mode depth .expr ts m).2) := by
  have hall : range ts.length ts = ts := List.take_length
  unfold evaluateWithin
  rw [hall]
  rfl

theorem evaluateWithin_sound {span : Int} (h : evaluateWithin mode depth span ts m = (.ok v, m')) :
    ∃ t, IsExpression (range span ts) t ∧ t.value mode m = (.ok v, m') ∧
      ((range span ts).length : Int) = span := by
  obtain ⟨hv, hm⟩ := Prod.mk.inj h
  obtain ⟨hparse, hspan⟩ := settle_eq_ok_iff.1 hv
  obtain ⟨t, ht, hvt, -⟩ := parse_sound (Prod.ext hparse hm)
  exact ⟨t, ht, hvt, hspan⟩

theorem evaluateWithin_of_conclude {n : Nat} {t : Tree} (hn : n ≤ ts.length)
    (h : parse mode depth .expr (ts.take n) m = conclude (t.value mode) [] m) :
    evaluateWithin mode depth n ts m = t.value mode m := by
  have hfails := t.value_failsInValue mode m
  unfold evaluateWithin
  rw [range_natCast]
  dsimp only
  rw [h, conclude]
  rcases hv : t.value mode m with ⟨e | v, m'⟩
  · rw [hv] at hfails
    rw [Recall.bind_of_error (Recall.mapError_eq_error_iff.2 ⟨e, hv, rfl⟩)]
    rcases hfails e rfl with ⟨cause, rfl⟩ | ⟨cause, rfl⟩ <;> rfl
  · rw [Recall.bind_of_ok (Recall.mapError_eq_ok_iff.2 hv)]
    exact Prod.ext (settle_eq_ok_iff.2 ⟨rfl, by simp [hn]⟩) rfl

/-- Tokens with a tree fail only as the value of the tree does, or for nesting deeper than there is room
for. -/
theorem IsExpression.evaluateWithin {n : Nat} {t : Tree} (h : IsExpression (ts.take n) t)
    (hn : n ≤ ts.length) (mode : Mode) (depth : Nat) (m : Memory) :
    evaluateWithin mode depth n ts m = t.value mode m ∨
      ¬ t.room mode m ≤ depth ∧ (evaluateWithin mode depth n ts m).1 =
        .error (.arithmetic .tooComplex) := by
  have hmeets : Meets (t.room mode m ≤ depth) (parse mode depth .expr (ts.take n))
      (t.value mode) [] m :=
    h.meets (Nat.le_refl 0) depth _ (Nat.le_refl _) m
  rcases hmeets with hread | ⟨hroom, m', hnesting⟩
  · exact .inl (evaluateWithin_of_conclude hn hread)
  · refine .inr ⟨hroom, ?_⟩
    unfold Grammar.evaluateWithin
    rw [range_natCast]
    dsimp only
    rw [hnesting]
    rfl

/-- All tokens of an expression have the value of its tree, where there is room for it. -/
theorem IsExpression.evaluateWithin_eq {t : Tree} (h : IsExpression ts t) {m : Memory}
    (hroom : t.room mode m ≤ depth) :
    Grammar.evaluateWithin mode depth ts.length ts m = t.value mode m := by
  have hall : IsExpression (ts.take ts.length) t := List.take_length.symm ▸ h
  rcases hall.evaluateWithin (Nat.le_refl _) mode depth m with hvalue | ⟨hdeep, -⟩
  · exact hvalue
  · exact absurd hroom hdeep

theorem IsExpression.evaluate_eq {t : Tree} (h : IsExpression ts t) {m : Memory}
    (hroom : t.room mode m ≤ nestingLimit) : evaluate mode ts.length ts m = t.value mode m :=
  h.evaluateWithin_eq hroom

/-- Evaluation follows the grammar: of the first `n` tokens there is one tree at most; they have a value
only if they have a tree, and the value is the tree's; and if they have one, evaluating them fails
only as the value of the tree does, or for nesting deeper than there is room for. -/
theorem evaluate_derives (mode : Mode) (ts : List Token) (n : Nat) (hn : n ≤ ts.length) :
    (∀ t t', IsExpression (ts.take n) t → IsExpression (ts.take n) t' → t = t') ∧
    (∀ m v m', evaluate mode n ts m = (.ok v, m') →
      ∃ t, IsExpression (ts.take n) t ∧ t.value mode m = (.ok v, m')) ∧
    (∀ t, IsExpression (ts.take n) t → ∀ m,
      (∀ cause, (evaluate mode n ts m).1 ≠ .error (.grammar cause)) ∧
      (t.room mode m ≤ nestingLimit → evaluate mode n ts m = t.value mode m)) ∧
    ((¬ ∃ t, IsExpression (ts.take n) t) → ∀ m v, (evaluate mode n ts m).1 ≠ .ok v) := by
  refine ⟨fun t t' h h' => ?_, fun m v m' h => ?_, fun t h m => ?_, fun hnone m v hv => ?_⟩
  · exact (h.unique h' (Nat.le_refl 0) (Nat.le_refl 0)).1
  · obtain ⟨t, ht, hvt, -⟩ := evaluateWithin_sound h
    exact ⟨t, ht, hvt⟩
  · rcases h.evaluateWithin hn mode nestingLimit m with
      hvalue | ⟨hroom, hnesting⟩
    · refine ⟨fun cause hcause => ?_, fun _ => hvalue⟩
      rcases t.value_failsInValue mode m _ ((congrArg Prod.fst hvalue).symm.trans hcause) with
        ⟨_, h⟩ | ⟨_, h⟩ <;> cases h
    · refine ⟨fun cause hcause => ?_, fun h => absurd h hroom⟩
      cases hnesting.symm.trans hcause
  · obtain ⟨t, ht, -⟩ := evaluateWithin_sound (Prod.ext hv rfl)
    exact hnone ⟨t, ht⟩

/-- A sign too many after 2 × (3 + 1, which counts as far as the 1. -/
theorem evaluate_derives_unclosed :
    let two : Literal := ⟨"2", false, ""⟩
    let three : Literal := ⟨"3", false, ""⟩
    let one : Literal := ⟨"1", false, ""⟩
    let ts : List Token := [.literal two, .operator .opening, .literal three,
      .operator (.binary .plus), .literal one, .operator (.binary .power)]
    let mode : Mode := ⟨false, 10000, Elementary.kernel⟩
    5 ≤ ts.length ∧ evaluate mode 5 ts Memory.empty = (.ok (.ofRat 8), Memory.empty) := by
  intro two three one ts mode
  have hn : 5 ≤ ts.length := by decide
  have hone : Derives (.rule .term) [.literal one] (.number one) [] :=
    .term (.signedFactor (.factor (.suffix .number .suffixesDone))) .productsDone
  have hsum : Derives (.rule .expr) [.literal three, .operator (.binary .plus), .literal one]
      (.sum (.number three) (.number one)) [] :=
    .expr (.term (.signedFactor (.factor (.suffix .number .suffixesDone))) .productsDone)
      (.plus hone .sumsDone)
  have hproduct : IsExpression (ts.take 5)
      (.product false (.number two) (.group false (.sum (.number three) (.number one)))) :=
    .expr (.term (.signedFactor (.factor (.suffix .number .suffixesDone)))
      (.beside (.factor (.suffix (.group hsum .ending) .suffixesDone)) .productsDone)) .sumsDone
  have hvalue := ((evaluate_derives mode ts 5 hn).2.2.1 _ hproduct Memory.empty).2 (by decide)
  exact ⟨hn, hvalue.trans (by cbv)⟩

end Reckoner.Grammar
