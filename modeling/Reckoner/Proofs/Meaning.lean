import Mathlib.Analysis.SpecialFunctions.Pow.Real
import Reckoner.Proofs.Agreement
import Reckoner.Proofs.ExactFunctions
import Reckoner.Proofs.Settled
/-!
What an expression means: the real number that its tree stands for (`Tree.meaning`), which knows nothing
of exact values, formulas and size bounds. A value that the tree is found to have is that number, both
exactly and by its formula, so long as every formula on the way is defined (`Tree.means`). Where an exact
value grows too large to be kept, the formula takes its place, and nothing changes.
-/
namespace Reckoner

open Reals

/-- The constant. -/
noncomputable def Constant.value : Constant → ℝ
  | .pi => Real.pi
  | .e => Real.exp 1

/-- The operator on real numbers. The factorial is that of the nearest integer. -/
noncomputable def SuffixOperator.value (op : SuffixOperator) (x : ℝ) : ℝ :=
  match op with
  | .factorial => (round x).toNat.factorial
  | .square => x * x
  | .percent => x * 100⁻¹

namespace Dual

variable {names : ℕ → Term} {x y v : Dual} {a b z : ℝ} {limit : ℤ}

/-- Both halves of a number are the real number `z`. -/
structure Means (names : ℕ → Term) (x : Dual) (z : ℝ) : Prop where
  value : x.real.value = z
  exact : ∀ q, x.exact = some q → (q : ℝ) = z
  consistent : x.real.Consistent names

theorem means_ofRat (names : ℕ → Term) (q : ℚ) : (ofRat q).Means names q := by
  refine ⟨rfl, ?_, trivial⟩
  rintro q' ⟨⟩
  rfl

theorem means_unknown {t : Term} (hvalue : t.value = z) (hconsistent : t.Consistent names) :
    Means names ⟨t, none⟩ z := by
  refine ⟨hvalue, ?_, hconsistent⟩
  rintro q ⟨⟩

theorem means_orReal {exact : Option ℚ} {t : Term} (hexact : ∀ q, exact = some q → (q : ℝ) = z)
    (hvalue : t.value = z) (hconsistent : t.Consistent names) : (orReal exact t).Means names z := by
  cases exact with
  | none => exact means_unknown hvalue hconsistent
  | some q => exact hexact q rfl ▸ means_ofRat names q

namespace Means

theorem neg (hx : x.Means names a) : x.neg.Means names (-a) := by
  refine ⟨?_, ?_, hx.consistent⟩
  · show -x.real.value = -a
    rw [hx.value]
  · intro q hq
    obtain ⟨q', hq', rfl⟩ := Option.map_eq_some_iff.1 hq
    rw [Rat.cast_neg, hx.exact q' hq']

section

variable (hx : x.Means names a) (hy : y.Means names b)

include hx hy

theorem add : (x.add limit y).Means names (a + b) := by
  apply means_orReal
  · intro q hq
    obtain ⟨q₁, q₂, h₁, h₂, rfl⟩ := Exact.add_eq_some hq
    rw [Rat.cast_add, hx.exact q₁ h₁, hy.exact q₂ h₂]
  · rw [Term.value, hx.value, hy.value]
  · exact ⟨hx.consistent, hy.consistent⟩

theorem sub : (x.sub limit y).Means names (a - b) := by
  apply means_orReal
  · intro q hq
    obtain ⟨q₁, q₂, h₁, h₂, rfl⟩ := Exact.sub_eq_some hq
    rw [Rat.cast_sub, hx.exact q₁ h₁, hy.exact q₂ h₂]
  · rw [Term.value, hx.value, hy.value]
  · exact ⟨hx.consistent, hy.consistent⟩

theorem mul : (x.mul limit y).Means names (a * b) := by
  apply means_orReal
  · intro q hq
    obtain ⟨q₁, q₂, h₁, h₂, rfl⟩ := Exact.mul_eq_some hq
    rw [Rat.cast_mul, hx.exact q₁ h₁, hy.exact q₂ h₂]
  · rw [Term.value, hx.value, hy.value]
  · exact ⟨hx.consistent, hy.consistent⟩

theorem div (h : x.div limit y = .ok v) : v.Means names (a / b) := by
  obtain ⟨exact, hexact, h⟩ := bind_eq_ok_iff.1 h
  cases h
  apply means_orReal
  · rintro q rfl
    obtain ⟨q₁, q₂, h₁, h₂, rfl⟩ := Exact.div_eq_some hexact
    rw [Rat.cast_div, hx.exact q₁ h₁, hy.exact q₂ h₂]
  · rw [Term.div, Term.value, Term.value, hx.value, hy.value, div_eq_mul_inv]
  · exact ⟨hx.consistent, hy.consistent⟩

/-- A power of an integer exponent is a repeated product, of any other one an exponential. -/
theorem raise (h : x.raise limit y = .ok v) (hdefined : v.real.IsDefined) :
    v.Means names (a ^ b) := by
  obtain ⟨exact, hexact, h⟩ := bind_eq_ok_iff.1 h
  have hinteger : ∀ n, Exact.toInt? y.exact = some n → a ^ b = a ^ n := by
    intro n hn
    cases hq : y.exact with
    | none =>
      rw [hq] at hn
      cases hn
    | some q =>
      rw [hq] at hn
      have hb := hy.exact q hq
      rw [Exact.eq_of_toInt? hn, Rat.cast_intCast] at hb
      rw [← hb, Real.rpow_intCast]
  cases exact with
  | some q =>
    cases h
    obtain ⟨p, n, hp, hn, rfl⟩ := Exact.pow_eq_some (mapError_eq_ok_iff.1 hexact)
    rw [hinteger n hn, ← hx.exact p hp, ← Rat.cast_zpow]
    exact means_ofRat names _
  | none =>
    dsimp only at h
    cases hn : Exact.toInt? y.exact with
    | some n =>
      rw [hn] at h
      cases h
      rw [hinteger n hn]
      by_cases hone : n = 1
      · rw [Term.intPower, if_pos hone, hone, zpow_one]
        exact means_unknown hx.value hx.consistent
      · rw [Term.intPower, if_neg hone]
        apply means_unknown
        · rw [Term.value, hx.value]
        · exact hx.consistent
    | none =>
      rw [hn] at h
      cases h
      have hpos : 0 < x.real.value := hdefined.1.2
      rw [hx.value] at hpos
      apply means_unknown
      · rw [Term.value, Term.value, Term.value, hx.value, hy.value, Real.rpow_def_of_pos hpos]
      · exact ⟨hx.consistent, hy.consistent⟩

end

theorem sqrt (hx : x.Means names a) (h : x.sqrt = .ok v) : v.Means names √a := by
  obtain ⟨exact, hexact, h⟩ := bind_eq_ok_iff.1 h
  cases h
  apply means_orReal
  · rintro q rfl
    cases hq : x.exact with
    | none =>
      rw [hq] at hexact
      cases hexact
    | some q' =>
      rw [hq] at hexact
      rw [Exact.sqrt_eq_some hexact, hx.exact q' hq]
  · rw [Term.value, hx.value]
  · exact hx.consistent

theorem square (hx : x.Means names a) : (x.square limit).Means names (a * a) := by
  apply means_orReal
  · intro q hq
    obtain ⟨q₁, q₂, h₁, h₂, rfl⟩ := Exact.mul_eq_some hq
    rw [Rat.cast_mul, hx.exact q₁ h₁, hx.exact q₂ h₂]
  · rw [Term.value, hx.value]
  · exact hx.consistent

theorem percent (hx : x.Means names a) : (x.percent limit).Means names (a * 100⁻¹) := by
  apply means_orReal
  · intro q hq
    obtain ⟨q₁, q₂, h₁, h₂, rfl⟩ := Exact.mul_eq_some hq
    rw [Rat.cast_mul, hx.exact q₁ h₁, ← Option.some.inj h₂]
    norm_num
  · rw [hundredth, Term.value, Term.value, Term.value, Term.value, hx.value]
    norm_num
  · exact ⟨hx.consistent, rfl, trivial⟩

end Means

theorem value_applyReal (degrees : Bool) (f : FunctionName) (t : Term) :
    (applyReal degrees f t).value = f.value degrees t.value := by
  cases f <;> cases degrees <;>
    simp [applyReal, toRadians, fromRadians, radiansPerDegree, degreesPerRadian, lnTen, Term.div,
      Term.value, FunctionName.value, radians, ofRadians, div_eq_mul_inv]

theorem consistent_applyReal (degrees : Bool) (f : FunctionName) {t : Term}
    (ht : t.Consistent names) : (applyReal degrees f t).Consistent names := by
  cases f <;> cases degrees <;>
    simp [applyReal, toRadians, fromRadians, radiansPerDegree, degreesPerRadian, lnTen, Term.div,
      Term.Consistent, Identity.term, ht]

theorem Means.apply {degrees : Bool} {f : FunctionName} (hx : x.Means names a)
    (h : x.apply degrees f = .ok v) : v.Means names (f.value degrees a) := by
  obtain ⟨exact, hexact, h⟩ := bind_eq_ok_iff.1 h
  cases h
  apply means_orReal
  · rintro r rfl
    obtain ⟨q, hq, hr⟩ := Exact.apply_eq_some hexact
    rw [hr, hx.exact q hq]
  · rw [value_applyReal, hx.value]
  · exact consistent_applyReal degrees f hx.consistent

/-- The integer whose factorial is taken is the same, whether it is known or found. -/
theorem Means.factorial {kernel : Kernel} {m m' : Memory} (hk : kernel.Accurate) (hm : m.Sound names)
    (hx : x.Means names a) (hdefined : x.real.IsDefined) (h : x.factorial kernel m = (.ok v, m')) :
    v.Means names (round a).toNat.factorial := by
  have hinteger : ∀ q : ℚ, round (q : ℝ) = round a →
      (orReal · x.real) <$> Exact.factorial (some q) = .ok v →
      v.Means names (round a).toNat.factorial := by
    intro q hq h
    rw [map_eq_pure_bind] at h
    obtain ⟨exact, hexact, h⟩ := bind_eq_ok_iff.1 h
    obtain ⟨n, rfl, rfl⟩ := Exact.factorial_eq_some hexact
    cases h
    rw [Rat.cast_natCast, round_natCast] at hq
    rw [← hq, Int.toNat_natCast, ← Rat.cast_natCast n.factorial]
    exact means_ofRat names _
  cases hexact : x.exact with
  | some q =>
    rw [factorial_of_exact hexact] at h
    exact hinteger q (by rw [hx.exact q hexact]) (congrArg Prod.fst h)
  | none =>
    rcases hask : (x.real.ask fun g node => integer? kernel g node integerTest) m with
      ⟨e | _ | n, m₁⟩
    · rw [factorial_of_ask_error hexact hask] at h
      cases h
    · rw [factorial_of_ask hexact hask] at h
      cases h
    · rw [factorial_of_ask hexact hask] at h
      have hn := Term.eq_round_of_ask hk hm hx.consistent hdefined (by decide) hask
      rw [hx.value] at hn
      exact hinteger n (by rw [Rat.cast_intCast, round_intCast, hn]) (congrArg Prod.fst h)

end Dual

namespace Grammar

variable {names : ℕ → Term} {mode : Mode} {s t : Tree} {v : Dual} {m m' : Memory}

/-- The real number that a tree stands for. -/
noncomputable def Tree.meaning (degrees : Bool) : Tree → ℝ
  | .number l => l.number
  | .collapsed x => x.real.value
  | .constant c => c.value
  | .root negative t => √(if negative then -t.meaning degrees else t.meaning degrees)
  | .group _ t => t.meaning degrees
  | .call f _ t => f.value degrees (t.meaning degrees)
  | .suffix op t => op.value (t.meaning degrees)
  | .power s t => s.meaning degrees ^ t.meaning degrees
  | .opposite t => -t.meaning degrees
  | .product _ s t => s.meaning degrees * t.meaning degrees
  | .quotient s t => s.meaning degrees / t.meaning degrees
  | .sum s t => s.meaning degrees + t.meaning degrees
  | .difference s t => s.meaning degrees - t.meaning degrees

/-- The tree and the trees inside it, each with the memory that its value is found with. -/
def Tree.phrases (mode : Mode) : Tree → Memory → List (Tree × Memory)
  | .number l, m => [(.number l, m)]
  | .collapsed x, m => [(.collapsed x, m)]
  | .constant c, m => [(.constant c, m)]
  | .root negative t, m => (.root negative t, m) :: t.phrases mode m
  | .group closed t, m => (.group closed t, m) :: t.phrases mode m
  | .call f closed t, m => (.call f closed t, m) :: t.phrases mode m
  | .suffix op t, m => (.suffix op t, m) :: t.phrases mode m
  | .power s t, m => (.power s t, m) :: (s.phrases mode m ++ t.phrases mode (s.after mode m))
  | .opposite t, m => (.opposite t, m) :: t.phrases mode m
  | .product signed s t, m =>
    (.product signed s t, m) :: (s.phrases mode m ++ t.phrases mode (s.after mode m))
  | .quotient s t, m => (.quotient s t, m) :: (s.phrases mode m ++ t.phrases mode (s.after mode m))
  | .sum s t, m => (.sum s t, m) :: (s.phrases mode m ++ t.phrases mode (s.after mode m))
  | .difference s t, m =>
    (.difference s t, m) :: (s.phrases mode m ++ t.phrases mode (s.after mode m))

theorem Tree.mem_phrases (mode : Mode) (t : Tree) (m : Memory) : (t, m) ∈ t.phrases mode m := by
  cases t <;> exact List.mem_cons_self

/-- Whether every number that is made on the way to the value of a tree has a mathematical value. -/
def Tree.DefinedThroughout (mode : Mode) (t : Tree) (m : Memory) : Prop :=
  ∀ s ∈ t.phrases mode m, ∀ v, (s.1.value mode s.2).1 = .ok v → v.real.IsDefined

/-- Whether the leaves of a tree are well-formed numbers and constants. -/
def Tree.IsPlain : Tree → Prop
  | .number l => l.WellFormed
  | .collapsed _ => False
  | .constant _ => True
  | .root _ t | .group _ t | .call _ _ t | .suffix _ t | .opposite t => t.IsPlain
  | .power s t | .product _ s t | .quotient s t | .sum s t | .difference s t =>
    s.IsPlain ∧ t.IsPlain

theorem eq_ofRat_of_literalValue {l : Literal} (hl : l.Numeric) (h : literalValue l = .ok v) :
    v = .ofRat l.number := by
  obtain ⟨t, ht, h⟩ := bind_eq_ok_iff.1 h
  obtain ⟨q, hq, h⟩ := bind_eq_ok_iff.1 h
  cases h
  rw [Literal.real_eq hl] at ht
  rw [Literal.exact_eq hl] at hq
  split_ifs at ht hq
  cases ht
  cases hq
  rfl

/-- Whether a value that the tree is found to have is the number that it stands for, and leaves the memory
sound. -/
def Tree.FindsMeaning (names : ℕ → Term) (mode : Mode) (t : Tree) : Prop :=
  ∀ ⦃m m' v⦄, m.Sound names → t.DefinedThroughout mode m → t.value mode m = (.ok v, m') →
    v.Means names (t.meaning mode.degrees) ∧ m'.Sound names

/-- An operation between two operands finds its meaning if its results are what the operation is in
mathematics, where they are defined. -/
theorem Tree.FindsMeaning.binary {u : Tree} {f : Dual → Dual → Except Failure Dual}
    (hs : s.FindsMeaning names mode) (ht : t.FindsMeaning names mode)
    (hvalue : u.value mode = (do .ofExcept (f (← s.value mode) (← t.value mode))))
    (hphrases : ∀ m, u.phrases mode m =
      (u, m) :: (s.phrases mode m ++ t.phrases mode (s.after mode m)))
    (hf : ∀ x y v, x.Means names (s.meaning mode.degrees) → y.Means names (t.meaning mode.degrees) →
      f x y = .ok v → v.real.IsDefined → v.Means names (u.meaning mode.degrees)) :
    u.FindsMeaning names mode := by
  intro m m' v hm h hv
  rw [DefinedThroughout, hphrases] at h
  obtain ⟨hhere, hinside⟩ := List.forall_mem_cons.1 h
  obtain ⟨hsinside, htinside⟩ := List.forall_mem_append.1 hinside
  have hdefined := hhere v (congrArg Prod.fst hv)
  rw [hvalue] at hv
  obtain ⟨x, m₁, hx, hv⟩ := run_bind_eq_ok_iff.1 hv
  obtain ⟨y, m₂, hy, hv⟩ := run_bind_eq_ok_iff.1 hv
  obtain ⟨hxy, rfl⟩ := Recall.ofExcept_eq_ok_iff.1 hv
  rw [show s.after mode m = m₁ from congrArg Prod.snd hx] at htinside
  obtain ⟨hxmeans, hsound⟩ := hs hm hsinside hx
  obtain ⟨hymeans, hsound⟩ := ht hsound htinside hy
  exact ⟨hf x y v hxmeans hymeans hxy hdefined, hsound⟩

/-- Every tree finds its meaning, whatever size exact values may have. -/
theorem Tree.means (hk : mode.kernel.Accurate) (hplain : t.IsPlain) : t.FindsMeaning names mode := by
  induction t with
  | number l =>
    intro m m' v hm h hv
    obtain ⟨hl, rfl⟩ := Recall.ofExcept_eq_ok_iff.1 hv
    rw [eq_ofRat_of_literalValue (Literal.WellFormed.numeric hplain) (mapError_eq_ok_iff.1 hl)]
    exact ⟨Dual.means_ofRat names _, hm⟩
  | collapsed x => exact hplain.elim
  | constant c =>
    intro m m' v hm h hv
    cases c <;>
    · cases hv
      exact ⟨Dual.means_unknown rfl trivial, hm⟩
  | group closed t ih => exact fun m m' v hm h hv => ih hplain hm (List.forall_mem_cons.1 h).2 hv
  | root negative t ih =>
    intro m m' v hm h hv
    obtain ⟨x, m₁, hx, hv⟩ := run_bind_eq_ok_iff.1 hv
    obtain ⟨hroot, rfl⟩ := Recall.ofExcept_eq_ok_iff.1 hv
    obtain ⟨hmeans, hsound⟩ := ih hplain hm (List.forall_mem_cons.1 h).2 hx
    refine ⟨?_, hsound⟩
    cases negative with
    | true => exact hmeans.neg.sqrt (mapError_eq_ok_iff.1 hroot)
    | false => exact hmeans.sqrt (mapError_eq_ok_iff.1 hroot)
  | call f closed t ih =>
    intro m m' v hm h hv
    obtain ⟨x, m₁, hx, hv⟩ := run_bind_eq_ok_iff.1 hv
    obtain ⟨hcall, rfl⟩ := Recall.ofExcept_eq_ok_iff.1 hv
    obtain ⟨hmeans, hsound⟩ := ih hplain hm (List.forall_mem_cons.1 h).2 hx
    exact ⟨hmeans.apply (mapError_eq_ok_iff.1 hcall), hsound⟩
  | suffix op t ih =>
    intro m m' v hm h hv
    have hinside := (List.forall_mem_cons.1 h).2
    obtain ⟨x, m₁, hx, hv⟩ := run_bind_eq_ok_iff.1 hv
    obtain ⟨hmeans, hsound⟩ := ih hplain hm hinside hx
    cases op with
    | factorial =>
      have hfactorial : x.factorial mode.kernel m₁ = (.ok v, m') := Recall.mapError_eq_ok_iff.1 hv
      have hdefined := hinside _ (t.mem_phrases mode m) x (congrArg Prod.fst hx)
      have hleft := Dual.factorial_sound hk hsound hmeans.consistent
      rw [hfactorial] at hleft
      exact ⟨hmeans.factorial hk hsound hdefined hfactorial, hleft⟩
    | square =>
      cases hv
      exact ⟨hmeans.square, hsound⟩
    | percent =>
      cases hv
      exact ⟨hmeans.percent, hsound⟩
  | opposite t ih =>
    intro m m' v hm h hv
    obtain ⟨x, m₁, hx, hv⟩ := run_bind_eq_ok_iff.1 hv
    cases hv
    obtain ⟨hmeans, hsound⟩ := ih hplain hm (List.forall_mem_cons.1 h).2 hx
    exact ⟨hmeans.neg, hsound⟩
  | power s t ihs iht =>
    exact (ihs hplain.1).binary (iht hplain.2) (f := fun x y => x.raise mode.limit y) rfl
      (fun _ => rfl) fun x y v hx hy hv hdefined => hx.raise hy hv hdefined
  | product signed s t ihs iht =>
    refine (ihs hplain.1).binary (iht hplain.2) (f := fun x y => .ok (x.mul mode.limit y)) rfl
      (fun _ => rfl) fun x y v hx hy hv _ => ?_
    cases hv
    exact hx.mul hy
  | quotient s t ihs iht =>
    exact (ihs hplain.1).binary (iht hplain.2)
      (f := fun x y => (x.div mode.limit y).mapError .arithmetic) rfl (fun _ => rfl)
      fun x y v hx hy hv _ => hx.div hy (mapError_eq_ok_iff.1 hv)
  | sum s t ihs iht =>
    refine (ihs hplain.1).binary (iht hplain.2) (f := fun x y => .ok (x.add mode.limit y)) rfl
      (fun _ => rfl) fun x y v hx hy hv _ => ?_
    cases hv
    exact hx.add hy
  | difference s t ihs iht =>
    refine (ihs hplain.1).binary (iht hplain.2) (f := fun x y => .ok (x.sub mode.limit y)) rfl
      (fun _ => rfl) fun x y v hx hy hv _ => ?_
    cases hv
    exact hx.sub hy

end Grammar

/-- Whether a token is an operator or a well-formed number. -/
def Token.IsPlain : Token → Prop
  | .literal l => l.WellFormed
  | .operator _ => True
  | .collapsed .. => False

namespace Grammar

variable {p : Part} {ts rest : List Token}

/-- What has been read of a part is plain. -/
def Part.IsPlain : Part → Prop
  | .rule _ => True
  | .suffixes x | .products x | .sums x => x.IsPlain

/-- Plain tokens make up plain trees. -/
theorem Derives.isPlain (h : Derives p ts t rest) (hts : ∀ a ∈ ts, a.IsPlain) (hp : p.IsPlain) :
    t.IsPlain := by
  induction h with
  | number => exact hts _ List.mem_cons_self
  | collapsed => exact (hts _ List.mem_cons_self).elim
  | constant => trivial
  | root h ih | group h hc ih | call h hc ih | opposite h ih =>
    exact ih (fun a ha => hts a (List.mem_cons_of_mem _ ha)) trivial
  | rootMinus h ih =>
    exact ih (fun a ha => hts a (List.mem_cons_of_mem _ (List.mem_cons_of_mem _ ha))) trivial
  | suffix h h' ih ih' | term h h' ih ih' | expr h h' ih ih' =>
    exact ih' (fun a ha => hts a (h.isSuffix.mem ha)) (ih hts trivial)
  | suffixesDone | productsDone | sumsDone => exact hp
  | suffixesMore h ih => exact ih (fun a ha => hts a (List.mem_cons_of_mem _ ha)) hp
  | factor h ih | signedFactor h ih => exact ih hts trivial
  | power h h' ih ih' =>
    exact ⟨ih hts trivial,
      ih' (fun a ha => hts a (h.isSuffix.mem (List.mem_cons_of_mem _ ha))) trivial⟩
  | times h h' ih ih' | dividedBy h h' ih ih' | plus h h' ih ih' | minus h h' ih ih' =>
    have hy := ih (fun a ha => hts a (List.mem_cons_of_mem _ ha)) trivial
    exact ih' (fun a ha => hts a (List.mem_cons_of_mem _ (h.isSuffix.mem ha))) ⟨hp, hy⟩
  | beside h h' ih ih' =>
    exact ih' (fun a ha => hts a (h.isSuffix.mem ha)) ⟨hp, ih hts trivial⟩

/-- An evaluation of plain tokens finds the number that they stand for. -/
theorem evaluate_means {mode : Mode} {names : ℕ → Term} {m m' : Memory} (hk : mode.kernel.Accurate)
    (hm : m.Sound names) (hts : ∀ a ∈ ts, a.IsPlain) {span : ℤ} {v : Dual}
    (hv : evaluate mode span ts m = (.ok v, m'))
    (hdefined : ∀ t, IsExpression (range span ts) t → t.DefinedThroughout mode m) :
    ∃ t, IsExpression (range span ts) t ∧ v.Means names (t.meaning mode.degrees) := by
  obtain ⟨t, ht, hvt, -⟩ := evaluateWithin_sound hv
  have hplain : t.IsPlain := ht.isPlain (fun a ha => hts a (List.mem_of_mem_take ha)) trivial
  exact ⟨t, ht, (t.means hk hplain hm (hdefined t ht) hvt).1⟩

/-- Two evaluations of one list of plain tokens, in one context and with any sound memories, have one
value, however large exact values may grow in each; and where both have an exact value, it is the
same. -/
theorem evaluate_eq_of_limits {kernel : Kernel} (hk : kernel.Accurate) (hts : ∀ a ∈ ts, a.IsPlain)
    {names names' : ℕ → Term} {m m' m₁ m₁' : Memory} (hm : m.Sound names) (hm' : m'.Sound names')
    {degrees : Bool} {span limit limit' : ℤ} {v v' : Dual}
    (hv : evaluate ⟨degrees, limit, kernel⟩ span ts m = (.ok v, m₁))
    (hv' : evaluate ⟨degrees, limit', kernel⟩ span ts m' = (.ok v', m₁'))
    (hd : ∀ t, IsExpression (range span ts) t → t.DefinedThroughout ⟨degrees, limit, kernel⟩ m)
    (hd' : ∀ t, IsExpression (range span ts) t →
      t.DefinedThroughout ⟨degrees, limit', kernel⟩ m') :
    v.real.value = v'.real.value ∧
      ∀ q q', v.exact = some q → v'.exact = some q' → q = q' := by
  obtain ⟨t, ht, hmeans⟩ := evaluate_means hk hm hts hv hd
  obtain ⟨t', ht', hmeans'⟩ := evaluate_means hk hm' hts hv' hd'
  obtain rfl := (ht.unique ht' (Nat.le_refl 0) (Nat.le_refl 0)).1
  constructor
  · exact hmeans.value.trans hmeans'.value.symm
  · intro q q' hq hq'
    have hcast : (q : ℝ) = q' := (hmeans.exact q hq).trans (hmeans'.exact q' hq').symm
    exact_mod_cast hcast

/-- The sine of 60 ÷ 2 degrees, where the quotient is kept and where it is not. -/
theorem evaluate_eq_of_limits_sine :
    let ts : List Token := [.operator (.function .sin), .literal ⟨"60", false, ""⟩,
      .operator (.binary .over), .literal ⟨"2", false, ""⟩]
    let sine : Term := Dual.applyReal true .sin (.div (.rational 60) (.rational 2))
    let mode : ℤ → Mode := fun limit => ⟨true, limit, Kernel.ideal⟩
    Kernel.ideal.Accurate ∧ (∀ a ∈ ts, a.IsPlain) ∧ Memory.empty.Sound (fun _ => .pi) ∧
      evaluate (mode 10000) 4 ts Memory.empty = (.ok (.ofRat (1 / 2)), Memory.empty) ∧
      evaluate (mode 0) 4 ts Memory.empty = (.ok ⟨sine, none⟩, Memory.empty) ∧
      (∀ t, IsExpression (range 4 ts) t → t.DefinedThroughout (mode 10000) Memory.empty ∧
        t.DefinedThroughout (mode 0) Memory.empty) ∧
      (Dual.ofRat (1 / 2)).real.value = sine.value := by
  intro ts sine mode
  have hts : ∀ a ∈ ts, a.IsPlain := by
    intro a ha
    simp only [ts, List.mem_cons, List.not_mem_nil, or_false] at ha
    rcases ha with rfl | rfl | rfl | rfl
    · trivial
    · exact ⟨by simp, by simp, fun _ => rfl⟩
    · trivial
    · exact ⟨by simp, by simp, fun _ => rfl⟩
  have hkept : evaluate (mode 10000) 4 ts Memory.empty = (.ok (.ofRat (1 / 2)), Memory.empty) := by
    cbv
  have hdropped : evaluate (mode 0) 4 ts Memory.empty = (.ok ⟨sine, none⟩, Memory.empty) := by cbv
  let quotient : Tree := .quotient (.number ⟨"60", false, ""⟩) (.number ⟨"2", false, ""⟩)
  have htree : IsExpression (range 4 ts) (.call .sin false quotient) :=
    .expr (.term (.signedFactor (.factor (.suffix (.call (.expr
      (.term (.signedFactor (.factor (.suffix .number .suffixesDone)))
        (.dividedBy (.signedFactor (.factor (.suffix .number .suffixesDone))) .productsDone))
      .sumsDone) .ending) .suffixesDone))) .productsDone) .sumsDone
  have hquotient : (Term.div (.rational 60) (.rational 2)).IsDefined := by
    simp [Term.div, Term.IsDefined, Term.value]
  have hsine : sine.IsDefined := by
    refine ⟨hquotient, trivial, trivial, ?_⟩
    simp [Term.value]
  have hdefined : ∀ t, IsExpression (range 4 ts) t → t.DefinedThroughout (mode 10000) Memory.empty ∧
      t.DefinedThroughout (mode 0) Memory.empty := by
    intro t ht
    obtain rfl := (ht.unique htree (Nat.le_refl 0) (Nat.le_refl 0)).1
    have hafter : ∀ limit, (Tree.number ⟨"60", false, ""⟩).after (mode limit) Memory.empty =
        Memory.empty := fun limit => by cbv
    constructor <;> intro s hs v hv <;>
      simp only [quotient, Tree.phrases, hafter, List.cons_append, List.nil_append, List.mem_cons,
        List.not_mem_nil, or_false] at hs
    · -- an exact value has a formula that is defined
      rcases hs with rfl | rfl | rfl | rfl
      · obtain rfl : Dual.ofRat (1 / 2) = v := Except.ok.inj ((by cbv : _ = _).trans hv)
        trivial
      · obtain rfl : Dual.ofRat 30 = v := Except.ok.inj ((by cbv : _ = _).trans hv)
        trivial
      · obtain rfl : Dual.ofRat 60 = v := Except.ok.inj ((by cbv : _ = _).trans hv)
        trivial
      · obtain rfl : Dual.ofRat 2 = v := Except.ok.inj ((by cbv : _ = _).trans hv)
        trivial
    · rcases hs with rfl | rfl | rfl | rfl
      · obtain rfl : ⟨sine, none⟩ = v := Except.ok.inj ((by cbv : _ = _).trans hv)
        exact hsine
      · obtain rfl : ⟨.div (.rational 60) (.rational 2), none⟩ = v :=
          Except.ok.inj ((by cbv : _ = _).trans hv)
        exact hquotient
      · obtain rfl : Dual.ofRat 60 = v := Except.ok.inj ((by cbv : _ = _).trans hv)
        trivial
      · obtain rfl : Dual.ofRat 2 = v := Except.ok.inj ((by cbv : _ = _).trans hv)
        trivial
  have hempty := Memory.sound_empty fun _ => .pi
  refine ⟨Kernel.ideal_accurate, hts, hempty, hkept, hdropped, hdefined, ?_⟩
  exact (evaluate_eq_of_limits Kernel.ideal_accurate hts hempty hempty hkept hdropped
    (fun t ht => (hdefined t ht).1) fun t ht => (hdefined t ht).2).1

end Grammar

end Reckoner
