import Mathlib.Data.List.MinMax
import Reckoner.Proofs.ExactRoots
import Reckoner.Proofs.ExactSize
import Reckoner.Proofs.Leaves
import Reckoner.Proofs.Parsing
/-!
Exact values stay small. An operation on them is held to the bound of its mode, or gives a value from a
table, a factorial of a number that is small enough, or something no larger than its operand. So the
value of a tree is no larger than the largest of these and of its leaves, however many operations it
has (`Tree.fits`, `exact_size_le`).
-/
namespace Reckoner

theorem bitLength_mono {m n : ℕ} (h : m ≤ n) : bitLength m ≤ bitLength n :=
  bitLength_le_of_lt (h.trans_lt (lt_two_pow_bitLength n))

namespace Exact

variable {limit : ℤ} {a b : Option ℚ} {q r : ℚ}

theorem size_neg (q : ℚ) : size (-q) = size q := by
  rw [size, size, Rat.num_neg_eq_neg_num, Int.natAbs_neg, Rat.den_neg_eq_den]

/-! What is held to the bound. -/

theorem size_le_of_bounded (h : bounded limit q = some r) : (size r : ℤ) ≤ limit := by
  have hr := eq_of_bounded h
  unfold bounded at h
  split at h
  · cases h
  · rename_i hsize
    rw [hr]
    exact not_lt.1 hsize

theorem size_le_of_add (h : add limit a b = some r) : (size r : ℤ) ≤ limit := by
  fun_cases add limit a b with
  | case1 p q => exact size_le_of_bounded h
  | case2 => simp_all [add]

theorem size_le_of_sub (h : sub limit a b = some r) : (size r : ℤ) ≤ limit := by
  fun_cases sub limit a b with
  | case1 p q => exact size_le_of_bounded h
  | case2 => simp_all [sub]

theorem size_le_of_mul (h : mul limit a b = some r) : (size r : ℤ) ≤ limit := by
  fun_cases mul limit a b with
  | case1 p q => exact size_le_of_bounded h
  | case2 => simp_all [mul]

theorem size_le_of_div (h : div limit a b = .ok (some r)) : (size r : ℤ) ≤ limit := by
  obtain ⟨p, q, rfl, rfl, -⟩ := div_eq_some h
  by_cases hzero : q = 0
  · rw [div, if_pos hzero] at h
    cases h
  · rw [div, if_neg hzero] at h
    exact size_le_of_bounded (Except.ok.inj h)

theorem size_le_of_pow (h : pow limit a b = .ok (some r)) : (size r : ℤ) ≤ max limit 2 := by
  obtain ⟨q, n, rfl, hn, rfl⟩ := pow_eq_some h
  obtain ⟨s, rfl⟩ : ∃ s, b = some s := by
    cases b with
    | none => cases hn
    | some s => exact ⟨s, rfl⟩
  rw [eq_of_toInt? hn] at h
  by_cases hknown : IsKnown q n
  · -- a power that is known beforehand is 0, 1 or −1
    have hpower : q ^ n = 0 ∨ q ^ n = 1 ∨ q ^ n = -1 := by
      rcases hknown with rfl | rfl | rfl | rfl
      · rcases eq_or_ne n 0 with rfl | hzero
        · exact .inr (.inl (zpow_zero 0))
        · exact .inl (zero_zpow n hzero)
      · exact .inr (.inl (one_zpow n))
      · exact .inr (Int.even_or_odd n |>.imp Even.neg_one_zpow Odd.neg_one_zpow)
      · exact .inr (.inl (zpow_zero q))
    have hsize : size (q ^ n) ≤ 2 := by
      rcases hpower with h | h | h <;> rw [h] <;> decide
    exact le_max_of_le_right (by exact_mod_cast hsize)
  · rcases pow_of_not_isKnown limit hknown with ⟨-, hsize⟩ | ⟨hnone, -⟩
    · exact le_max_of_le_left hsize
    · cases hnone.symm.trans h

/-! What is no larger than its operand, or than something that does not depend on it. -/

theorem size_natCast (n : ℕ) : size n = bitLength n + 1 := by
  rw [size, Rat.num_natCast, Int.natAbs_natCast, Rat.den_natCast]
  rfl

theorem size_factorial_mono {m n : ℕ} (h : m ≤ n) : size (m.factorial : ℕ) ≤ size (n.factorial : ℕ) := by
  rw [size_natCast, size_natCast]
  exact Nat.add_le_add_right (bitLength_mono (Nat.factorial_le h)) 1

theorem size_le_of_factorial (h : factorial (some q) = .ok (some r)) :
    size r ≤ size (Nat.factorial 5000) := by
  unfold factorial at h
  dsimp only at h
  split at h
  · cases h
  · rename_i n hn
    split_ifs at h with hneg hlarge
    cases h
    have hle : n.toNat ≤ 5000 := by
      unfold factorialLimit at hlarge
      omega
    rw [natFactorial_eq]
    exact size_factorial_mono hle

theorem size_le_of_sqrt (h : sqrt (some q) = .ok (some r)) : size r ≤ size q := by
  have hq : 0 ≤ q := by
    by_contra hneg
    rw [sqrt, if_pos (not_le.1 hneg)] at h
    cases h
  obtain ⟨-, rfl⟩ := mul_self_of_sqrt hq h
  rw [← sq, size_pow, size]
  exact Nat.add_le_add (bitLength_mono (Nat.le_self_pow two_ne_zero _))
    (bitLength_mono (Nat.le_self_pow two_ne_zero _))

/-- A power of ten is longer than its exponent. -/
theorem size_le_of_log (h : log (some q) = .ok (some r)) : size r ≤ size q := by
  obtain ⟨k, rfl, rfl⟩ := exists_zpow_of_log h
  have hshort : k.natAbs ≤ 10 ^ k.natAbs := (Nat.lt_pow_self (by decide)).le
  rw [size_zpow, size, Rat.num_intCast, Rat.den_intCast]
  exact Nat.add_le_add (bitLength_mono hshort) (bitLength_mono (Nat.one_le_pow _ _ Nat.one_pos))

/-! What stands in a table. The largest value there is 180. -/

theorem size_le_of_only {x y : ℚ} (hy : size y ≤ 9) (h : only x y a = some r) : size r ≤ 9 := by
  unfold only at h
  split at h
  · cases h
    exact hy
  · cases h

theorem size_le_of_sineOfTwelfth {m : ℕ} (h : sineOfTwelfth m = some r) : size r ≤ 9 := by
  unfold sineOfTwelfth at h
  split at h <;> cases h <;> decide +kernel

theorem size_le_of_sinDegrees (h : sinDegrees a = some r) : size r ≤ 9 := by
  cases a with
  | none => cases h
  | some q =>
    dsimp only [sinDegrees] at h
    split at h
    · exact size_le_of_sineOfTwelfth h
    · cases h

theorem size_le_of_tanDegrees (h : tanDegrees a = .ok (some r)) : size r ≤ 9 := by
  cases a with
  | none => cases h
  | some q =>
    dsimp only [tanDegrees] at h
    split at h
    · cases h
    · split at h <;> cases h <;> decide +kernel

theorem mem_of_arcsinDegrees (h : arcsinDegrees a = .ok (some r)) :
    r ∈ ([-90, -30, 0, 30, 90] : List ℚ) := by
  obtain ⟨-, -, h⟩ := bind_eq_ok_iff.1 h
  obtain ⟨q, -, h⟩ := Option.bind_eq_some_iff.1 (Except.ok.inj h)
  split_ifs at h <;> cases h <;> simp

theorem size_le_of_arcsinDegrees (h : arcsinDegrees a = .ok (some r)) : size r ≤ 9 := by
  have hsizes : ∀ r ∈ ([-90, -30, 0, 30, 90] : List ℚ), size r ≤ 9 := by decide +kernel
  exact hsizes r (mem_of_arcsinDegrees h)

theorem size_le_of_arccosDegrees (h : arccosDegrees a = .ok (some r)) : size r ≤ 9 := by
  obtain ⟨angle, hangle, h⟩ := bind_eq_ok_iff.1 h
  obtain ⟨s, rfl, rfl⟩ := Option.map_eq_some_iff.1 (Except.ok.inj h)
  have hsizes : ∀ s ∈ ([-90, -30, 0, 30, 90] : List ℚ), size (90 - s) ≤ 9 := by decide +kernel
  exact hsizes s (mem_of_arcsinDegrees hangle)

theorem size_le_of_arctanDegrees (h : arctanDegrees a = some r) : size r ≤ 9 := by
  obtain ⟨q, -, h⟩ := Option.bind_eq_some_iff.1 h
  split_ifs at h <;> cases h <;> decide +kernel

theorem size_le_of_ln (h : ln (some q) = .ok (some r)) : size r ≤ 9 := by
  unfold ln at h
  dsimp only at h
  split_ifs at h <;> cases h
  decide

theorem size_le_of_apply_radians {f : FunctionName} (h : apply false f (some q) = .ok (some r)) :
    size r ≤ max (size q) 9 := by
  cases f with
  | log => exact le_max_of_le_left (size_le_of_log h)
  | ln => exact le_max_of_le_right (size_le_of_ln h)
  | exp | sin | cos | tan | arctan =>
    exact le_max_of_le_right (size_le_of_only (by decide) (Except.ok.inj h))
  | arcsin | arccos =>
    obtain ⟨-, -, h⟩ := bind_eq_ok_iff.1 h
    exact le_max_of_le_right (size_le_of_only (by decide) (Except.ok.inj h))

theorem size_le_of_apply_degrees {f : FunctionName} (h : apply true f (some q) = .ok (some r)) :
    size r ≤ max (size q) 9 := by
  cases f with
  | ln => exact size_le_of_apply_radians (f := .ln) h
  | log => exact size_le_of_apply_radians (f := .log) h
  | exp => exact size_le_of_apply_radians (f := .exp) h
  | sin => exact le_max_of_le_right (size_le_of_sinDegrees (a := some q) (Except.ok.inj h))
  | cos => exact le_max_of_le_right (size_le_of_sinDegrees (a := some (q + 90)) (Except.ok.inj h))
  | tan => exact le_max_of_le_right (size_le_of_tanDegrees (a := some q) h)
  | arcsin => exact le_max_of_le_right (size_le_of_arcsinDegrees h)
  | arccos => exact le_max_of_le_right (size_le_of_arccosDegrees h)
  | arctan => exact le_max_of_le_right (size_le_of_arctanDegrees (Except.ok.inj h))

/-- A named function gives a value from a table, or the logarithm of a longer number. -/
theorem size_le_of_apply {degrees : Bool} {f : FunctionName} (h : apply degrees f a = .ok (some r)) :
    ∃ q, a = some q ∧ size r ≤ max (size q) 9 := by
  obtain ⟨q, rfl, -⟩ := apply_eq_some h
  refine ⟨q, rfl, ?_⟩
  cases degrees with
  | true => exact size_le_of_apply_degrees h
  | false => exact size_le_of_apply_radians h

end Exact

/-- A bound on the bits of exact values that every operation keeps to: no less than the bound of the mode,
the bits of the largest factorial and those of the values in tables. -/
structure Grammar.Mode.Allows (mode : Grammar.Mode) (bound : ℤ) : Prop where
  limit : mode.limit ≤ bound
  factorial : (Exact.size (Nat.factorial 5000) : ℤ) ≤ bound
  table : 9 ≤ bound

namespace Dual

/-- Whether the exact value, if it is known, has at most so many bits. -/
def Fits (bound : ℤ) (x : Dual) : Prop := ∀ q, x.exact = some q → (Exact.size q : ℤ) ≤ bound

variable {mode : Grammar.Mode} {bound : ℤ} {x y z : Dual}

theorem fits_orReal {exact : Option ℚ} {t : Reals.Term}
    (h : ∀ q, exact = some q → (Exact.size q : ℤ) ≤ bound) : (orReal exact t).Fits bound := by
  cases exact with
  | none => rintro q ⟨⟩
  | some q =>
    rintro q' ⟨⟩
    exact h q rfl

/-- A result is made from what is known of it exactly. -/
theorem fits_of_orReal {exact : Except ArithmeticError (Option ℚ)} {t : Reals.Term}
    (h : (do return orReal (← exact) t) = .ok y)
    (hexact : ∀ q, exact = .ok (some q) → (Exact.size q : ℤ) ≤ bound) : y.Fits bound := by
  obtain ⟨q, hq, h⟩ := bind_eq_ok_iff.1 h
  cases h
  exact fits_orReal fun r hr => hexact r (by rw [hq, hr])

theorem Fits.neg (h : x.Fits bound) : x.neg.Fits bound := by
  intro q hq
  obtain ⟨q', hq', rfl⟩ := Option.map_eq_some_iff.1 hq
  rw [Exact.size_neg]
  exact h q' hq'

theorem Fits.sqrt (h : x.Fits bound) (hy : x.sqrt = .ok y) : y.Fits bound := by
  refine fits_of_orReal hy fun r hr => ?_
  cases hx : x.exact with
  | none =>
    rw [hx] at hr
    cases hr
  | some q =>
    rw [hx] at hr
    have hle : (Exact.size r : ℤ) ≤ Exact.size q := by exact_mod_cast Exact.size_le_of_sqrt hr
    exact hle.trans (h q hx)

theorem Fits.apply {f : FunctionName} (h : x.Fits bound) (hb : mode.Allows bound)
    (hy : x.apply mode.degrees f = .ok y) : y.Fits bound := by
  refine fits_of_orReal hy fun r hr => ?_
  obtain ⟨q, hq, hle⟩ := Exact.size_le_of_apply hr
  have hq := h q hq
  have htable := hb.table
  omega

theorem fits_of_factorial {m m' : Reals.Memory} (hb : mode.Allows bound)
    (hy : x.factorial mode.kernel m = (.ok y, m')) : y.Fits bound := by
  have hfits : ∀ q r, Exact.factorial (some q) = .ok (some r) → (Exact.size r : ℤ) ≤ bound := by
    intro q r hr
    have hle : (Exact.size r : ℤ) ≤ Exact.size (Nat.factorial 5000) := by
      exact_mod_cast Exact.size_le_of_factorial hr
    exact hle.trans hb.factorial
  obtain ⟨q, m₁, -, hy⟩ := run_bind_eq_ok_iff.1 hy
  obtain ⟨r, m₂, hr, hy⟩ := run_bind_eq_ok_iff.1 hy
  cases hy
  refine fits_orReal fun s hs => hfits q s ?_
  rw [(Reals.Recall.ofExcept_eq_ok_iff.1 hr).1, hs]

theorem fits_of_raise (hb : mode.Allows bound) (hz : x.raise mode.limit y = .ok z) :
    z.Fits bound := by
  obtain ⟨q, hq, hz⟩ := bind_eq_ok_iff.1 hz
  cases q with
  | some q =>
    cases hz
    rintro r ⟨⟩
    have hsize := Exact.size_le_of_pow (mapError_eq_ok_iff.1 hq)
    exact hsize.trans (max_le hb.limit (by linarith [hb.table]))
  | none =>
    cases hn : Exact.toInt? y.exact with
    | some n =>
      rw [hn] at hz
      cases hz
      rintro r ⟨⟩
    | none =>
      rw [hn] at hz
      cases hz
      rintro r ⟨⟩

end Dual

/-- The exact value that a token brings. -/
def Token.known? : Token → Option ℚ
  | literal l => l.exact.toOption
  | operator _ => none
  | collapsed _ value _ _ _ => value.exact

namespace Grammar

variable {mode : Mode} {bound : ℤ} {t x : Tree} {v : Dual}

/-- The value of a tree, if it has one, has an exact value of so many bits at most. -/
def Tree.Fits (mode : Mode) (bound : ℤ) (t : Tree) : Prop :=
  ∀ m v m', t.value mode m = (.ok v, m') → v.Fits bound

/-- It is the value of a tree that fits, if the leaves do. -/
theorem Tree.fits (hb : mode.Allows bound) (hleaves : ∀ x ∈ t.leaves, x.Fits mode bound) :
    t.Fits mode bound := by
  have hlimit : ∀ {exact : Option ℚ} {real : Reals.Term} {z : Dual},
      (∀ q, exact = some q → (Exact.size q : ℤ) ≤ mode.limit) →
      Except.ok (.orReal exact real) = (.ok z : Except Failure Dual) → z.Fits bound := by
    rintro exact real z hexact ⟨⟩
    exact Dual.fits_orReal fun q hq => (hexact q hq).trans hb.limit
  induction t with
  | number | collapsed | constant => exact hleaves _ List.mem_cons_self
  | group closed t ih => exact ih hleaves
  | root negative t ih =>
    intro m v m' hv
    obtain ⟨x, m₁, hx, hv⟩ := run_bind_eq_ok_iff.1 hv
    have hfits := ih hleaves _ _ _ hx
    have hroot := mapError_eq_ok_iff.1 (Reals.Recall.ofExcept_eq_ok_iff.1 hv).1
    cases negative with
    | true => exact hfits.neg.sqrt hroot
    | false => exact hfits.sqrt hroot
  | call f closed t ih =>
    intro m v m' hv
    obtain ⟨x, m₁, hx, hv⟩ := run_bind_eq_ok_iff.1 hv
    exact (ih hleaves _ _ _ hx).apply hb
      (mapError_eq_ok_iff.1 (Reals.Recall.ofExcept_eq_ok_iff.1 hv).1)
  | opposite t ih =>
    intro m v m' hv
    obtain ⟨x, m₁, hx, hv⟩ := run_bind_eq_ok_iff.1 hv
    cases hv
    exact (ih hleaves _ _ _ hx).neg
  | suffix op t ih =>
    intro m v m' hv
    obtain ⟨x, m₁, hx, hv⟩ := run_bind_eq_ok_iff.1 hv
    cases op with
    | factorial => exact Dual.fits_of_factorial hb (Reals.Recall.mapError_eq_ok_iff.1 hv)
    | square | percent => exact hlimit (fun q => Exact.size_le_of_mul) (congrArg Prod.fst hv)
  | power s t ihs iht =>
    exact value_of_binary (f := fun x y => x.raise mode.limit y) rfl fun _ _ _ => Dual.fits_of_raise hb
  | product signed s t ihs iht =>
    exact value_of_binary (f := fun x y => .ok (x.mul mode.limit y)) rfl
      fun x y z => hlimit fun q => Exact.size_le_of_mul
  | quotient s t ihs iht =>
    exact value_of_binary (f := fun x y => (x.div mode.limit y).mapError .arithmetic) rfl
      fun x y z hz => Dual.fits_of_orReal (mapError_eq_ok_iff.1 hz) fun q hq =>
        (Exact.size_le_of_div hq).trans hb.limit
  | sum s t ihs iht =>
    exact value_of_binary (f := fun x y => .ok (x.add mode.limit y)) rfl
      fun x y z => hlimit fun q => Exact.size_le_of_add
  | difference s t ihs iht =>
    exact value_of_binary (f := fun x y => .ok (x.sub mode.limit y)) rfl
      fun x y z => hlimit fun q => Exact.size_le_of_sub

/-- The value of a leaf is known as exactly as its token. -/
theorem known?_of_leaf? {a : Token} {m m' : Reals.Memory} (hx : leaf? a = some x)
    (hv : x.value mode m = (.ok v, m')) : v.exact = a.known? := by
  cases a with
  | literal l =>
    cases hx
    have hread := mapError_eq_ok_iff.1 (Reals.Recall.ofExcept_eq_ok_iff.1 hv).1
    obtain ⟨r, -, hv⟩ := bind_eq_ok_iff.1 hread
    obtain ⟨q, hq, hv⟩ := bind_eq_ok_iff.1 hv
    cases hv
    rw [Token.known?, hq]
    rfl
  | collapsed =>
    cases hx
    cases hv
    rfl
  | operator k =>
    cases k with
    | constant c =>
      cases hx
      cases c <;>
      · cases hv
        rfl
    | _ => cases hx

/-- The bits that exact values can have which come of tokens: those of the bound, of the largest factorial,
of the values in tables, or of the largest value among the tokens. -/
def exactBound (limit : ℤ) (ts : List Token) : ℤ :=
  max limit (max (max (Exact.size (Nat.factorial 5000)) 9)
    (((ts.filterMap Token.known?).map Exact.size).foldr max 0) : ℕ)

theorem allows_exactBound (mode : Mode) (ts : List Token) :
    mode.Allows (exactBound mode.limit ts) where
  limit := le_max_left _ _
  factorial := le_max_of_le_right (by exact_mod_cast le_max_of_le_left (le_max_left _ _))
  table := le_max_of_le_right (by exact_mod_cast le_max_of_le_left (le_max_right _ _))

theorem size_le_exactBound (limit : ℤ) {ts : List Token} {a : Token} (ha : a ∈ ts) {q : ℚ}
    (hq : a.known? = some q) : (Exact.size q : ℤ) ≤ exactBound limit ts := by
  have hmem : Exact.size q ∈ (ts.filterMap Token.known?).map Exact.size :=
    List.mem_map_of_mem (List.mem_filterMap.2 ⟨a, ha, hq⟩)
  have hle : Exact.size q ≤ ((ts.filterMap Token.known?).map Exact.size).foldr max 0 :=
    List.le_max_of_le' 0 hmem le_rfl
  exact le_max_of_le_right (by exact_mod_cast le_max_of_le_right hle)

/-- A phrase among tokens fits what the tokens allow. -/
theorem Derives.fits {r : Rule} {ts us rest : List Token} (h : Derives (.rule r) us t rest)
    (hus : us ⊆ ts) : t.Fits mode (exactBound mode.limit ts) := by
  refine t.fits (allows_exactBound mode ts) fun x hx m w m' hw q hq => ?_
  obtain ⟨a, ha, hleaf⟩ := h.exists_of_mem_leaves hx
  exact size_le_exactBound mode.limit (hus ha) ((known?_of_leaf? hleaf hw).symm.trans hq)

/-- No chain of operations makes an exact value that is larger than the bound of the mode, the values of
the tokens, the largest factorial and the values in tables, whichever rule reads it. -/
theorem exact_size_le (mode : Mode) (ts : List Token) :
    (∀ span start depth r m p m' q, parse mode depth r ((range span ts).drop start) m = (.ok p, m') →
      p.value.exact = some q → (Exact.size q : ℤ) ≤ exactBound mode.limit ts) ∧
    ∀ depth span m v m' q, evaluateWithin mode depth span ts m = (.ok v, m') →
      v.exact = some q → (Exact.size q : ℤ) ≤ exactBound mode.limit ts := by
  have hrange : ∀ span, range span ts ⊆ ts := fun span => List.take_subset _ _
  refine ⟨fun span start depth r m p m' q hp => ?_, fun depth span m v m' q hv => ?_⟩
  · obtain ⟨t, ht, hvt, -⟩ := parse_sound hp
    exact ht.fits (List.Subset.trans (List.drop_subset _ _) (hrange span)) _ _ _ hvt q
  · obtain ⟨t, ht, hvt, -⟩ := evaluateWithin_sound hv
    exact Derives.fits ht (hrange span) _ _ _ hvt q

/-- The opposite of a thousand has more bits than a bound of none, as a number among the tokens has. -/
theorem exact_size_le_opposite :
    let ts : List Token := [.operator (.binary .minus), .literal ⟨"1000", false, ""⟩]
    let mode : Mode := ⟨false, 0, Elementary.kernel⟩
    let m := Reals.Memory.empty
    evaluateWithin mode nestingLimit 2 ts m = (.ok (Dual.ofRat 1000).neg, m) ∧
      mode.limit < Exact.size (-1000) ∧ (Exact.size (-1000) : ℤ) ≤ exactBound mode.limit ts := by
  intro ts mode m
  have hvalue : evaluateWithin mode nestingLimit 2 ts m = (.ok (Dual.ofRat 1000).neg, m) := by cbv
  exact ⟨hvalue, by decide, (exact_size_le mode ts).2 nestingLimit 2 _ _ _ _ hvalue rfl⟩

end Grammar

end Reckoner
