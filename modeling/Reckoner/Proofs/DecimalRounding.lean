import Mathlib.Algebra.Order.Floor.Semifield
import Mathlib.Algebra.Order.Round
import Reckoner.Proofs.DecimalText
import Reckoner.Proofs.Rounding
/-!
Rounding to decimal digits. The place of the first digit is that of the decimal logarithm
(`exponent_eq_log`), and the digits shown are those of the nearest multiple of the last place
(`abs_number_render_sub_le`). So the text of a number is less than a unit of the last place away from
every number that is half as near (`abs_number_render_sub_lt`).
-/
namespace Reckoner.Decimal

variable {n d count : ℕ} {k : ℤ} {z : ℝ}

theorem ten_zpow_pos (k : ℤ) : (0 : ℝ) < 10 ^ k := zpow_pos (by norm_num) k

theorem ten_zpow_le {k l : ℤ} (h : k ≤ l) : (10 : ℝ) ^ k ≤ 10 ^ l :=
  zpow_le_zpow_right₀ (by norm_num) h

theorem ten_zpow_mul (k l : ℤ) : (10 : ℝ) ^ k * 10 ^ l = 10 ^ (k + l) :=
  (zpow_add₀ (by norm_num) k l).symm

/-! The first digit. -/

theorem ten_zpow_le_iff (hz : 0 < z) : (10 : ℝ) ^ k ≤ z ↔ k ≤ Int.log 10 z := by
  exact_mod_cast Int.zpow_le_iff_le_log (by decide : 1 < 10) hz

theorem lt_ten_zpow_iff (hz : 0 < z) : z < (10 : ℝ) ^ k ↔ Int.log 10 z < k := by
  exact_mod_cast Int.lt_zpow_iff_log_lt (by decide : 1 < 10) hz

theorem scale_pos (hd : 0 < d) (n : ℕ) (k : ℤ) : 0 < (scale n d k).2 := by
  unfold scale
  split
  · exact hd
  · exact Nat.mul_pos hd (Nat.pow_pos (by decide))

theorem scale_div (n d : ℕ) (k : ℤ) :
    ((scale n d k).1 : ℝ) / (scale n d k).2 = n / d * 10 ^ k := by
  unfold scale powTen
  split
  · rename_i hk
    rw [Nat.cast_mul, Nat.pow_eq, Nat.cast_pow, ← zpow_natCast, Int.toNat_of_nonneg hk,
      Nat.cast_ofNat, mul_div_right_comm]
  · rename_i hk
    have hexp : k = -(k.natAbs : ℤ) := by omega
    rw [Nat.cast_mul, Nat.pow_eq, Nat.cast_pow, ← zpow_natCast, Nat.cast_ofNat, ← div_div]
    conv_rhs => rw [hexp, zpow_neg, ← div_eq_mul_inv]

theorem reaches_iff (hn : 0 < n) (hd : 0 < d) :
    reaches n d k = true ↔ k ≤ Int.log 10 ((n : ℝ) / d) := by
  have hpos : (0 : ℝ) < n / d := div_pos (Nat.cast_pos.2 hn) (Nat.cast_pos.2 hd)
  have hscaled : (0 : ℝ) < (scale n d (-k)).2 := Nat.cast_pos.2 (scale_pos hd n (-k))
  rw [reaches, decide_eq_true_iff, ← Nat.cast_le (α := ℝ), ← one_le_div hscaled, scale_div, zpow_neg,
    ← div_eq_mul_inv, one_le_div (ten_zpow_pos k), ten_zpow_le_iff hpos]

theorem length_toString (hn : 0 < n) : (toString n).length = Nat.log 10 n + 1 := by
  have hle {k : ℕ} (hk : 0 < k) : (toString n).length ≤ k ↔ Nat.log 10 n < k := by
    rw [Text.toString_length_le_iff hk, ← Nat.log_lt_iff_lt_pow (by decide) hn.ne']
  have hpos : 0 < (toString n).length := by
    by_contra hempty
    have hnil : (toString n).toList = [] :=
      List.eq_nil_of_length_eq_zero (String.length_toList.trans (Nat.eq_zero_of_not_pos hempty))
    have hvalue := Text.digitsValue_toString n
    rw [hnil] at hvalue
    exact hn.ne hvalue
  exact le_antisymm ((hle (Nat.succ_pos _)).2 (Nat.lt_succ_self _)) ((hle hpos).1 le_rfl)

theorem exponentByLength_eq_log (hn : 0 < n) (hd : 0 < d) :
    exponentByLength n d = Int.log 10 ((n : ℝ) / d) := by
  have hn' : (0 : ℝ) < n := Nat.cast_pos.2 hn
  have hd' : (0 : ℝ) < d := Nat.cast_pos.2 hd
  unfold exponentByLength
  split
  · rename_i hle
    have hone : (1 : ℝ) ≤ n / d := (one_le_div hd').2 (Nat.cast_le.2 hle)
    rw [length_toString (Nat.div_pos hle hd), Int.log_of_one_le_right 10 hone, Nat.floor_div_eq_div]
    push_cast
    ring
  · rename_i hlt
    have hpos : 0 < (d - 1) / n := Nat.div_pos (by omega) hn
    rw [length_toString hpos]
    generalize hl : Nat.log 10 ((d - 1) / n) = l
    have hlow : 10 ^ l * n ≤ d - 1 :=
      (Nat.le_div_iff_mul_le hn).1 ((Nat.le_log_iff_pow_le (by decide) hpos.ne').1 hl.ge)
    have hhigh : d - 1 < 10 ^ (l + 1) * n :=
      (Nat.div_lt_iff_lt_mul hn).1 ((Nat.log_lt_iff_lt_pow (by decide) hpos.ne').1 (by omega))
    have hle : (10 : ℝ) ^ (-((l + 1 : ℕ) : ℤ)) ≤ n / d := by
      rw [le_div_iff₀ hd', zpow_neg, zpow_natCast, inv_mul_le_iff₀ (by positivity)]
      exact_mod_cast (by omega : d ≤ 10 ^ (l + 1) * n)
    have hgt : (n : ℝ) / d < 10 ^ (-(l : ℤ)) := by
      rw [div_lt_iff₀ hd', zpow_neg, zpow_natCast, lt_inv_mul_iff₀ (by positivity)]
      exact_mod_cast (by omega : 10 ^ l * n < d)
    have hz := div_pos hn' hd'
    rw [ten_zpow_le_iff hz] at hle
    rw [lt_ten_zpow_iff hz] at hgt
    omega

/-- The first digit of a fraction is where its logarithm says. -/
theorem exponent_eq_log (hn : 0 < n) (hd : 0 < d) :
    exponent n d = Int.log 10 ((n : ℝ) / d) := by
  have hreaches (k : ℤ) := reaches_iff (k := k) hn hd
  have hlength := exponentByLength_eq_log hn hd
  unfold exponent
  dsimp only
  simp only [hreaches, hlength]
  split_ifs <;> omega

/-! The nearest multiple of the last place. -/

theorem two_mul_abs_divRoundEven_sub_le (hd : 0 < d) (n : ℕ) :
    2 * |(divRoundEven n d * d : ℤ) - n| ≤ d := by
  simp only [divRoundEven, Bool.or_eq_true, Bool.and_eq_true, decide_eq_true_eq]
  exact two_mul_abs_ite_mul_sub_le (Nat.div_add_mod' n d) (Nat.mod_lt n hd) _ (by omega) (by omega)

/-- An integer that a number is half a unit away from, at most, is no further than any other. -/
theorem abs_sub_le_of_half {m : ℤ} (h : |(m : ℝ) - z| ≤ 1 / 2) (k : ℤ) : |(m : ℝ) - z| ≤ |k - z| := by
  by_cases hk : m = k
  · rw [hk]
  have hapart : (1 : ℝ) ≤ |(m : ℝ) - k| := by
    exact_mod_cast Int.one_le_abs (sub_ne_zero.2 hk)
  have hsum := abs_sub_le (m : ℝ) z k
  rw [abs_sub_comm z] at hsum
  linarith

theorem abs_divRoundEven_sub_le (hd : 0 < d) (n : ℕ) (k : ℤ) :
    |(divRoundEven n d : ℝ) - n / d| ≤ |(k : ℝ) - n / d| := by
  have hd' : (0 : ℝ) < d := Nat.cast_pos.2 hd
  have herror : 2 * |(divRoundEven n d : ℝ) * d - n| ≤ d := by
    exact_mod_cast two_mul_abs_divRoundEven_sub_le hd n
  have hhalf : |((divRoundEven n d : ℤ) : ℝ) - n / d| ≤ 1 / 2 := by
    rw [Int.cast_natCast, sub_div' hd'.ne', abs_div, abs_of_pos hd', div_le_iff₀ hd']
    linarith
  exact abs_sub_le_of_half hhalf k

/-- Dividing by the unit of the last place leaves the digits that are to be shown before the point. -/
theorem scaled_bounds (hz : 0 < z) (hcount : 1 ≤ count) :
    (10 : ℝ) ^ (count - 1) ≤ z * 10 ^ ((count : ℤ) - 1 - Int.log 10 z) ∧
      z * 10 ^ ((count : ℤ) - 1 - Int.log 10 z) < 10 ^ count := by
  have hlow := (ten_zpow_le_iff hz).2 le_rfl
  have hhigh := (lt_ten_zpow_iff hz).2 (Int.lt_succ_self _)
  generalize Int.log 10 z = e at *
  have hscale := ten_zpow_pos ((count : ℤ) - 1 - e)
  have hfirst : (10 : ℝ) ^ (count - 1) = 10 ^ e * 10 ^ ((count : ℤ) - 1 - e) := by
    rw [ten_zpow_mul, ← zpow_natCast]
    congr 1
    omega
  have hlast : (10 : ℝ) ^ count = 10 ^ Int.succ e * 10 ^ ((count : ℤ) - 1 - e) := by
    rw [ten_zpow_mul, ← zpow_natCast]
    congr 1
    rw [Int.succ]
    omega
  rw [hfirst, hlast]
  exact ⟨mul_le_mul_of_nonneg_right hlow hscale.le, mul_lt_mul_of_pos_right hhigh hscale⟩

/-- The multiple of the last place that is shown; it may have a digit more than wanted, and is then a
power of ten. -/
theorem exists_multiple (hn : 0 < n) (hd : 0 < d) (hcount : 1 ≤ count) :
    ∃ m : ℕ, significant count n d = (if m = powTen count then
        ⟨powTen (count - 1), count, Int.log 10 ((n : ℝ) / d) + 1⟩
      else ⟨m, count, Int.log 10 ((n : ℝ) / d)⟩) ∧
      10 ^ (count - 1) ≤ m ∧ m ≤ 10 ^ count ∧
      ∀ k : ℤ, |(m : ℝ) - n / d * 10 ^ ((count : ℤ) - 1 - Int.log 10 ((n : ℝ) / d))| ≤
        |(k : ℝ) - n / d * 10 ^ ((count : ℤ) - 1 - Int.log 10 ((n : ℝ) / d))| := by
  have hz : (0 : ℝ) < n / d := div_pos (Nat.cast_pos.2 hn) (Nat.cast_pos.2 hd)
  obtain ⟨hlow, hhigh⟩ := scaled_bounds hz hcount
  have hexponent := exponent_eq_log hn hd
  generalize Int.log 10 ((n : ℝ) / d) = e at *
  have hnearest := abs_divRoundEven_sub_le (scale_pos hd n ((count : ℤ) - 1 - e))
    (scale n d ((count : ℤ) - 1 - e)).1
  rw [scale_div] at hnearest
  rw [significant, hexponent]
  dsimp only
  generalize divRoundEven _ _ = m at *
  refine ⟨m, rfl, ?_, ?_, hnearest⟩
  · have hfirst := hnearest (10 ^ (count - 1) : ℕ)
    rw [Int.cast_natCast, Nat.cast_pow, Nat.cast_ofNat, abs_sub_comm ((10 : ℝ) ^ (count - 1)),
      abs_of_nonneg (sub_nonneg.2 hlow)] at hfirst
    have hle : (10 : ℝ) ^ (count - 1) ≤ m := by linarith [(abs_le.1 hfirst).1]
    exact_mod_cast hle
  · have hlast := hnearest (10 ^ count : ℕ)
    rw [Int.cast_natCast, Nat.cast_pow, Nat.cast_ofNat, abs_of_nonneg (sub_nonneg.2 hhigh.le)] at hlast
    have hle : (m : ℝ) ≤ 10 ^ count := by linarith [(abs_le.1 hlast).2]
    exact_mod_cast hle

/-- What `significant` gives: so many digits, of the multiple of the last place that is nearest to the
fraction. -/
theorem significant_nearest (hn : 0 < n) (hd : 0 < d) (hcount : 1 ≤ count) :
    let r := significant count n d
    10 ^ (count - 1) ≤ r.digits ∧ r.digits < 10 ^ count ∧
      ∀ k : ℤ, |r.digits * (10 : ℝ) ^ (r.exponent + 1 - count) - n / d| ≤
        |(k : ℝ) * 10 ^ (Int.log 10 ((n : ℝ) / d) + 1 - count) - n / d| := by
  obtain ⟨m, hr, hlow, hhigh, hnearest⟩ := exists_multiple hn hd hcount
  rw [hr]
  generalize Int.log 10 ((n : ℝ) / d) = e at *
  -- distances are measured in units of the last place
  have hunit (a : ℝ) : |a * 10 ^ (e + 1 - count) - n / d| =
      |a - n / d * 10 ^ ((count : ℤ) - 1 - e)| * 10 ^ (e + 1 - count) := by
    have hinv : (n : ℝ) / d * 10 ^ ((count : ℤ) - 1 - e) * 10 ^ (e + 1 - count) = n / d := by
      rw [mul_assoc, ten_zpow_mul, show (count : ℤ) - 1 - e + (e + 1 - count) = 0 by ring, zpow_zero,
        mul_one]
    rw [← abs_of_pos (ten_zpow_pos (e + 1 - count)), ← abs_mul, sub_mul,
      abs_of_pos (ten_zpow_pos (e + 1 - count)), hinv]
  have hclose (k : ℤ) : |(m : ℝ) * 10 ^ (e + 1 - count) - n / d| ≤
      |(k : ℝ) * 10 ^ (e + 1 - count) - n / d| := by
    rw [hunit, hunit]
    exact mul_le_mul_of_nonneg_right (hnearest k) (ten_zpow_pos _).le
  split
  · rename_i hfull
    have hsame : ((10 ^ (count - 1) : ℕ) : ℝ) * 10 ^ (e + 1 + 1 - count) =
        m * (10 : ℝ) ^ (e + 1 - count) := by
      rw [hfull, powTen, Nat.pow_eq, Nat.cast_pow, Nat.cast_pow, Nat.cast_ofNat, ← zpow_natCast,
        ← zpow_natCast, ten_zpow_mul, ten_zpow_mul]
      congr 1
      omega
    refine ⟨le_rfl, Nat.pow_lt_pow_right (by decide) (by omega), fun k => ?_⟩
    have := hclose k
    rw [← hsame] at this
    exact this
  · rename_i hpartial
    exact ⟨hlow, lt_of_le_of_ne hhigh hpartial, hclose⟩

/-! Texts of numbers. -/

variable {x : BigFloat}

/-- The size of a number as a fraction, and the text of the number from the digits of that. -/
theorem exists_fraction (count : ℕ) (hx : x.value ≠ 0) :
    ∃ n d : ℕ, 0 < n ∧ 0 < d ∧ |x.value| = n / d ∧
      render count x = layOut (min (-((count / 3 : ℕ) : ℤ)) (-5)) count (x.mantissa < 0)
        (toString (significant count n d).digits).toList (significant count n d).exponent := by
  have hm : x.mantissa ≠ 0 := mt BigFloat.value_eq_zero_iff.2 hx
  have hn : 0 < x.mantissa.natAbs := Int.natAbs_pos.2 hm
  have hzero : x.isZero = false := by simpa [BigFloat.isZero] using hm
  rw [BigFloat.abs_value, render, hzero, if_neg Bool.false_ne_true]
  by_cases he : 0 ≤ x.exponent
  · refine ⟨x.mantissa.natAbs <<< x.exponent.toNat, 1, ?_, Nat.one_pos, ?_, ?_⟩
    · rw [Nat.shiftLeft_eq]
      exact Nat.mul_pos hn (Nat.two_pow_pos _)
    · rw [Nat.shiftLeft_eq, Nat.cast_mul, Nat.cast_pow, ← zpow_natCast, Int.toNat_of_nonneg he]
      simp
    · simp only [if_pos he]
  · refine ⟨x.mantissa.natAbs, 1 <<< x.exponent.natAbs, hn, ?_, ?_, ?_⟩
    · rw [Nat.one_shiftLeft]
      exact Nat.two_pow_pos _
    · have hexp : x.exponent = -(x.exponent.natAbs : ℤ) := by omega
      rw [Nat.one_shiftLeft, Nat.cast_pow, ← zpow_natCast, div_eq_mul_inv, ← zpow_neg, ← hexp]
      simp
    · simp only [if_neg he]

/-- A text is a sign and a size, and the size is as near to that of the number as any multiple of the
last place. -/
theorem exists_number_render (hcount : 1 ≤ count) (hx : x.value ≠ 0) :
    ∃ m : ℚ, number (render count x) = (if x.mantissa < 0 then -1 else 1) * m ∧
      ∀ k : ℤ, |(m : ℝ) - abs x.value| ≤
        |k * 10 ^ (Int.log 10 |x.value| + 1 - count) - abs x.value| := by
  obtain ⟨n, d, hn, hd, hvalue, htext⟩ := exists_fraction count hx
  obtain ⟨hlow, hhigh, hnearest⟩ := significant_nearest hn hd hcount
  generalize significant count n d = r at *
  have hdigits : 0 < r.digits := (Nat.pow_pos (by decide)).trans_le hlow
  have hlog : Nat.log 10 r.digits = count - 1 :=
    Nat.log_eq_of_pow_le_of_lt_pow hlow (by rwa [Nat.sub_add_cancel hcount])
  have hlength : (toString r.digits).toList.length = count := by
    rw [String.length_toList, length_toString hdigits, hlog, Nat.sub_add_cancel hcount]
  have hne : (toString r.digits).toList ≠ [] := List.ne_nil_of_length_pos (by omega)
  have hnumber := number_layOut (fun c hc => Text.isDigit_of_mem_toString hc) hne
    (min (-((count / 3 : ℕ) : ℤ)) (-5)) count (x.mantissa < 0) r.exponent
  simp only [Text.digitsValue_toString, hlength, ← htext, decide_eq_true_eq] at hnumber
  refine ⟨r.digits * 10 ^ (r.exponent + 1 - count), hnumber, fun k => ?_⟩
  rw [hvalue]
  push_cast
  exact hnearest k

/-- The text of a number to so many digits is as near to it as any multiple of the last place. -/
theorem abs_number_render_sub_le (hcount : 1 ≤ count) (hx : x.value ≠ 0) (k : ℤ) :
    |(number (render count x) : ℝ) - x.value| ≤
      |k * 10 ^ (Int.log 10 |x.value| + 1 - count) - x.value| := by
  obtain ⟨m, hnumber, hnearest⟩ := exists_number_render hcount hx
  generalize (10 : ℝ) ^ (Int.log 10 |x.value| + 1 - count) = u at *
  rw [hnumber]
  split
  · rename_i hneg
    rw [abs_of_neg (BigFloat.value_neg_iff.2 hneg)] at hnearest
    calc |((-1 * m : ℚ) : ℝ) - x.value| = |(m : ℝ) - -x.value| := by
          rw [← abs_neg]
          push_cast
          ring_nf
      _ ≤ |((-k : ℤ) : ℝ) * u - -x.value| := hnearest (-k)
      _ = |k * u - x.value| := by
          rw [← abs_neg]
          push_cast
          ring_nf
  · rename_i hnonneg
    rw [abs_of_nonneg (not_lt.1 (mt BigFloat.value_neg_iff.1 hnonneg))] at hnearest
    rw [one_mul]
    exact hnearest k

theorem exists_abs_mul_sub_le {u : ℝ} (hu : 0 < u) (z : ℝ) : ∃ k : ℤ, |k * u - z| ≤ u / 2 := by
  use round (z / u)
  have hround := abs_sub_round (z / u)
  rw [abs_sub_comm] at hround
  calc |round (z / u) * u - z| = |round (z / u) - z / u| * u := by
        rw [← abs_of_pos hu, ← abs_mul, abs_of_pos hu, sub_mul, div_mul_cancel₀ _ hu.ne']
    _ ≤ 1 / 2 * u := mul_le_mul_of_nonneg_right hround hu.le
    _ = u / 2 := by ring

theorem exists_abs_mul_sub_eq (m : ℤ) (u z : ℝ) : ∃ k : ℤ, |k * u - z| = |m * u - abs z| := by
  rcases abs_cases z with ⟨hz, -⟩ | ⟨hz, -⟩
  · exact ⟨m, by rw [hz]⟩
  · refine ⟨-m, ?_⟩
    rw [hz, Int.cast_neg, neg_mul, ← neg_add', abs_neg, sub_neg_eq_add]

/-- The text of a number is off by half a unit of its last place at most. -/
theorem abs_number_render_sub_le_half (hcount : 1 ≤ count) (hx : x.value ≠ 0) :
    |(number (render count x) : ℝ) - x.value| ≤ 10 ^ (Int.log 10 |x.value| + 1 - count) / 2 := by
  obtain ⟨k, hk⟩ := exists_abs_mul_sub_le (ten_zpow_pos (Int.log 10 |x.value| + 1 - count)) x.value
  exact (abs_number_render_sub_le hcount hx k).trans hk

/-- The text of a number is as near to it as the power of ten below. -/
theorem abs_number_render_sub_le_sub (hcount : 1 ≤ count) (hx : x.value ≠ 0) :
    |(number (render count x) : ℝ) - x.value| ≤ |x.value| - 10 ^ Int.log 10 |x.value| := by
  have hnearest := abs_number_render_sub_le hcount hx
  have hpower := (ten_zpow_le_iff (abs_pos.2 hx)).2 le_rfl
  generalize Int.log 10 |x.value| = e at *
  obtain ⟨k, hk⟩ := exists_abs_mul_sub_eq (10 ^ (count - 1)) ((10 : ℝ) ^ (e + 1 - count)) x.value
  have hmultiple : ((10 ^ (count - 1) : ℤ) : ℝ) * 10 ^ (e + 1 - count) = 10 ^ e := by
    rw [Int.cast_pow, Int.cast_ofNat, ← zpow_natCast, ten_zpow_mul]
    congr 1
    omega
  rw [hmultiple, abs_sub_comm ((10 : ℝ) ^ e), abs_of_nonneg (sub_nonneg.2 hpower)] at hk
  exact hk ▸ hnearest k

/-- A number that is closer to another than half a unit of the other's last place has a text that is
closer to the other than that unit. -/
theorem abs_number_render_sub_lt {v : ℝ} (hcount : 1 ≤ count) (hv : v ≠ 0)
    (hclose : |x.value - v| < 10 ^ (Int.log 10 |v| + 1 - count) / 2) :
    |(number (render count x) : ℝ) - v| < 10 ^ (Int.log 10 |v| + 1 - count) := by
  have hv' : 0 < |v| := abs_pos.2 hv
  have hfirst : (10 : ℝ) ^ Int.log 10 |v| ≤ |v| := (ten_zpow_le_iff hv').2 le_rfl
  have hnext : |v| < 10 ^ (Int.log 10 |v| + 1) := (lt_ten_zpow_iff hv').2 (Int.lt_succ_self _)
  generalize Int.log 10 |v| = e at *
  have hunit : (10 : ℝ) ^ (e + 1 - count) ≤ 10 ^ e := ten_zpow_le (by omega)
  have hapart : |v| - |x.value| ≤ |x.value - v| := by
    rw [abs_sub_comm]
    exact abs_sub_abs_le_abs_sub v x.value
  have hbeyond : |x.value| - |v| ≤ |x.value - v| := abs_sub_abs_le_abs_sub x.value v
  have hx' : 0 < |x.value| := by linarith
  have hx : x.value ≠ 0 := abs_pos.1 hx'
  have hsum := abs_sub_le (number (render count x) : ℝ) x.value v
  rcases le_or_gt (Int.log 10 |x.value|) e with hle | hgt
  · -- the last place of the number is no higher than that of the other
    have hplace : (10 : ℝ) ^ (Int.log 10 |x.value| + 1 - count) ≤ 10 ^ (e + 1 - count) :=
      ten_zpow_le (by omega)
    have hhalf := abs_number_render_sub_le_half hcount hx
    linarith
  · -- there is a power of ten between the two
    have hlog : (10 : ℝ) ^ (e + 1) ≤ 10 ^ Int.log 10 |x.value| := ten_zpow_le hgt
    have hpower := abs_number_render_sub_le_sub hcount hx
    linarith

end Reckoner.Decimal
