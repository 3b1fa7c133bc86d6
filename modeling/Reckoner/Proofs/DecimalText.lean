import Mathlib.Data.List.TakeWhile
import Mathlib.Data.Rat.Cast.Order
import Reckoner.Decimal
import Reckoner.Proofs.Numerals
/-!
Decimal text, read as it is written. `number` is the number that a text of digits, with a sign and an
exponent or without, stands for. However digits are laid out, with the point among them or far from
them, the text stands for the same number (`number_layOut`).
-/
namespace Reckoner

namespace Text

theorem toList_toString (n : ℕ) : (toString n).toList = Nat.toDigits 10 n := by
  simp [toString, Nat.repr]

theorem digitsValue_eq_ofDigitChars {cs : List Char} (h : ∀ c ∈ cs, c.isDigit) (value : ℕ) :
    digitsValue value cs = Nat.ofDigitChars 10 cs value := by
  induction cs generalizing value with
  | nil => rfl
  | cons c cs ih =>
    have hc : decimalValue? c = some (c.toNat - 48) :=
      decimalValue?_of_isDigit (h c List.mem_cons_self)
    have htail := ih (fun c hc => h c (List.mem_cons_of_mem _ hc)) (10 * value + (c.toNat - 48))
    simp only [digitsValue, Nat.ofDigitChars, List.foldl_cons, hc, Option.getD_some] at htail ⊢
    exact htail

theorem digitsValue_toString (n : ℕ) : digitsValue 0 (toString n).toList = n := by
  rw [digitsValue_eq_ofDigitChars fun c hc => isDigit_of_mem_toString hc, toList_toString]
  exact Nat.ofDigitChars_toDigits (by decide) (by decide)

theorem digitsValue_zeros (value k : ℕ) :
    digitsValue value (List.replicate k '0') = value * 10 ^ k := by
  induction k with
  | zero => simp [digitsValue]
  | succ k ih =>
    have hzero : digitsValue (value * 10 ^ k) ['0'] = 10 * (value * 10 ^ k) + 0 := rfl
    rw [List.replicate_succ', digitsValue_append, ih, hzero, Nat.pow_succ]
    ring

theorem isDecimal_of_isDigit {c : Char} (h : c.isDigit) : isDecimal c = true := by
  rw [isDecimal, decimalValue?_of_isDigit h]
  rfl

/-- The digits of a number are as many as its decimal places. -/
theorem toString_length_le_iff {n k : ℕ} (hk : 0 < k) : (toString n).length ≤ k ↔ n < 10 ^ k := by
  rw [← String.length_toList, toList_toString]
  exact Nat.length_toDigits_le_iff (by decide) hk

end Text

namespace Decimal

open Text (digitsValue)

/-- What digits on both sides of a point are worth. -/
def worth (whole fraction : List Char) : ℚ := digitsValue 0 (whole ++ fraction) / 10 ^ fraction.length

/-- What digits are worth that may have a point among them. -/
def plainNumber (cs : List Char) : ℚ :=
  worth (cs.takeWhile (· ≠ '.')) ((cs.dropWhile (· ≠ '.')).drop 1)

/-- The exponent that an exponent part stands for; without one it is zero. -/
def exponentNumber (cs : List Char) : ℤ :=
  let (negative, digits) := Text.signed (cs.drop 1)
  Text.withSign negative (digitsValue 0 digits)

/-- The number that a decimal text stands for: a sign or none, digits with a point among them, and an
exponent behind an e, or none. -/
def number (s : String) : ℚ :=
  let (negative, cs) := Text.signed s.toList
  let size := plainNumber (cs.takeWhile (· ≠ 'e')) * 10 ^ exponentNumber (cs.dropWhile (· ≠ 'e'))
  if negative then -size else size

theorem number_zero : number "0.0" = 0 := by
  decide +kernel

variable {whole fraction digits : List Char}

theorem worth_append_zeros (whole fraction : List Char) (k : ℕ) :
    worth whole (fraction ++ List.replicate k '0') = worth whole fraction := by
  have hten : (10 : ℚ) ^ k ≠ 0 := pow_ne_zero k (by norm_num)
  rw [worth, worth, ← List.append_assoc, Text.digitsValue_append, Text.digitsValue_zeros,
    List.length_append, List.length_replicate, pow_add, Nat.cast_mul, Nat.cast_pow, Nat.cast_ofNat,
    mul_div_mul_right _ _ hten]

/-- Only zeros are dropped. -/
theorem exists_stripZeros (cs : List Char) :
    ∃ k, cs = stripZeros cs ++ List.replicate k '0' := by
  cases cs with
  | nil => exact ⟨0, rfl⟩
  | cons c cs =>
    have hzeros : ∀ b ∈ cs.reverse.takeWhile (· = '0'), b = '0' := fun b hb => by
      simpa using List.mem_takeWhile_imp hb
    have hsplit : cs.reverse.takeWhile (· = '0') ++ cs.reverse.dropWhile (· = '0') = cs.reverse :=
      List.takeWhile_append_dropWhile
    refine ⟨(cs.reverse.takeWhile (· = '0')).length, ?_⟩
    rw [List.eq_replicate_of_mem hzeros] at hsplit
    have hcs := congrArg List.reverse hsplit
    rw [List.reverse_append, List.reverse_replicate, List.reverse_reverse] at hcs
    rw [stripZeros, List.cons_append, hcs]

theorem worth_stripZeros (whole fraction : List Char) :
    worth whole (stripZeros fraction) = worth whole fraction := by
  obtain ⟨k, hk⟩ := exists_stripZeros fraction
  conv_rhs => rw [hk]
  exact (worth_append_zeros _ _ k).symm

theorem mem_of_mem_stripZeros {c : Char} {cs : List Char} (h : c ∈ stripZeros cs) : c ∈ cs := by
  obtain ⟨k, hk⟩ := exists_stripZeros cs
  rw [hk]
  exact List.mem_append_left _ h

/-! Both sides of the point. -/

def wholePart (digits : List Char) (places : ℤ) : List Char :=
  if places ≤ 0 then ['0']
  else digits.take places.toNat ++ List.replicate (places.toNat - digits.length) '0'

/-- What follows the point, with zeros at its end. -/
def fractionPart (digits : List Char) (places : ℤ) : List Char :=
  List.replicate (-places).toNat '0' ++ digits.drop places.toNat

def shownFraction (digits : List Char) (places : ℤ) : List Char :=
  stripZeros (if (fractionPart digits places).isEmpty then ['0'] else fractionPart digits places)

theorem fixed_eq (digits : List Char) (places : ℤ) :
    fixed digits places = wholePart digits places ++ '.' :: shownFraction digits places := rfl

theorem wholePart_ne_nil (hne : digits ≠ []) (places : ℤ) : wholePart digits places ≠ [] := by
  unfold wholePart
  split
  · exact List.cons_ne_nil _ _
  · rename_i hplaces
    obtain ⟨c, cs, rfl⟩ := List.exists_cons_of_ne_nil hne
    rw [show places.toNat = places.toNat - 1 + 1 by omega, List.take_succ_cons, List.cons_append]
    exact List.cons_ne_nil _ _

theorem isDigit_of_mem_zeros {k : ℕ} {c : Char} (h : c ∈ List.replicate k '0') : c.isDigit := by
  rw [List.eq_of_mem_replicate h]
  rfl

theorem isDigit_of_mem_wholePart (h : ∀ c ∈ digits, c.isDigit) {places : ℤ} {c : Char}
    (hc : c ∈ wholePart digits places) : c.isDigit := by
  unfold wholePart at hc
  split at hc
  · rw [List.mem_singleton.1 hc]
    rfl
  · rcases List.mem_append.1 hc with hc | hc
    · exact h c (List.mem_of_mem_take hc)
    · exact isDigit_of_mem_zeros hc

theorem isDigit_of_mem_shownFraction (h : ∀ c ∈ digits, c.isDigit) {places : ℤ} {c : Char}
    (hc : c ∈ shownFraction digits places) : c.isDigit := by
  have hc := mem_of_mem_stripZeros hc
  split at hc
  · rw [List.mem_singleton.1 hc]
    rfl
  · rcases List.mem_append.1 hc with hc | hc
    · exact isDigit_of_mem_zeros hc
    · exact h c (List.mem_of_mem_drop hc)

theorem worth_fractionPart (digits : List Char) (places : ℤ) :
    worth (wholePart digits places) (fractionPart digits places) =
      digitsValue 0 digits * 10 ^ (places - digits.length) := by
  unfold wholePart fractionPart
  split
  · -- all digits lie behind the point, after zeros
    have hzeros : digitsValue 0 (['0'] ++ List.replicate (-places).toNat '0') = 0 := by
      rw [Text.digitsValue_append, Text.digitsValue_zeros]
      exact Nat.zero_mul _
    have hexp : places - digits.length = -(((-places).toNat + digits.length : ℕ) : ℤ) := by omega
    rw [show places.toNat = 0 by omega, List.drop_zero, worth, ← List.append_assoc,
      Text.digitsValue_append, hzeros, List.length_append, List.length_replicate, hexp, zpow_neg,
      zpow_natCast, div_eq_mul_inv]
  · have hzeros : (-places).toNat = 0 := by omega
    rw [hzeros, List.replicate_zero, List.nil_append, worth]
    rcases le_total digits.length places.toNat with hle | hle
    · -- zeros fill the places that are left before the point
      have hexp : places - digits.length = ((places.toNat - digits.length : ℕ) : ℤ) := by omega
      rw [List.take_of_length_le hle, List.drop_eq_nil_of_le hle, List.append_nil,
        Text.digitsValue_append, Text.digitsValue_zeros, hexp, zpow_natCast]
      simp
    · have hexp : places - digits.length = -((digits.length - places.toNat : ℕ) : ℤ) := by omega
      rw [Nat.sub_eq_zero_of_le hle, List.replicate_zero, List.append_nil, List.take_append_drop,
        List.length_drop, hexp, zpow_neg, zpow_natCast, div_eq_mul_inv]

/-- Zeros that are left out, and the zero that stands for no digits, are worth nothing. -/
theorem worth_shownFraction (digits : List Char) (places : ℤ) :
    worth (wholePart digits places) (shownFraction digits places) =
      digitsValue 0 digits * 10 ^ (places - digits.length) := by
  rw [shownFraction, worth_stripZeros, ← worth_fractionPart]
  split
  · rename_i hempty
    rw [List.isEmpty_iff.1 hempty]
    exact worth_append_zeros _ [] 1
  · rfl

/-! Signs and exponents. -/

theorem exponentNumber_exponentText (exponent : ℤ) :
    exponentNumber (exponentText exponent) = exponent := by
  have hsigned : Text.signed ((exponentText exponent).drop 1) =
      (decide (exponent < 0), (toString exponent.natAbs).toList) := by
    unfold exponentText
    split
    · rename_i h
      rw [decide_eq_true h]
      rfl
    · rename_i h
      rw [decide_eq_false h]
      rfl
  rw [exponentNumber, hsigned]
  simp only [Text.digitsValue_toString, Text.withSign, decide_eq_true_eq]
  split <;> omega

theorem ne_of_isDigit {c : Char} (h : c.isDigit) : c ≠ '.' ∧ c ≠ 'e' := by
  constructor <;> rintro rfl <;> cases h

theorem plainNumber_append (hwhole : ∀ c ∈ whole, c.isDigit) (fraction : List Char) :
    plainNumber (whole ++ '.' :: fraction) = worth whole fraction := by
  have hpoint : ∀ c ∈ whole, decide (c ≠ '.') = true := fun c hc =>
    decide_eq_true (ne_of_isDigit (hwhole c hc)).1
  have htake : ('.' :: fraction).takeWhile (fun c => decide (c ≠ '.')) = [] := rfl
  have hdrop : ('.' :: fraction).dropWhile (fun c => decide (c ≠ '.')) = '.' :: fraction := rfl
  rw [plainNumber, List.takeWhile_append_of_pos hpoint, List.dropWhile_append_of_pos hpoint, htake,
    hdrop, List.append_nil, List.drop_one, List.tail_cons]

/-- A text in its parts. -/
theorem number_ofList (negative : Bool) {exponent : List Char} (hne : whole ≠ [])
    (hwhole : ∀ c ∈ whole, c.isDigit) (hfraction : ∀ c ∈ fraction, c.isDigit)
    (hexponent : exponent = [] ∨ ∃ cs, exponent = 'e' :: cs) :
    number (String.ofList (if negative then '-' :: (whole ++ '.' :: fraction ++ exponent)
      else whole ++ '.' :: fraction ++ exponent)) =
      (if negative then -1 else 1) * (worth whole fraction * 10 ^ exponentNumber exponent) := by
  have hsigned : Text.signed (if negative then '-' :: (whole ++ '.' :: fraction ++ exponent)
      else whole ++ '.' :: fraction ++ exponent) =
        (negative, whole ++ '.' :: fraction ++ exponent) := by
    cases negative with
    | true => rfl
    | false =>
      rw [if_neg (by decide), List.append_assoc]
      exact Text.signed_append (fun c hc => Text.isDecimal_of_isDigit (hwhole c hc)) hne _
  have hplain : ∀ c ∈ whole ++ '.' :: fraction, decide (c ≠ 'e') = true := by
    refine List.forall_mem_append.2 ⟨fun c hc => ?_, List.forall_mem_cons.2 ⟨rfl, fun c hc => ?_⟩⟩
    · exact decide_eq_true (ne_of_isDigit (hwhole c hc)).2
    · exact decide_eq_true (ne_of_isDigit (hfraction c hc)).2
  have hrest : exponent.takeWhile (fun c => decide (c ≠ 'e')) = [] ∧
      exponent.dropWhile (fun c => decide (c ≠ 'e')) = exponent := by
    rcases hexponent with rfl | ⟨cs, rfl⟩ <;> exact ⟨rfl, rfl⟩
  rw [number, String.toList_ofList, hsigned]
  dsimp only
  rw [List.takeWhile_append_of_pos hplain, List.dropWhile_append_of_pos hplain, hrest.1, hrest.2,
    List.append_nil, plainNumber_append hwhole]
  cases negative <;> simp

theorem number_fixed (hdigits : ∀ c ∈ digits, c.isDigit) (hne : digits ≠ []) (negative : Bool)
    (places : ℤ) {exponent : List Char} (hexponent : exponent = [] ∨ ∃ cs, exponent = 'e' :: cs) :
    number (String.ofList (if negative then '-' :: (fixed digits places ++ exponent)
      else fixed digits places ++ exponent)) =
      (if negative then -1 else 1) *
        (digitsValue 0 digits * 10 ^ (places - digits.length + exponentNumber exponent)) := by
  have hten : (10 : ℚ) ≠ 0 := by norm_num
  rw [fixed_eq, number_ofList negative (wholePart_ne_nil hne places)
    (fun c hc => isDigit_of_mem_wholePart hdigits hc)
    (fun c hc => isDigit_of_mem_shownFraction hdigits hc) hexponent, worth_shownFraction, mul_assoc,
    ← zpow_add₀ hten]

/-- However digits are laid out, their text stands for the same number. -/
theorem number_layOut (hdigits : ∀ c ∈ digits, c.isDigit) (hne : digits ≠ []) (low high : ℤ)
    (negative : Bool) (exponent : ℤ) :
    number (layOut low high negative digits exponent) =
      (if negative then -1 else 1) *
        (digitsValue 0 digits * 10 ^ (exponent + 1 - digits.length)) := by
  have hempty : digits.isEmpty = false := by simpa using hne
  have hplain (places : ℤ) := number_fixed hdigits hne negative places (.inl rfl)
  have hscaled := number_fixed hdigits hne negative 1 (.inr ⟨_, rfl⟩ : exponentText exponent = [] ∨ _)
  rw [exponentNumber_exponentText] at hscaled
  simp only [List.append_nil, show exponentNumber [] = 0 from rfl, add_zero] at hplain
  unfold layOut
  dsimp only
  by_cases hbetween : (low < exponent && exponent < high) = true
  · rw [if_pos hbetween, hplain]
  · rw [if_neg hbetween, hempty, if_neg Bool.false_ne_true]
    by_cases hzero : exponent = 0
    · rw [if_pos hzero, List.append_nil, hplain, hzero, zero_add]
    · rw [if_neg hzero, hscaled, add_comm exponent, add_sub_right_comm]

example : layOut (-5) 12 true ['1', '2', '5'] 20 = "-1.25e+20" ∧
    number "-1.25e+20" = -125 * 10 ^ 18 := by decide +kernel

end Decimal

end Reckoner
