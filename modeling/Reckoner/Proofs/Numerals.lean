import Mathlib.Tactic.Ring
import Reckoner.Proofs.Digits
/-!
What numerals are worth. A run of decimal digits, of whatever script, is read as the number that its
digits are the places of (`digitsValue`). A literal of such digits is the number `Literal.number`, in
both ways of reading it, unless it has too many digits.
-/
namespace Reckoner

namespace Text

/-- Whether a character has a place value. -/
def isDecimal (c : Char) : Bool := (decimalValue? c).isSome

/-- The value of digits after a number worth `value`. -/
def digitsValue (value : Nat) (cs : List Char) : Nat :=
  cs.foldl (fun n c => 10 * n + (decimalValue? c).getD 0) value

variable {c : Char} {cs ds rest : List Char}

theorem digitsValue_append (value : Nat) (cs ds : List Char) :
    digitsValue value (cs ++ ds) = digitsValue (digitsValue value cs) ds :=
  List.foldl_append

/-- The digits before count by their places. -/
theorem digitsValue_eq (value : Nat) (cs : List Char) :
    digitsValue value cs = value * 10 ^ cs.length + digitsValue 0 cs := by
  induction cs generalizing value with
  | nil => simp [digitsValue]
  | cons c cs ih =>
    have hvalue := ih (10 * value + (decimalValue? c).getD 0)
    have hzero := ih (10 * 0 + (decimalValue? c).getD 0)
    simp only [digitsValue, List.foldl_cons, List.length_cons, Nat.pow_succ] at hvalue hzero ⊢
    rw [hvalue, hzero]
    ring

theorem digitRun_append (h : ∀ c ∈ cs, isDecimal c) (value count : Nat) (rest : List Char) :
    digitRun value count (cs ++ rest) =
      digitRun (digitsValue value cs) (count + cs.length) rest := by
  induction cs generalizing value count with
  | nil => rfl
  | cons c cs ih =>
    obtain ⟨d, hd⟩ := Option.isSome_iff_exists.1 (h c List.mem_cons_self)
    have hstep : digitRun value count (c :: (cs ++ rest)) =
        digitRun (10 * value + d) (count + 1) (cs ++ rest) := by
      rw [digitRun]
      · simp only [hd]
      · rintro c' cs' rfl
        cases hd
    rw [List.cons_append, hstep, ih fun c hc => h c (List.mem_cons_of_mem _ hc)]
    simp [digitsValue, hd, Nat.add_comm, Nat.add_left_comm]

theorem digitRun_digits (h : ∀ c ∈ cs, isDecimal c) :
    digitRun 0 0 cs = ⟨digitsValue 0 cs, cs.length, []⟩ := by
  have happend := digitRun_append h 0 0 []
  rw [List.append_nil, Nat.zero_add] at happend
  exact happend

/-- The code points of decimal digits are in the runs of ten. -/
theorem exists_zero_of_isDecimal (h : isDecimal c) :
    ∃ first ∈ decimalZeros, first ≤ c.toNat ∧ c.toNat < first + 10 := by
  unfold isDecimal decimalValue? at h
  rw [Option.isSome_map, List.find?_isSome] at h
  simpa using h

theorem not_isBlank_of_isDecimal (h : isDecimal c) : isBlank c = false := by
  obtain ⟨first, hfirst, hle, hlt⟩ := exists_zero_of_isDecimal h
  have hapart : ∀ first ∈ decimalZeros, ∀ range ∈ blanks.toList,
      range.2 < first ∨ first + 10 ≤ range.1 := by decide
  simp only [isBlank, Ranges.has, Bool.eq_false_iff, ne_eq, Array.any_eq_true']
  rintro ⟨range, hrange, hin⟩
  have hrange' : range ∈ blanks.toList := Array.mem_toList_iff.2 hrange
  have := hapart first hfirst range hrange'
  simp only [Bool.and_eq_true, decide_eq_true_eq] at hin
  omega

theorem isIntegerBlank_of_isDecimal (h : isDecimal c) : isIntegerBlank c = false := by
  simp [isIntegerBlank, not_isBlank_of_isDecimal h]

theorem trim_eq_self {p : Char → Bool} (h : ∀ c ∈ cs, p c = false) : trim p cs = cs := by
  have hdrop : ∀ ds : List Char, (∀ c ∈ ds, p c = false) → ds.dropWhile p = ds := by
    intro ds hds
    cases ds with
    | nil => rfl
    | cons c ds => simp [List.dropWhile, hds c List.mem_cons_self]
  rw [trim, hdrop cs h, hdrop _ fun c hc => h c (List.mem_reverse.1 hc), List.reverse_reverse]

/-- Digits have no sign. -/
theorem signed_append (h : ∀ c ∈ cs, isDecimal c) (hne : cs ≠ []) (rest : List Char) :
    signed (cs ++ rest) = (false, cs ++ rest) := by
  obtain ⟨c, cs, rfl⟩ := List.exists_cons_of_ne_nil hne
  have hc : isDecimal c := h c List.mem_cons_self
  unfold signed
  split
  · rename_i heq
    obtain rfl := (List.cons.inj heq).1
    cases hc
  · rename_i heq
    obtain rfl := (List.cons.inj heq).1
    cases hc
  · rfl

theorem signed_eq_self (h : ∀ c ∈ cs, isDecimal c) (hne : cs ≠ []) : signed cs = (false, cs) := by
  have happend := signed_append h hne []
  rwa [List.append_nil] at happend

/-- Reads digits with nothing around them. -/
theorem readInteger_digits {s : String} (h : ∀ c ∈ s.toList, isDecimal c) (hs : s.toList ≠ []) :
    readInteger s =
      if digitLimit < s.length then .error .tooManyDigits
      else .ok (digitsValue 0 s.toList : Int) := by
  have htrim := trim_eq_self fun c hc => isIntegerBlank_of_isDecimal (h c hc)
  have hsigned := signed_eq_self h hs
  have hcount : s.toList.length ≠ 0 := fun hzero => hs (List.length_eq_zero_iff.1 hzero)
  simp only [readInteger, htrim, hsigned, digitRun_digits h, DigitRun.checked, if_neg hcount]
  rw [String.length_toList]
  split <;> rfl

theorem scaled_neg (n : Int) (k : Nat) : scaled n (0 - k) = mkRat n (powTen k) := by
  unfold scaled
  split
  · obtain rfl : k = 0 := by omega
    simp [powTen, Rat.mkRat_one]
  · rw [zero_sub, Int.natAbs_neg, Int.natAbs_natCast]

/-- Reads digits with a point behind them, and digits behind the point. -/
theorem readRational_point {s : String} (hs : s.toList = cs ++ '.' :: ds)
    (hcs : ∀ c ∈ cs, isDecimal c) (hds : ∀ c ∈ ds, isDecimal c) (hne : cs ≠ []) :
    readRational s =
      if digitLimit < cs.length ∨ digitLimit < ds.length then .error .tooManyDigits
      else .ok (mkRat (digitsValue 0 (cs ++ ds)) (powTen ds.length)) := by
  have htrim : trim isBlank s.toList = s.toList := by
    refine trim_eq_self fun c hc => ?_
    rw [hs, List.mem_append, List.mem_cons] at hc
    rcases hc with hc | rfl | hc
    · exact not_isBlank_of_isDecimal (hcs c hc)
    · simp [isBlank, Ranges.has, blanks]
    · exact not_isBlank_of_isDecimal (hds c hc)
  have hsigned : signed s.toList = (false, s.toList) := by
    rw [hs]
    exact signed_append hcs hne _
  have hwhole : digitRun 0 0 s.toList = ⟨digitsValue 0 cs, cs.length, '.' :: ds⟩ := by
    rw [hs, digitRun_append hcs, Nat.zero_add]
    rfl
  have hcount : cs.length ≠ 0 := fun hzero => hne (List.length_eq_zero_iff.1 hzero)
  simp only [readRational, htrim, hsigned, hwhole, digitRun_digits hds]
  rw [if_neg (by simp [hcount])]
  by_cases hlong : digitLimit < cs.length ∨ digitLimit < ds.length
  · rw [if_pos hlong, if_pos (by simpa using hlong)]
  · rw [if_neg hlong, if_neg (by simpa using hlong), digitsValue_append,
      digitsValue_eq (digitsValue 0 cs) ds]
    exact congrArg Except.ok (scaled_neg _ _)

/-- Reads digits alone. -/
theorem readRational_digits {s : String} (h : ∀ c ∈ s.toList, isDecimal c) (hs : s.toList ≠ []) :
    readRational s =
      if digitLimit < s.length then .error .tooManyDigits
      else .ok (digitsValue 0 s.toList : Rat) := by
  have htrim := trim_eq_self fun c hc => not_isBlank_of_isDecimal (h c hc)
  have hsigned := signed_eq_self h hs
  have hcount : s.toList.length ≠ 0 := fun hzero => hs (List.length_eq_zero_iff.1 hzero)
  simp only [readRational, htrim, hsigned, digitRun_digits h, DigitRun.checked, if_neg hcount]
  rw [String.length_toList]
  split
  · rfl
  · refine congrArg Except.ok ?_
    simp [scaled, withSign, powTen]

end Text

namespace Literal

open Text

/-- Decimal digits on both sides of the point, and a fraction only after a point. -/
structure Numeric (l : Literal) : Prop where
  whole : ∀ c ∈ l.whole.toList, isDecimal c
  fraction : ∀ c ∈ l.fraction.toList, isDecimal c
  point : l.point = false → l.fraction = ""

/-- The digits before the point, with a zero where there are none. -/
def integral (l : Literal) : String := if l.whole.isEmpty then "0" else l.whole

/-- The number that the digits are the places of. -/
def number (l : Literal) : Rat :=
  mkRat (digitsValue 0 (l.integral.toList ++ l.fraction.toList)) (powTen l.fraction.length)

variable {l : Literal}

theorem WellFormed.numeric (h : l.WellFormed) : l.Numeric where
  whole c hc := by rw [isDecimal, decimalValue?_of_isDigit (h.whole c hc), Option.isSome_some]
  fraction c hc := by rw [isDecimal, decimalValue?_of_isDigit (h.fraction c hc), Option.isSome_some]
  point := h.point

theorem Numeric.integral (h : l.Numeric) : ∀ c ∈ l.integral.toList, isDecimal c := by
  unfold Literal.integral
  split
  · exact List.all_eq_true.1 (by decide)
  · exact h.whole

theorem integral_ne_empty (l : Literal) : l.integral ≠ "" := by
  unfold Literal.integral
  split
  · decide
  · rename_i hwhole
    simpa using hwhole

theorem exact_eq (h : l.Numeric) :
    l.exact = if digitLimit < l.integral.length + l.fraction.length then .error .tooManyDigits
      else .ok l.number := by
  have hdigits : ∀ c ∈ (l.integral ++ l.fraction).toList, isDecimal c := by
    intro c hc
    rw [String.toList_append, List.mem_append] at hc
    exact hc.elim (h.integral c) (h.fraction c)
  have hread := readInteger_digits hdigits (by simp [integral_ne_empty])
  rw [String.length_append] at hread
  change (do return mkRat (← readInteger (l.integral ++ l.fraction)) _) = _
  rw [hread]
  split
  · rfl
  · simp only [number, String.toList_append]
    rfl

theorem real_eq (h : l.Numeric) :
    l.real = if digitLimit < l.integral.length ∨ digitLimit < l.fraction.length
      then .error .tooManyDigits else .ok (.rational l.number) := by
  change Reals.Term.rational <$> readRational (l.integral ++ _) = _
  cases hpoint : l.point with
  | false =>
    have hfraction := h.point hpoint
    have hread := readRational_digits h.integral (by simp [integral_ne_empty])
    rw [if_neg (by decide), String.append_empty, hread, number, hfraction]
    by_cases hlong : digitLimit < l.integral.length
    · rw [if_pos hlong, if_pos (.inl hlong)]
      rfl
    · rw [if_neg hlong, if_neg (by simpa using hlong)]
      simp only [String.toList_empty, List.append_nil, String.length_empty, powTen]
      rw [show Nat.pow 10 0 = 1 from rfl, Rat.mkRat_one]
      rfl
  | true =>
    have hread := readRational_point (s := l.integral ++ ("." ++ l.fraction)) (by simp)
      h.integral h.fraction (by simp [integral_ne_empty])
    rw [if_pos rfl, hread, String.length_toList, String.length_toList]
    split <;> rfl

end Literal

end Reckoner
