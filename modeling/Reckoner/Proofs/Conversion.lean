import Reckoner.Codec.Reader
import Reckoner.Proofs.Failures
/-!
Numbers made of any digits. One whose digits all have a place value can be converted, exactly and to a
real, and no other can (`Literal.exists_exact_iff`). The real is the number that is shown; digits
that are not shown, for want of a point, count for the exact value alone, so that the two differ
unless these are zeros (`Literal.agrees_iff`).
-/
namespace Reckoner

namespace Text

variable {c : Char} {cs : List Char} {s : String}

theorem not_isBlank_of_isDigit (h : isDigit c) : isBlank c = false := by
  rw [isDigit, Bool.or_eq_true] at h
  rcases h with h | h
  · exact not_isBlank_of_isDecimal h
  · have hapart : ∀ digits ∈ detachedDigits.toList, ∀ range ∈ blanks.toList,
        range.2 < digits.1 ∨ digits.2 < range.1 := by decide
    obtain ⟨digits, hdigits, hin⟩ := Array.any_eq_true'.1 h
    simp only [isBlank, Ranges.has, Bool.eq_false_iff, ne_eq, Array.any_eq_true']
    rintro ⟨range, hrange, hin'⟩
    have hbetween := hapart digits (Array.mem_toList_iff.2 hdigits) range
      (Array.mem_toList_iff.2 hrange)
    simp only [Bool.and_eq_true, decide_eq_true_eq] at hin hin'
    omega

theorem not_isDigit_of_mem : ∀ c ∈ ['-', '+', '_'], isDigit c = false := by
  simp [isDigit, decimalValue?, decimalZeros, detachedDigits, Ranges.has]

theorem signed_of_isDigit (h : ∀ c ∈ cs, isDigit c) : signed cs = (false, cs) := by
  unfold signed
  split
  · exact absurd (h '-' List.mem_cons_self) (by simp [not_isDigit_of_mem])
  · exact absurd (h '+' List.mem_cons_self) (by simp [not_isDigit_of_mem])
  · rfl

/-- A run of digits goes on to the end just if all of them have a place value. -/
theorem digitRun_rest_eq_nil_iff (h : ∀ c ∈ cs, isDigit c) (value count : Nat) :
    (digitRun value count cs).rest = [] ↔ ∀ c ∈ cs, isDecimal c := by
  induction cs generalizing value count with
  | nil => simp [digitRun]
  | cons c cs ih =>
    have hcs : ∀ c ∈ cs, isDigit c := fun c hc => h c (List.mem_cons_of_mem _ hc)
    have hunderscore : c ≠ '_' := by
      rintro rfl
      exact absurd (h '_' List.mem_cons_self) (by simp [not_isDigit_of_mem])
    rw [List.forall_mem_cons, isDecimal]
    unfold digitRun
    cases hc : decimalValue? c with
    | some d => simp [ih hcs]
    | none =>
      dsimp only
      split
      · exact absurd rfl hunderscore
      · simp

/-- Digits are read as an integer just if all of them have a place value, and there are few enough. -/
theorem exists_readInteger_iff (h : ∀ c ∈ s.toList, isDigit c) (hs : s.toList ≠ []) :
    (∃ n, readInteger s = .ok n) ↔ (∀ c ∈ s.toList, isDecimal c) ∧ s.length ≤ digitLimit := by
  constructor
  · rintro ⟨n, hn⟩
    have hdecimal : ∀ c ∈ s.toList, isDecimal c := by
      rw [← digitRun_rest_eq_nil_iff h 0 0]
      have htrim : trim isIntegerBlank s.toList = s.toList :=
        trim_eq_self fun c hc => by rw [isIntegerBlank, not_isBlank_of_isDigit (h c hc), Bool.false_and]
      simp only [readInteger, htrim, signed_of_isDigit h] at hn
      obtain ⟨run, hrun, hn⟩ := bind_eq_ok_iff.1 hn
      unfold DigitRun.checked at hrun
      split_ifs at hrun
      obtain rfl := Except.ok.inj hrun
      split at hn
      · rename_i hrest
        exact List.isEmpty_iff.1 hrest
      · cases hn
    refine ⟨hdecimal, ?_⟩
    rw [readInteger_digits hdecimal hs] at hn
    split at hn
    · cases hn
    · omega
  · rintro ⟨hdecimal, hshort⟩
    exact ⟨_, (readInteger_digits hdecimal hs).trans (if_neg (Nat.not_lt.2 hshort))⟩

end Text

namespace Literal

open Text

variable {l : Literal} {files : Files} {separator : String}

theorem typedText_shown (l : Literal) : l.shown.typedText = l.typedText := by
  unfold shown
  split
  · rfl
  · rename_i h
    simp only [typedText, h, Bool.false_eq_true, if_false]

/-- A number of digits of any kind has an exact value just if it can be converted. -/
theorem exists_exact_iff (hwhole : Codec.isDigits l.whole) (hfraction : Codec.isDigits l.fraction) :
    (∃ q, l.exact = .ok q) ↔ l.Convertible := by
  constructor
  · rintro ⟨q, hq⟩
    obtain ⟨n, hn, -⟩ := bind_eq_ok_iff.1 hq
    have hintegral : ∀ c ∈ l.integral.toList, isDigit c := by
      unfold integral
      split
      · exact List.all_eq_true.1 (by decide)
      · exact List.all_eq_true.1 hwhole
    have hdigits : ∀ c ∈ (l.integral ++ l.fraction).toList, isDigit c := by
      intro c hc
      rw [String.toList_append, List.mem_append] at hc
      exact hc.elim (hintegral c) (List.all_eq_true.1 hfraction c)
    have hne : (l.integral ++ l.fraction).toList ≠ [] := by simp [integral_ne_empty]
    obtain ⟨hdecimal, hshort⟩ := (exists_readInteger_iff hdigits hne).1 ⟨n, hn⟩
    rw [String.toList_append, List.forall_mem_append] at hdecimal
    rw [String.length_append] at hshort
    refine ⟨?_, hdecimal.2, hshort⟩
    by_cases hempty : l.whole.isEmpty
    · intro c hc
      rw [String.isEmpty_iff.1 hempty] at hc
      cases hc
    · rw [integral, if_neg hempty] at hdecimal
      exact hdecimal.1
  · intro h
    exact ⟨_, h.exact_eq⟩

theorem number_eq_div (l : Literal) :
    l.number = (digitsValue 0 l.integral.toList * 10 ^ l.fraction.length +
      digitsValue 0 l.fraction.toList) / 10 ^ l.fraction.length := by
  rw [number, digitsValue_append, digitsValue_eq, Rat.mkRat_eq_div, String.length_toList,
    show powTen l.fraction.length = 10 ^ l.fraction.length from rfl]
  push_cast
  rfl

/-- The digits that are not shown make the difference. -/
theorem number_eq_shown_iff :
    l.number = l.shown.number ↔ l.point = true ∨ digitsValue 0 l.fraction.toList = 0 := by
  cases hpoint : l.point with
  | true => simp [shown_of_point hpoint]
  | false =>
    have hpower : (10 : Rat) ^ l.fraction.length ≠ 0 := by positivity
    have hplain : l.shown.number = digitsValue 0 l.integral.toList := by
      rw [number_eq_div, shown_integral, shown_of_not_point hpoint]
      simp [digitsValue]
    rw [hplain, number_eq_div, div_eq_iff hpower]
    simp

/-- Both conversions come to the same number just if every digit has a place value and none but zeros is
not shown. Numbers with too many digits are left out. -/
theorem agrees_iff (hwhole : Codec.isDigits l.whole) (hfraction : Codec.isDigits l.fraction)
    (hshort : l.integral.length + l.fraction.length ≤ digitLimit) :
    (∃ q, l.exact = .ok q ∧ l.real = .ok (.rational q)) ↔
      (∀ c ∈ l.whole.toList ++ l.fraction.toList, isDecimal c) ∧
        (l.point = true ∨ digitsValue 0 l.fraction.toList = 0) := by
  constructor
  · rintro ⟨q, hq, hreal⟩
    have hconvertible := (exists_exact_iff hwhole hfraction).1 ⟨q, hq⟩
    rw [hconvertible.exact_eq] at hq
    obtain rfl := Except.ok.inj hq
    rw [hconvertible.real_eq] at hreal
    have hnumber := Reals.Term.rational.inj (Except.ok.inj hreal)
    exact ⟨List.forall_mem_append.2 ⟨hconvertible.whole, hconvertible.fraction⟩,
      number_eq_shown_iff.1 hnumber.symm⟩
  · rintro ⟨hdecimal, hzeros⟩
    obtain ⟨hdecimal, hdecimal'⟩ := List.forall_mem_append.1 hdecimal
    have hconvertible : l.Convertible := ⟨hdecimal, hdecimal', hshort⟩
    refine ⟨l.number, hconvertible.exact_eq, ?_⟩
    rw [hconvertible.real_eq, number_eq_shown_iff.2 hzeros]

/-- A text shows a number: digits, and behind a separator more of them, count by their places. -/
def Shows (separator s : String) (q : Rat) : Prop :=
  ∃ whole fraction : String, (∀ c ∈ whole.toList ++ fraction.toList, isDecimal c) ∧
    (s = whole ∧ fraction = "" ∨ s = whole ++ separator ++ fraction) ∧
    q = mkRat (digitsValue 0 (whole.toList ++ fraction.toList)) (powTen fraction.length)

theorem digitsValue_integral (l : Literal) (ds : List Char) :
    digitsValue 0 (l.integral.toList ++ ds) = digitsValue 0 (l.whole.toList ++ ds) := by
  unfold integral
  split
  · rename_i hempty
    rw [String.isEmpty_iff.1 hempty]
    rfl
  · rfl

/-- A text with its points replaced. -/
def localized (separator s : String) : String :=
  String.join (s.toList.map fun c => if c = '.' then separator else c.toString)

theorem toList_localized (separator s : String) :
    (localized separator s).toList =
      s.toList.flatMap fun c => if c = '.' then separator.toList else [c] := by
  rw [localized, String.toList_join, List.flatMap_map]
  congr 1
  funext c
  split <;> simp

theorem localized_append (separator s s' : String) :
    localized separator (s ++ s') = localized separator s ++ localized separator s' := by
  simp [← String.toList_inj, toList_localized]

theorem localized_eq_self {s : String}
    (hs : ∀ c ∈ s.toList, (if c = '.' then separator.toList else [c]) = [c]) :
    localized separator s = s := by
  rw [← String.toList_inj, toList_localized, List.flatMap_congr hs, List.flatMap_singleton']

theorem localized_point (separator : String) : localized separator "." = separator := by
  simp [← String.toList_inj, toList_localized]

/-- A text is localized by putting for its points what a point alone becomes. -/
theorem localize_eq (h : Settings.localize files "." = .ok separator) (s : String) :
    Settings.localize files s = .ok (localized separator s) := by
  unfold Settings.localize at h ⊢
  obtain ⟨setting, hsetting, h⟩ := bind_eq_ok_iff.1 h
  rw [hsetting]
  change (if !setting.truthy then _ else _) = _ at h
  change (if !setting.truthy then _ else _) = _
  split at h
  · rename_i hfalsy
    rw [if_pos hfalsy]
    obtain rfl : "." = separator := Except.ok.inj h
    rw [localized_eq_self]
    · rfl
    · intro c _
      split
      · rename_i hc
        rw [hc]
        rfl
      · rfl
  · rename_i htruthy
    rw [if_neg htruthy]
    cases setting with
    | text replacement =>
      obtain rfl : localized replacement "." = separator := Except.ok.inj h
      rw [localized_point]
      rfl
    | _ => cases h

theorem localized_of_isDecimal {s : String} (hs : ∀ c ∈ s.toList, isDecimal c) :
    localized separator s = s := by
  refine localized_eq_self fun c hc => if_neg ?_
  rintro rfl
  exact absurd (hs '.' hc) (by decide)

/-- The number that the display of a number shows. -/
theorem Convertible.display_shows (h : l.Convertible)
    (hfiles : Settings.localize files "." = .ok separator) :
    ∃ s, l.display files = .ok s ∧ Shows separator s l.shown.number := by
  have hnumeric := h.numeric_shown
  refine ⟨_, localize_eq hfiles _, l.shown.whole, l.shown.fraction,
    List.forall_mem_append.2 ⟨hnumeric.whole, hnumeric.fraction⟩, ?_, ?_⟩
  · rw [← typedText_shown, typedText, localized_append, localized_of_isDecimal hnumeric.whole]
    cases hpoint : l.shown.point with
    | true =>
      right
      rw [if_pos rfl, localized_append, localized_point, localized_of_isDecimal hnumeric.fraction,
        String.append_assoc]
    | false =>
      left
      exact ⟨by simp [localized], hnumeric.point hpoint⟩
  · rw [number, digitsValue_integral]

end Literal

end Reckoner
