import Reckoner.Literal
/-!
Numbers made of ASCII digits. A literal is well formed if both its parts are such digits and it has a
fraction only after a point.
-/
namespace Reckoner

namespace Text

theorem digit_bounds {c : Char} (h : c.isDigit) : 48 ≤ c.toNat ∧ c.toNat ≤ 57 := by
  simp only [Char.isDigit, Bool.and_eq_true, decide_eq_true_eq] at h
  exact h

theorem isDigit_of_mem_toString {n : Nat} {c : Char} (h : c ∈ (toString n).toList) : c.isDigit := by
  have hmem : c ∈ Nat.toDigits 10 n := by
    simpa [toString, Nat.repr] using h
  exact Nat.isDigit_of_mem_toDigits (by decide) (by decide) hmem

theorem decimalValue?_of_isDigit {c : Char} (h : c.isDigit) :
    decimalValue? c = some (c.toNat - 48) := by
  obtain ⟨hlo, hhi⟩ := digit_bounds h
  have hrun : (decide (48 ≤ c.toNat) && decide (c.toNat < 48 + 10)) = true := by
    simp only [Bool.and_eq_true, decide_eq_true_eq]
    omega
  simp only [decimalValue?, decimalZeros, List.find?_cons, hrun, Option.map_some]

theorem isDigit_of_isDigit {c : Char} (h : c.isDigit) : isDigit c = true := by
  simp [isDigit, decimalValue?_of_isDigit h]

end Text

/-- ASCII digits on both sides of the point, and a fraction only after a point. -/
structure Literal.WellFormed (l : Literal) : Prop where
  whole : ∀ c ∈ l.whole.toList, c.isDigit
  fraction : ∀ c ∈ l.fraction.toList, c.isDigit
  point : l.point = false → l.fraction = ""

end Reckoner
