import Reckoner.Grammar
/-!
The first token. The rules of the grammar look no further than the token ahead; here each look is a
question of its own (`after?`, `suffix?`), and the rules are restated with it.
-/
namespace Reckoner.Grammar

/-- The tokens after an operator at the front. -/
def after? (k : Key) : List Token → Option (List Token)
  | .operator k' :: rest => if k' = k then some rest else none
  | _ => none

/-- A suffix operator at the front, and the tokens after it. -/
def suffix? : List Token → Option (SuffixOperator × List Token)
  | .operator (.suffix op) :: rest => some (op, rest)
  | _ => none

theorem after?_eq_some_iff {k : Key} {ts rest : List Token} :
    after? k ts = some rest ↔ ts = .operator k :: rest := by
  fun_cases after? k ts <;> simp_all [eq_comm]

theorem isKey_iff {k : Key} {t : Token} : t.isKey k = true ↔ t = .operator k := by
  cases t <;> simp [Token.isKey, eq_comm]

theorem suffix?_eq_some_iff {ts rest : List Token} {op : SuffixOperator} :
    suffix? ts = some (op, rest) ↔ ts = .operator (.suffix op) :: rest := by
  fun_cases suffix? ts <;> simp_all

theorem skipClosing_eq (ts : List Token) : skipClosing ts = (after? .closing ts).getD ts := by
  fun_cases skipClosing ts with
  | case1 rest => rfl
  | case2 =>
    rename_i h
    cases ha : after? .closing ts with
    | none => rfl
    | some rest => exact absurd (after?_eq_some_iff.1 ha) (h rest)

theorem skipMinus_eq (ts : List Token) :
    skipMinus ts = ((after? (.binary .minus) ts).elim (false, ts) (true, ·)) := by
  fun_cases skipMinus ts with
  | case1 rest => rfl
  | case2 =>
    rename_i h
    cases ha : after? (.binary .minus) ts with
    | none => rfl
    | some rest => exact absurd (after?_eq_some_iff.1 ha) (h rest)

variable (mode : Mode) (depth : Nat) (sub : Rule → List Token → Outcome)

theorem suffixes_eq (x : Dual) (ts : List Token) :
    suffixes mode x ts = match suffix? ts with
      | some (op, rest) => do suffixes mode (← applySuffix mode op x) rest
      | none => return ⟨x, ts⟩ := by
  fun_cases suffixes mode x ts with
  | case1 op rest => rfl
  | case2 =>
    rename_i h
    cases hs : suffix? ts with
    | none => rfl
    | some s => exact absurd (suffix?_eq_some_iff.1 hs) (h _ _)

theorem factor_eq (ts : List Token) :
    factor mode depth sub ts = do
      let base ← sub .suffix ts
      match after? (.binary .power) base.rest with
      | some rest =>
        let exponent ← sub .signedFactor rest
        return ⟨← orAbort (base.value.power mode.limit depth exponent.value), exponent.rest⟩
      | none => return base := by
  unfold factor
  congr 1
  funext base
  split
  · rename_i rest h
    simp [h, after?]
  · rename_i h
    cases ha : after? (.binary .power) base.rest with
    | none => rfl
    | some rest => exact absurd (after?_eq_some_iff.1 ha) (h rest)

end Reckoner.Grammar
