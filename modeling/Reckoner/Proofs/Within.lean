import Reckoner.Codec.Writer
/-!
Tokens at every depth. A collapsed token holds the expression that it came from, which may have
collapsed tokens of its own. `Expression.within` lists the tokens of an expression with those inside
them, and `Expression.nesting` counts how deeply collapsed tokens nest.
-/
namespace Reckoner

namespace Token

/-- What the value of a collapsed token is recognised by. -/
def identity? : Token → Option Reals.Identity
  | collapsed name value _ _ _ => some (Codec.valueIdentity name value)
  | _ => none

/-- The name of a collapsed token. Occurrences with one name are the same token. -/
def name? : Token → Option Nat
  | collapsed name _ _ _ _ => some name
  | _ => none

end Token

mutual

/-- The tokens inside a token, at every depth. -/
def Token.within : Token → List Token
  | .collapsed _ _ source _ _ => Expression.within source
  | _ => []

/-- The tokens of an expression and those inside them, at every depth. -/
def Expression.within : Expression → List Token
  | [] => []
  | t :: ts => t :: (t.within ++ Expression.within ts)

end

mutual

/-- How deeply collapsed tokens nest in a token, itself included. -/
def Token.nesting : Token → Nat
  | .collapsed _ _ source _ _ => Expression.nesting source + 1
  | _ => 0

/-- How deeply collapsed tokens nest in an expression. -/
def Expression.nesting : Expression → Nat
  | [] => 0
  | t :: ts => max t.nesting (Expression.nesting ts)

end

namespace Expression

/-- The identities of the values in an expression, at every depth. -/
def identities (e : Expression) : List Reals.Identity := e.within.filterMap Token.identity?

theorem within_append (e e' : Expression) : (e ++ e').within = e.within ++ e'.within := by
  induction e with
  | nil => rfl
  | cons t e ih => simp [within, ih]

theorem mem_within_iff {e : Expression} {t : Token} :
    t ∈ e.within ↔ ∃ s ∈ e, t = s ∨ t ∈ s.within := by
  induction e with
  | nil => simp [within]
  | cons s e ih =>
    simp only [within, List.mem_cons, List.mem_append, ih, exists_eq_or_imp, or_assoc]

theorem mem_within_of_mem {e : Expression} {t : Token} (h : t ∈ e) : t ∈ e.within :=
  mem_within_iff.2 ⟨t, h, .inl rfl⟩

theorem nesting_le_of_mem {e : Expression} {t : Token} (h : t ∈ e) : t.nesting ≤ e.nesting := by
  induction e with
  | nil => cases h
  | cons s e ih =>
    rcases List.mem_cons.1 h with rfl | h
    · exact Nat.le_max_left _ _
    · exact Nat.le_trans (ih h) (Nat.le_max_right _ _)

theorem mem_identities {e : Expression} {i : Reals.Identity} :
    i ∈ e.identities ↔ ∃ t ∈ e.within, t.identity? = some i :=
  List.mem_filterMap

end Expression

mutual

theorem Token.within_trans : ∀ {t s r : Token}, s ∈ t.within → r ∈ s.within → r ∈ t.within
  | .collapsed _ _ _ _ _, _, _, hs, hr => Expression.within_trans hs hr

/-- What is inside a token is inside everything that the token is inside of. -/
theorem Expression.within_trans : ∀ {e : Expression} {s r : Token},
    s ∈ e.within → r ∈ s.within → r ∈ e.within
  | t :: e, s, r, hs, hr => by
    simp only [Expression.within, List.mem_cons, List.mem_append] at hs ⊢
    rcases hs with rfl | hs | hs
    · exact .inr (.inl hr)
    · exact .inr (.inl (Token.within_trans hs hr))
    · exact .inr (.inr (Expression.within_trans hs hr))

end

end Reckoner
