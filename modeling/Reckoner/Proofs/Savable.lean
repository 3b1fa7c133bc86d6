import Mathlib.Data.List.Dedup
import Reckoner.Codec.Reader
import Reckoner.Proofs.Digits
import Reckoner.Proofs.Steadiness
import Reckoner.Proofs.Within
/-!
What can be saved. An expression is composed if its collapsed tokens are what collapsing makes, and it
is savable if moreover values tell tokens apart. In an expression that was made by collapsing again
and again, collapsed tokens form a thread; there the one thing to ask is that no value occurs inside
itself (`Threaded.shared`). What reading asks of an expression besides is that the values come out again
(`Reproducible`).
-/
namespace Reckoner

open Reals

/-- Whether two tokens are collapsed and have one value. -/
def Token.SharesValue (s t : Token) : Prop := ∃ i, s.identity? = some i ∧ t.identity? = some i

theorem Token.SharesValue.symm {s t : Token} (h : s.SharesValue t) : t.SharesValue s :=
  h.imp fun _ h => ⟨h.2, h.1⟩

theorem Token.SharesValue.identity?_ne_none {s t : Token} (h : s.SharesValue t) :
    s.identity? ≠ none := by
  obtain ⟨i, hs, -⟩ := h
  simp [hs]

/-- No value of a collapsed token occurs inside the token. -/
def Expression.Apart (e : Expression) : Prop :=
  ∀ t ∈ e.within, ∀ s ∈ t.within, ¬ t.SharesValue s

/-- The expression inside a token. -/
def Token.source : Token → Expression
  | .collapsed _ _ source _ _ => source
  | _ => []

/-- Whether a token occurs in an expression inside so many others. -/
def Expression.OccursAt : ℕ → Expression → Token → Prop
  | 0, e, t => t ∈ e
  | k + 1, e, t => ∃ s ∈ e, OccursAt k s.source t

namespace Expression.OccursAt

variable {k : ℕ} {e : Expression} {t : Token}

theorem mem_within (h : e.OccursAt k t) : t ∈ e.within := by
  induction k generalizing e with
  | zero => exact mem_within_of_mem h
  | succ k ih =>
    obtain ⟨s, hs, h⟩ := h
    refine within_trans (mem_within_of_mem hs) ?_
    cases s with
    | collapsed => exact ih h
    | _ => exact ih h

theorem nesting_le (h : e.OccursAt k t) : t.nesting + k ≤ e.nesting := by
  induction k generalizing e with
  | zero => exact nesting_le_of_mem h
  | succ k ih =>
    obtain ⟨s, hs, h⟩ := h
    have hinner := ih h
    have hle := nesting_le_of_mem hs
    cases s with
    | collapsed =>
      simp only [Token.nesting, Token.source] at hinner hle
      omega
    | _ =>
      have hmem := mem_within h
      cases hmem

end Expression.OccursAt

namespace Codec

/-- A well-formed number, an operator, or a collapsed token that is what collapsing makes: it holds the
value that its expression once came to. -/
def ComposedToken (a : Arithmetic) (names : ℕ → Term) : Token → Prop
  | .literal l => l.WellFormed
  | .operator _ => True
  | .collapsed name value source context _ =>
    value.real.Consistent names ∧ context.span = source.length ∧
      ∃ m x, m.Sound names ∧ (a.evaluateIn context source m).1 = .ok x ∧ value = x.keptAs name

/-- An expression of such tokens, at every depth. -/
def Composed (a : Arithmetic) (names : ℕ → Term) (e : Expression) : Prop :=
  ∀ t ∈ e.within, ComposedToken a names t

theorem ComposedToken.consistent {a : Arithmetic} {names : ℕ → Term} {t : Token}
    (h : ComposedToken a names t) : t.Consistent names := by
  cases t with
  | collapsed => exact h.1
  | _ => trivial

/-- The expression inside a token comes to the same whatever is kept, where rules can nest as deeply as
`room`: the factorials in it are settled, and its rules do not nest deeper. -/
def ReproducibleToken (a : Arithmetic) (names : ℕ → Term) (room : ℕ) : Token → Prop
  | .collapsed _ _ source context _ =>
    Grammar.Steady (a.mode context.degrees) names source ∧
      ∃ t, Grammar.IsExpression source t ∧
        ∀ m, m.Sound names → t.room (a.mode context.degrees) m ≤ room
  | _ => True

/-- So it is with every token, where rules can nest as deeply as reading leaves room for. -/
def Reproducible (a : Arithmetic) (names : ℕ → Term) (e : Expression) : Prop :=
  ∀ k t, e.OccursAt k t → ReproducibleToken a names (evaluationRoom (readingLimit - k)) t

/-- A reproducible value comes out within the room. -/
theorem ComposedToken.exists_evaluateWithin {a : Arithmetic} {names : ℕ → Term} {room name : ℕ}
    {value : Dual} {source : Expression} {context : Context} {short : String}
    (h : ComposedToken a names (.collapsed name value source context short))
    (hr : ReproducibleToken a names room (.collapsed name value source context short)) :
    ∃ m x, m.Sound names ∧ value = x.keptAs name ∧
      (Grammar.evaluateWithin (a.mode context.degrees) room source.length source m).1 = .ok x := by
  obtain ⟨-, hspan, m, x, hm, hx, hvalue⟩ := h
  obtain ⟨-, t, ht, hroom⟩ := hr
  have hall : Grammar.range source.length source = source := List.take_length
  rw [Arithmetic.evaluateIn, hspan] at hx
  obtain ⟨t', ht', hvt, -⟩ := Grammar.evaluateWithin_sound (Prod.ext hx rfl)
  rw [hall] at ht'
  obtain rfl : t = t' := (ht.unique ht' (Nat.le_refl 0) (Nat.le_refl 0)).1
  refine ⟨m, x, hm, hvalue, ?_⟩
  rw [← List.take_length (l := source)] at ht
  rcases ht.evaluateWithin (Nat.le_refl _) (a.mode context.degrees) room m with hvalue | ⟨hdeep, -⟩
  · rw [hvalue, hvt]
  · exact absurd (hroom m hm) hdeep

/-- An expression in which tokens that share a value are one token, and no value occurs inside
itself. -/
structure Savable (a : Arithmetic) (names : ℕ → Term) (e : Expression) : Prop where
  composed : Composed a names e
  shared : ∀ s ∈ e.within, ∀ t ∈ e.within, s.SharesValue t → s = t
  apart : e.Apart

/-- A token within the limits of its fields. -/
def FitsToken : Token → Prop
  | .literal l => l.whole.utf8ByteSize ≤ 0xffff ∧ l.fraction.utf8ByteSize ≤ 0xffff
  | .operator _ => True
  | .collapsed _ _ source _ short => source.length < 0x80000000 ∧ short.utf8ByteSize ≤ 0xffff

instance : DecidablePred FitsToken
  | .literal l => inferInstanceAs (Decidable (l.whole.utf8ByteSize ≤ 0xffff ∧ _))
  | .operator _ => inferInstanceAs (Decidable True)
  | .collapsed _ _ source _ _ => inferInstanceAs (Decidable (source.length < 0x80000000 ∧ _))

/-- An expression within the limits of its fields, in which collapsed tokens nest to at most `depth`. -/
structure Fits (depth : Nat) (e : Expression) : Prop where
  nesting : e.nesting ≤ depth
  length : e.length < 0x80000000
  values : e.identities.dedup.length < 0x80000000
  tokens : ∀ t ∈ e.within, FitsToken t

end Codec

mutual

/-- Whether only the first token of each expression inside may be collapsed. -/
def Token.Threaded : Token → Prop
  | .collapsed _ _ source _ _ => Expression.Threaded source
  | _ => True

/-- Whether only the first token, and of each expression inside only the first, may be collapsed. -/
def Expression.Threaded : Expression → Prop
  | [] => True
  | t :: ts => t.Threaded ∧ ∀ s ∈ ts, s.identity? = none

end

theorem Token.within_eq_nil {t : Token} (h : t.identity? = none) : t.within = [] := by
  cases t with
  | collapsed => cases h
  | _ => rfl

namespace Expression

theorem identity?_eq_none_of_mem_within {e : Expression} (h : ∀ s ∈ e, s.identity? = none)
    {t : Token} (ht : t ∈ e.within) : t.identity? = none := by
  obtain ⟨s, hs, rfl | ht⟩ := mem_within_iff.1 ht
  · exact h _ hs
  · rw [Token.within_eq_nil (h s hs)] at ht
    cases ht

/-- A collapsed token of a threaded expression is the first one or inside it. -/
theorem Threaded.mem_within {t : Token} {ts : List Token} (h : Expression.Threaded (t :: ts))
    {s : Token} (hs : s ∈ Expression.within (t :: ts)) (hid : s.identity? ≠ none) :
    s = t ∨ s ∈ t.within := by
  simp only [within, List.mem_cons, List.mem_append] at hs
  rcases hs with rfl | hs | hs
  · exact .inl rfl
  · exact .inr hs
  · exact absurd (identity?_eq_none_of_mem_within h.2 hs) hid

end Expression

mutual

theorem Token.Threaded.shared : ∀ {t : Token}, t.Threaded →
    (∀ s ∈ t.within, ∀ r ∈ s.within, ¬ s.SharesValue r) →
    ∀ s ∈ t.within, ∀ r ∈ t.within, s.SharesValue r → s = r
  | .literal _, _, _, _, hs, _, _, _ | .operator _, _, _, _, hs, _, _, _ => by cases hs
  | .collapsed _ _ _ _ _, h, hapart, s, hs, r, hr, hsr =>
    Expression.Threaded.shared h hapart s hs r hr hsr

/-- In a thread, tokens that share a value are one token if no value occurs inside itself. -/
theorem Expression.Threaded.shared : ∀ {e : Expression}, e.Threaded → e.Apart →
    ∀ s ∈ e.within, ∀ r ∈ e.within, s.SharesValue r → s = r
  | [], _, _, _, hs, _, _, _ => by cases hs
  | t :: ts, h, hapart, s, hs, r, hr, hsr => by
    have ht : t ∈ Expression.within (t :: ts) := Expression.mem_within_of_mem List.mem_cons_self
    rcases h.mem_within hs hsr.identity?_ne_none with rfl | hs
    · rcases h.mem_within hr hsr.symm.identity?_ne_none with rfl | hr
      · rfl
      · exact absurd hsr (hapart s ht r hr)
    · rcases h.mem_within hr hsr.symm.identity?_ne_none with rfl | hr
      · exact absurd hsr.symm (hapart r ht s hs)
      · exact h.1.shared (fun s hs => hapart s (Expression.within_trans ht hs)) s hs r hr hsr

end

end Reckoner
