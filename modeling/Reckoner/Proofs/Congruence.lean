import Reckoner.Proofs.Denotation
import Reckoner.Proofs.Drawing
import Reckoner.Proofs.TreeValue
/-!
Relations between numbers that arithmetic keeps. A relation between formulas that goes through every
operation on them is kept by the operations on numbers, which look at nothing else but the exact values
(`Dual.Like`). That two formulas have one value is such a relation, and so is that they do not use a name
for two numbers.
-/
namespace Reckoner

/-- Two computations end alike: with values that are related, or in the same error. -/
inductive EndAlike {ε α β : Type} (R : α → β → Prop) : Except ε α → Except ε β → Prop where
  | ok {x : α} {y : β} (h : R x y) : EndAlike R (.ok x) (.ok y)
  | error (e : ε) : EndAlike R (.error e) (.error e)

namespace EndAlike

variable {ε ε' α β γ δ : Type} {R : α → β → Prop} {S : γ → δ → Prop} {x : Except ε α} {y : Except ε β}

theorem mono {R' : α → β → Prop} (h : EndAlike R x y) (hR : ∀ v w, R v w → R' v w) :
    EndAlike R' x y := by
  cases h with
  | ok h => exact .ok (hR _ _ h)
  | error e => exact .error e

theorem mapError (h : EndAlike R x y) (f : ε → ε') : EndAlike R (x.mapError f) (y.mapError f) := by
  cases h with
  | ok h => exact .ok h
  | error e => exact .error (f e)

/-- One computation, and then what is made of its value. -/
theorem bind_same {f : γ → Except ε α} {g : γ → Except ε β} (z : Except ε γ)
    (h : ∀ v, EndAlike R (f v) (g v)) : EndAlike R (z >>= f) (z >>= g) := by
  cases z with
  | ok v => exact h v
  | error e => exact .error e

theorem refl {R : α → α → Prop} (hR : ∀ v, R v v) (x : Except ε α) : EndAlike R x x := by
  cases x with
  | ok v => exact .ok (hR v)
  | error e => exact .error e

theorem eq_iff {x y : Except ε α} : EndAlike Eq x y ↔ x = y := by
  constructor
  · rintro (⟨⟨⟩⟩ | _) <;> rfl
  · rintro rfl
    exact refl (fun _ => rfl) x

end EndAlike

namespace Reals

/-- A relation between formulas that every operation on numbers keeps. -/
structure Term.Congruence (R : Term → Term → Prop) : Prop where
  rational : ∀ q, R (.rational q) (.rational q)
  pi : R .pi .pi
  e : R .e .e
  radiansPerDegree : R Dual.radiansPerDegree Dual.radiansPerDegree
  degreesPerRadian : R Dual.degreesPerRadian Dual.degreesPerRadian
  lnTen : R Dual.lnTen Dual.lnTen
  hundredth : R Dual.hundredth Dual.hundredth
  add : ∀ {a b c d}, R a b → R c d → R (.add a c) (.add b d)
  sub : ∀ {a b c d}, R a b → R c d → R (.sub a c) (.sub b d)
  mul : ∀ {a b c d}, R a b → R c d → R (.mul a c) (.mul b d)
  neg : ∀ {a b}, R a b → R (.neg a) (.neg b)
  inverse : ∀ {a b}, R a b → R (.inverse a) (.inverse b)
  sqrt : ∀ {a b}, R a b → R (.sqrt a) (.sqrt b)
  ln : ∀ {a b}, R a b → R (.ln a) (.ln b)
  exp : ∀ {a b}, R a b → R (.exp a) (.exp b)
  sin : ∀ {a b}, R a b → R (.sin a) (.sin b)
  cos : ∀ {a b}, R a b → R (.cos a) (.cos b)
  tan : ∀ {a b}, R a b → R (.tan a) (.tan b)
  arcsin : ∀ {a b}, R a b → R (.arcsin a) (.arcsin b)
  arccos : ∀ {a b}, R a b → R (.arccos a) (.arccos b)
  arctan : ∀ {a b}, R a b → R (.arctan a) (.arctan b)
  square : ∀ {a b}, R a b → R (.square a) (.square b)
  power : ∀ {a b}, R a b → ∀ n, R (.power a n) (.power b n)

/-- Two formulas have one value, and are regular with the same margins. -/
def Term.SameValue (t u : Term) : Prop :=
  t.value = u.value ∧ ∀ margin, t.IsRegular margin ↔ u.IsRegular margin

namespace Term.Congruence

variable {R S : Term → Term → Prop}

theorem and (hR : Congruence R) (hS : Congruence S) : Congruence fun t u => R t u ∧ S t u where
  rational q := ⟨hR.rational q, hS.rational q⟩
  pi := ⟨hR.pi, hS.pi⟩
  e := ⟨hR.e, hS.e⟩
  radiansPerDegree := ⟨hR.radiansPerDegree, hS.radiansPerDegree⟩
  degreesPerRadian := ⟨hR.degreesPerRadian, hS.degreesPerRadian⟩
  lnTen := ⟨hR.lnTen, hS.lnTen⟩
  hundredth := ⟨hR.hundredth, hS.hundredth⟩
  add h h' := ⟨hR.add h.1 h'.1, hS.add h.2 h'.2⟩
  sub h h' := ⟨hR.sub h.1 h'.1, hS.sub h.2 h'.2⟩
  mul h h' := ⟨hR.mul h.1 h'.1, hS.mul h.2 h'.2⟩
  neg h := ⟨hR.neg h.1, hS.neg h.2⟩
  inverse h := ⟨hR.inverse h.1, hS.inverse h.2⟩
  sqrt h := ⟨hR.sqrt h.1, hS.sqrt h.2⟩
  ln h := ⟨hR.ln h.1, hS.ln h.2⟩
  exp h := ⟨hR.exp h.1, hS.exp h.2⟩
  sin h := ⟨hR.sin h.1, hS.sin h.2⟩
  cos h := ⟨hR.cos h.1, hS.cos h.2⟩
  tan h := ⟨hR.tan h.1, hS.tan h.2⟩
  arcsin h := ⟨hR.arcsin h.1, hS.arcsin h.2⟩
  arccos h := ⟨hR.arccos h.1, hS.arccos h.2⟩
  arctan h := ⟨hR.arctan h.1, hS.arctan h.2⟩
  square h := ⟨hR.square h.1, hS.square h.2⟩
  power h n := ⟨hR.power h.1 n, hS.power h.2 n⟩

theorem eq : Congruence Eq := by
  constructor <;> intros <;> simp_all

theorem consistent (names names' : ℕ → Term) :
    Congruence fun t u => t.Consistent names ∧ u.Consistent names' := by
  constructor <;> intros <;>
    simp_all [Consistent, Identity.term, Dual.radiansPerDegree, Dual.degreesPerRadian, Dual.lnTen,
      Dual.hundredth, div]

theorem sameValue : Congruence SameValue := by
  constructor <;> intros <;> simp_all [SameValue, value, IsRegular]

variable (hR : Congruence R) {t u v w : Term}

include hR

theorem div (h : R t u) (h' : R v w) : R (t.div v) (u.div w) :=
  hR.mul h (hR.inverse h')

theorem intPower (h : R t u) (n : Int) : R (t.intPower n) (u.intPower n) := by
  unfold Term.intPower
  split
  · exact h
  · exact hR.power h n

theorem toRadians (degrees : Bool) (h : R t u) :
    R (Dual.toRadians degrees t) (Dual.toRadians degrees u) := by
  cases degrees with
  | true => exact hR.mul h hR.radiansPerDegree
  | false => exact h

theorem fromRadians (degrees : Bool) (h : R t u) :
    R (Dual.fromRadians degrees t) (Dual.fromRadians degrees u) := by
  cases degrees with
  | true => exact hR.mul h hR.degreesPerRadian
  | false => exact h

theorem applyReal (degrees : Bool) (f : FunctionName) (h : R t u) :
    R (Dual.applyReal degrees f t) (Dual.applyReal degrees f u) := by
  cases f with
  | sin => exact hR.sin (hR.toRadians degrees h)
  | cos => exact hR.cos (hR.toRadians degrees h)
  | tan => exact hR.tan (hR.toRadians degrees h)
  | arcsin => exact hR.fromRadians degrees (hR.arcsin h)
  | arccos => exact hR.fromRadians degrees (hR.arccos h)
  | arctan => exact hR.fromRadians degrees (hR.arctan h)
  | ln => exact hR.ln h
  | log => exact hR.div (hR.ln h) hR.lnTen
  | exp => exact hR.exp h

end Term.Congruence

end Reals

namespace Dual

open Reals

/-- Two numbers with the same exact value, if there is one, and related formulas. -/
structure Like (R : Term → Term → Prop) (x y : Dual) : Prop where
  real : R x.real y.real
  exact : x.exact = y.exact

theorem like_eq_iff {x y : Dual} : Like Eq x y ↔ x = y := by
  constructor
  · rintro ⟨hreal, hexact⟩
    exact Dual.mk.injEq .. ▸ ⟨hreal, hexact⟩
  · rintro rfl
    exact ⟨rfl, rfl⟩

variable {R : Term → Term → Prop} (hR : Term.Congruence R) {x y v w : Dual}

include hR

theorem like_ofRat (q : Rat) : Like R (ofRat q) (ofRat q) := ⟨hR.rational q, rfl⟩

theorem like_orReal (exact : Option Rat) {t u : Term} (h : R t u) :
    Like R (orReal exact t) (orReal exact u) := by
  cases exact with
  | none => exact ⟨h, rfl⟩
  | some q => exact like_ofRat hR q

theorem like_orReal_map {ε : Type} (exact : Except ε (Option Rat)) {t u : Term} (h : R t u) :
    EndAlike (Like R) ((orReal · t) <$> exact) ((orReal · u) <$> exact) := by
  cases exact with
  | error e => exact .error e
  | ok q => exact .ok (like_orReal hR q h)

namespace Like

variable (h : Like R x y) (h' : Like R v w)

include h

theorem neg : Like R x.neg y.neg := ⟨hR.neg h.real, congrArg Exact.neg h.exact⟩

theorem sqrt : EndAlike (Like R) x.sqrt y.sqrt := by
  unfold Dual.sqrt
  rw [h.exact]
  exact like_orReal_map hR _ (hR.sqrt h.real)

theorem apply (degrees : Bool) (f : FunctionName) :
    EndAlike (Like R) (x.apply degrees f) (y.apply degrees f) := by
  unfold Dual.apply
  rw [h.exact]
  exact like_orReal_map hR _ (hR.applyReal degrees f h.real)

theorem square (limit : Int) : Like R (x.square limit) (y.square limit) := by
  unfold Dual.square
  rw [h.exact]
  exact like_orReal hR _ (hR.square h.real)

theorem percent (limit : Int) : Like R (x.percent limit) (y.percent limit) := by
  unfold Dual.percent
  rw [h.exact]
  exact like_orReal hR _ (hR.mul h.real hR.hundredth)

include h'

theorem add (limit : Int) : Like R (x.add limit v) (y.add limit w) := by
  unfold Dual.add
  rw [h.exact, h'.exact]
  exact like_orReal hR _ (hR.add h.real h'.real)

theorem sub (limit : Int) : Like R (x.sub limit v) (y.sub limit w) := by
  unfold Dual.sub
  rw [h.exact, h'.exact]
  exact like_orReal hR _ (hR.sub h.real h'.real)

theorem mul (limit : Int) : Like R (x.mul limit v) (y.mul limit w) := by
  unfold Dual.mul
  rw [h.exact, h'.exact]
  exact like_orReal hR _ (hR.mul h.real h'.real)

theorem div (limit : Int) : EndAlike (Like R) (x.div limit v) (y.div limit w) := by
  unfold Dual.div
  rw [h.exact, h'.exact]
  exact like_orReal_map hR _ (hR.div h.real h'.real)

theorem power (limit : Int) (depth : Nat) :
    EndAlike (Like R) (x.power limit depth v) (y.power limit depth w) := by
  unfold Dual.power
  rw [h.exact, h'.exact]
  refine .bind_same _ fun exact => ?_
  cases exact with
  | some q => exact .ok (like_ofRat hR q)
  | none =>
    cases Exact.toInt? w.exact with
    | none => exact .ok ⟨hR.exp (hR.mul (hR.ln h.real) h'.real), rfl⟩
    | some n =>
      dsimp only
      split
      · exact .error _
      · exact .ok ⟨hR.intPower h.real n, rfl⟩

end Like

end Dual

end Reckoner
