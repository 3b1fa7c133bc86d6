import Reckoner.Proofs.Steadiness
import Reckoner.Proofs.Within
/-!
Renaming the numbers that are kept. A renaming gives each identity a new name; it goes through
formulas, numbers and tokens at every depth. It changes no value, so that an expression comes to the same
under new names, under these names, where the factorials in it are settled (`evaluateWithin_rename`).
-/
namespace Reckoner

namespace Reals

/-- The identity under new names; the constants stay. -/
def Identity.rename (σ : Identity → ℕ) : Identity → Identity
  | .name n => .name (σ (.name n))
  | i => i

/-- The formula under new names. -/
def Term.rename (σ : Identity → ℕ) : Term → Term
  | .rational q => .rational q
  | .pi => .pi
  | .e => .e
  | .add a b => .add (a.rename σ) (b.rename σ)
  | .sub a b => .sub (a.rename σ) (b.rename σ)
  | .mul a b => .mul (a.rename σ) (b.rename σ)
  | .neg a => .neg (a.rename σ)
  | .inverse a => .inverse (a.rename σ)
  | .sqrt a => .sqrt (a.rename σ)
  | .ln a => .ln (a.rename σ)
  | .exp a => .exp (a.rename σ)
  | .sin a => .sin (a.rename σ)
  | .cos a => .cos (a.rename σ)
  | .tan a => .tan (a.rename σ)
  | .arcsin a => .arcsin (a.rename σ)
  | .arccos a => .arccos (a.rename σ)
  | .arctan a => .arctan (a.rename σ)
  | .square a => .square (a.rename σ)
  | .power a n => .power (a.rename σ) n
  | .named i a => .named (i.rename σ) (a.rename σ)

variable (σ : Identity → ℕ)

theorem Term.identity?_rename (t : Term) :
    (t.rename σ).identity? = t.identity?.map (Identity.rename σ) := by
  cases t <;> rfl

namespace Term

theorem congruence_rename : Congruence fun t u => u = t.rename σ := by
  constructor <;> intros <;> subst_vars <;> rfl

@[simp] theorem value_rename (t : Term) : (t.rename σ).value = t.value := by
  induction t <;> simp_all [rename, value]

theorem isRegular_rename (margin : ℝ) (t : Term) :
    (t.rename σ).IsRegular margin ↔ t.IsRegular margin := by
  induction t <;> simp_all [rename, IsRegular]

theorem sameValue_rename (t : Term) : t.SameValue (t.rename σ) :=
  ⟨(t.value_rename σ).symm, fun margin => (t.isRegular_rename σ margin).symm⟩

end Term

/-- The numbers that the new names stand for. -/
def Renames (names names' : ℕ → Term) : Prop := ∀ n, names' (σ (.name n)) = (names n).rename σ

variable {σ} {names names' : ℕ → Term}

theorem Term.Consistent.rename {t : Term} (h : t.Consistent names) (hσ : Renames σ names names') :
    (t.rename σ).Consistent names' := by
  induction t with
  | rational q | pi | e => trivial
  | add a b iha ihb | sub a b iha ihb | mul a b iha ihb => exact ⟨iha h.1, ihb h.2⟩
  | named i a ih =>
    obtain ⟨rfl, ha⟩ := h
    refine ⟨?_, ih ha⟩
    cases i with
    | name n => exact hσ n
    | _ => rfl
  | _ => simp_all [Term.rename, Consistent]

/-- New names from `first` on leave the others as they are. -/
theorem exists_renames (hσ : (fun n => σ (.name n)).Injective) {first : ℕ}
    (hfirst : ∀ n, first ≤ σ (.name n)) (names names₀ : ℕ → Term) :
    ∃ names', (∀ n < first, names' n = names₀ n) ∧ Renames σ names names' := by
  refine ⟨fun n => if n < first then names₀ n
    else (names (Function.invFun (fun n => σ (.name n)) n)).rename σ, fun n hn => if_pos hn,
    fun n => ?_⟩
  dsimp only
  rw [if_neg (Nat.not_lt.2 (hfirst n))]
  exact congrArg (fun m => (names m).rename σ) (Function.leftInverse_invFun hσ n)

end Reals

open Reals

variable {σ : Identity → ℕ}

/-- The number with its formula under new names. -/
def Dual.rename (σ : Identity → ℕ) (x : Dual) : Dual := ⟨x.real.rename σ, x.exact⟩

mutual

/-- The token with every kept number, at every depth, under a new name. -/
def Token.rename (σ : Identity → ℕ) : Token → Token
  | .collapsed name value source context short =>
    .collapsed (σ (Codec.valueIdentity name value)) (value.rename σ) (Expression.rename σ source)
      context short
  | t => t

/-- The expression with every kept number, at every depth, under a new name. -/
def Expression.rename (σ : Identity → ℕ) : Expression → Expression
  | [] => []
  | t :: ts => t.rename σ :: Expression.rename σ ts

end

namespace Expression

variable (σ : Identity → ℕ)

theorem rename_eq_map (e : Expression) : e.rename σ = e.map (Token.rename σ) := by
  induction e with
  | nil => rfl
  | cons t e ih => simp [rename, ih]

@[simp] theorem length_rename (e : Expression) : (e.rename σ).length = e.length := by
  simp [rename_eq_map]

end Expression

namespace Grammar

variable {mode : Mode} {depth : ℕ} {span : ℤ} {ts ts' : List Token} {names names' : ℕ → Term}
  {m m' : Memory} {x : Dual}

/-- The tokens correspond, with their numbers under new names. -/
def SameRenamed (σ : Identity → ℕ) : List Token → List Token → Prop :=
  List.Forall₂ (Parallel.SameToken fun t u => u = t.rename σ)

/-- So do tokens that are renamed one by one, whatever becomes of what is inside collapsed ones. -/
theorem sameRenamed_map {σ : Identity → ℕ} {f : Token → Token} (hl : ∀ l, f (.literal l) = .literal l)
    (hk : ∀ k, f (.operator k) = .operator k)
    (hc : ∀ name value source context short, ∃ name' source',
      f (.collapsed name value source context short) =
        .collapsed name' (value.rename σ) source' context short)
    (ts : List Token) : SameRenamed σ ts (ts.map f) := by
  rw [SameRenamed, List.forall₂_map_right_iff, List.forall₂_same]
  intro t _
  cases t with
  | literal l => exact (hl l).symm ▸ .literal l
  | operator k => exact (hk k).symm ▸ .operator k
  | collapsed name value source context short =>
    obtain ⟨name', source', hf⟩ := hc name value source context short
    exact hf.symm ▸ .collapsed ⟨rfl, rfl⟩

theorem sameRenamed_rename (σ : Identity → ℕ) (ts : List Token) :
    SameRenamed σ ts (Expression.rename σ ts) := by
  rw [Expression.rename_eq_map]
  exact sameRenamed_map (fun _ => rfl) (fun _ => rfl) (fun _ _ _ _ _ => ⟨_, _, rfl⟩) ts

theorem SameRenamed.consistent (h : SameRenamed σ ts ts') (hσ : Renames σ names names')
    (hts : ∀ t ∈ ts, t.Consistent names) : ∀ t ∈ ts', t.Consistent names' := by
  induction h with
  | nil => exact fun t ht => absurd ht List.not_mem_nil
  | @cons t t' us us' ht _ ih =>
    obtain ⟨hconsistent, hus⟩ := List.forall_mem_cons.1 hts
    refine List.forall_mem_cons.2 ⟨?_, ih hus⟩
    cases ht with
    | collapsed hvalue =>
      rw [Token.Consistent, hvalue.1]
      exact Term.Consistent.rename hconsistent hσ
    | _ => trivial

/-- The value of tokens under new names is their value, under these names. -/
theorem evaluateWithin_rename (hk : mode.kernel.Accurate) (hσ : Renames σ names names')
    (hm : m.Sound names) (hm' : m'.Sound names') (hts : ∀ t ∈ ts, t.Consistent names)
    (hsame : SameRenamed σ ts ts') (hsteady : Steady mode names (range span ts))
    (h : (evaluateWithin mode depth span ts m).1 = .ok x) :
    ∃ m₁ : Memory, m₁.Sound names' ∧
      evaluateWithin mode depth span ts' m' = (.ok (x.rename σ), m₁) := by
  have hlike : List.Forall₂ (Parallel.SameToken fun t u =>
      u = t.rename σ ∧ t.SameValue u ∧ t.Consistent names ∧ u.Consistent names')
      (range span ts) (range span ts') := by
    refine ((List.forall₂_and_left _ _).2 ⟨fun t ht => hts t (List.mem_of_mem_take ht),
      List.forall₂_take span.toNat hsame⟩).imp ?_
    rintro t t' ⟨hconsistent, hsame⟩
    cases hsame with
    | literal l => exact .literal l
    | operator k => exact .operator k
    | @collapsed _ _ value value' _ _ _ _ _ _ hvalue =>
      obtain ⟨hreal, hexact⟩ := hvalue
      refine .collapsed ⟨⟨hreal, ?_⟩, hexact⟩
      rw [hreal]
      exact ⟨value.real.sameValue_rename σ, hconsistent, Term.Consistent.rename hconsistent hσ⟩
  have hend := evaluateWithin_like depth hk (Term.congruence_rename σ) hm hm' hlike hsteady
  rw [h] at hend
  rcases hvalue : evaluateWithin mode depth span ts' m' with ⟨o, m₁⟩
  rw [hvalue] at hend
  cases hend with
  | @ok _ y hy =>
    obtain ⟨hreal, hexact⟩ := hy
    obtain rfl : y = x.rename σ := Dual.mk.injEq .. ▸ ⟨hreal, hexact.symm⟩
    exact ⟨m₁, (evaluateWithin_keeps_of_ok hk hm' (hsame.consistent hσ hts) hvalue).1, rfl⟩

end Grammar

end Reckoner
