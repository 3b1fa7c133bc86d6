import Mathlib.Logic.Function.Basic
import Reckoner.Evaluation
import Reckoner.Proofs.Parallel
import Reckoner.Proofs.Settled
/-!
Evaluation and what is kept. Evaluating leaves a sound memory (`evaluateWithin_keeps`), but its outcome
may depend on the memory, where the integer test of a factorial may turn out either way. Where every
such test is settled, evaluating comes to the same from every sound memory, and corresponding tokens
come to corresponding numbers (`evaluateWithin_like`).
-/
namespace Reckoner

open Reals

namespace Reals

variable {t u : Term}

theorem Term.Settled.congr (h : t.Settled) (htu : t.SameValue u) : u.Settled where
  isRegular := (htu.2 zeroMargin).1 h.isRegular
  clear := htu.1 ▸ h.clear

theorem Term.SameValue.refl (t : Term) : t.SameValue t := ⟨rfl, fun _ => Iff.rfl⟩

theorem Term.SameValue.trans {v : Term} (h : t.SameValue u) (h' : u.SameValue v) : t.SameValue v :=
  ⟨h.1.trans h'.1, fun margin => (h.2 margin).trans (h'.2 margin)⟩

end Reals

namespace Dual

variable {R : Term → Term → Prop} {kernel : Kernel} {x y : Dual} {names names' : ℕ → Term}
  {m m' : Memory}

theorem idealFactorial_like (hR : Term.Congruence R) (hsame : ∀ t u, R t u → t.SameValue u)
    (hxy : Like R x y) : EndAlike (Like R) x.idealFactorial y.idealFactorial := by
  have hclose : x.real.closeInteger? = y.real.closeInteger? := by
    rw [Term.closeInteger?, Term.closeInteger?, (hsame _ _ hxy.real).1]
  unfold idealFactorial
  rw [hxy.exact, hclose]
  cases y.exact with
  | some q => exact like_orReal_map hR _ hxy.real
  | none =>
    cases y.real.closeInteger? with
    | none => exact .error _
    | some n => exact like_orReal_map hR _ hxy.real

/-- Factorials of corresponding numbers that are settled correspond, from any two sound memories. -/
theorem factorial_like (hR : Term.Congruence R)
    (hsame : ∀ t u, R t u → t.SameValue u ∧ t.Consistent names ∧ u.Consistent names')
    (hk : kernel.Accurate) (hm : m.Sound names) (hm' : m'.Sound names') (hxy : Like R x y)
    (hsettled : x.exact = none → x.real.Settled) :
    EndAlike (Like R) (x.factorial kernel m).1 (y.factorial kernel m').1 ∧
      (x.factorial kernel m).2.Sound names ∧ (y.factorial kernel m').2.Sound names' := by
  obtain ⟨hvalue, hconsistent, hconsistent'⟩ := hsame _ _ hxy.real
  have hsettled' : y.exact = none → y.real.Settled :=
    fun hy => (hsettled (hxy.exact.trans hy)).congr hvalue
  rw [factorial_of_settled hk hm hconsistent hsettled,
    factorial_of_settled hk hm' hconsistent' hsettled']
  exact ⟨idealFactorial_like hR (fun _ _ h => (hsame _ _ h).1) hxy,
    factorial_sound hk hm hconsistent, factorial_sound hk hm' hconsistent'⟩

theorem exists_factorial_eq (kernel : Kernel) (x : Dual) (m : Memory) :
    ∃ exact, (x.factorial kernel m).1 = (orReal · x.real) <$> exact := by
  rw [factorial, Recall.bind_apply]
  rcases x.wholeValue kernel m with ⟨e | q, m'⟩
  · exact ⟨.error e, rfl⟩
  · refine ⟨Exact.factorial (some q), ?_⟩
    dsimp only
    rw [Recall.bind_apply, Recall.ofExcept_apply]
    cases Exact.factorial (some q) <;> rfl

theorem factorial_like_self (hR : Term.Congruence R) (hx : R x.real x.real) (m : Memory) :
    EndAlike (Like R) (x.factorial kernel m).1 (x.factorial kernel m).1 := by
  obtain ⟨exact, h⟩ := exists_factorial_eq kernel x m
  rw [h]
  exact like_orReal_map hR exact hx

end Dual

namespace Dual

variable {names names' : ℕ → Term} {name : ℕ} {x : Dual}

/-- A number has the same value under a name, which stands for it. -/
theorem keptAs_sameValue (hx : x.real.Consistent names)
    (hname : x.real.identity? = none → names name = x.real) :
    (x.keptAs name).exact = x.exact ∧ (x.keptAs name).real.SameValue x.real ∧
      (x.keptAs name).real.Consistent names := by
  unfold keptAs
  cases hidentity : x.real.identity? with
  | some i => exact ⟨rfl, .refl _, hx⟩
  | none => exact ⟨rfl, ⟨rfl, fun _ => Iff.rfl⟩, hname hidentity, hx⟩

/-- Where a new name stands for a number, the names below stand for what they did, and the number is
consistent under it. -/
theorem consistent_of_eq_update
    (hx : ∀ names', (∀ n < name, names' n = names n) → x.real.Consistent names')
    (h : ∀ n < name + 1, names' n = Function.update names name x.real n) :
    (∀ n < name, names' n = names n) ∧ (x.keptAs name).real.Consistent names' := by
  have hbelow : ∀ n < name, names' n = names n := fun n hn => by
    rw [h n (Nat.lt_succ_of_lt hn)]
    exact Function.update_of_ne (Nat.ne_of_lt hn) _ _
  have hname : names' name = x.real := by
    rw [h _ (Nat.lt_succ_self _)]
    exact Function.update_self ..
  exact ⟨hbelow, (keptAs_sameValue (hx names' hbelow) fun _ => hname).2.2⟩

end Dual

/-- Whether the number of a collapsed token uses every name for one number. -/
def Token.Consistent (names : ℕ → Term) : Token → Prop
  | .collapsed _ value _ _ _ => value.real.Consistent names
  | _ => True

namespace Grammar

/-- Wherever an operand with a factorial stands among the tokens, its number has an exact value, or it is
settled. -/
def Steady (mode : Mode) (names : ℕ → Term) (ts : List Token) : Prop :=
  ∀ us t rest m x m', us <:+ ts →
    Derives (.rule .suffix) us t (.operator (.suffix .factorial) :: rest) →
    m.Sound names → t.value mode m = (.ok x, m') → x.exact = none → x.real.Settled

/-- So it is where there is no factorial. -/
theorem steady_of_not_mem {mode : Mode} {names : ℕ → Term} {ts : List Token}
    (h : Token.operator (.suffix .factorial) ∉ ts) : Steady mode names ts := by
  intro us t rest m x m' hus ht
  exact absurd ((ht.isSuffix.trans hus).subset List.mem_cons_self) h

/-- Token lists that correspond token by token, the first of which is the end of a list. -/
structure PointwiseAtEnd (R : Term → Term → Prop) (left ts ts' : List Token) : Prop where
  pointwise : List.Forall₂ (Parallel.SameToken R) ts ts'
  left : ts <:+ left

/-- The readings of such lists. -/
def pointwise (R : Term → Term → Prop) (M : Memory → Memory → Prop) (left : List Token) :
    Parallel where
  operand := PointwiseAtEnd R left
  after := PointwiseAtEnd R left
  formula := R
  memory := M
  excusedLeft _ := False
  excusedRight _ := False

variable {mode : Mode} {R Q : Term → Term → Prop} {M : Memory → Memory → Prop}
  {left ts ts' : List Token} {names names' : ℕ → Term} {m m' : Memory} {depth : ℕ} {span : ℤ}

namespace PointwiseAtEnd

theorem cases (h : PointwiseAtEnd R left ts ts') :
    (ts = [] ∧ ts' = []) ∨ ∃ t t' us us', ts = t :: us ∧ ts' = t' :: us' ∧
      Parallel.SameToken R t t' ∧ PointwiseAtEnd R left us us' := by
  obtain ⟨hsame, hleft⟩ := h
  cases hsame with
  | nil => exact .inl ⟨rfl, rfl⟩
  | @cons t t' us us' ht hus =>
    exact .inr ⟨t, t', us, us', rfl, rfl, ht, hus, (List.suffix_cons t us).trans hleft⟩

theorem eq_nil_iff (h : PointwiseAtEnd R left ts ts') : ts = [] ↔ ts' = [] := by
  obtain ⟨rfl, rfl⟩ | ⟨t, t', us, us', rfl, rfl, -⟩ := h.cases <;> simp

end PointwiseAtEnd

theorem pointwise_aligned (hR : Term.Congruence R) : (pointwise R M left).Aligned where
  congruence := hR
  minus h := by
    obtain ⟨rfl, rfl⟩ | ⟨t, t', us, us', rfl, rfl, ht, hus⟩ := h.cases
    · exact .none
    · exact ht.after? _ hus
  suffix h := by
    obtain ⟨rfl, rfl⟩ | ⟨t, t', us, us', rfl, rfl, ht, hus⟩ := h.cases
    · exact .none
    · exact ht.suffix? hus
  power h := by
    obtain ⟨rfl, rfl⟩ | ⟨t, t', us, us', rfl, rfl, ht, hus⟩ := h.cases
    · exact .none
    · exact ht.after? _ hus
  factor h := by
    obtain ⟨rfl, rfl⟩ | ⟨t, t', us, us', rfl, rfl, ht, hus⟩ := h.cases
    · exact .none
    · exact ht.nextFactor? hus h
  term h := by
    obtain ⟨rfl, rfl⟩ | ⟨t, t', us, us', rfl, rfl, ht, hus⟩ := h.cases
    · exact .none
    · exact ht.nextTerm? hus
  closing h := by
    obtain ⟨rfl, rfl⟩ | ⟨t, t', us, us', rfl, rfl, ht, hus⟩ := h.cases
    · exact h
    · exact ht.skipClosing hus h

/-- Factorials of corresponding numbers correspond, where the left one is taken in the list. -/
def FactorialsMatch (mode : Mode) (R : Term → Term → Prop) (M : Memory → Memory → Prop)
    (left : List Token) : Prop :=
  ∀ us t rest m₀ m₀' m m' x y, us <:+ left →
    Derives (.rule .suffix) us t (.operator (.suffix .factorial) :: rest) →
    M m₀ m₀' → t.value mode m₀ = (.ok x, m) → Dual.Like R x y → M m m' →
    EndAlike (Dual.Like R) (x.factorial mode.kernel m).1 (y.factorial mode.kernel m').1 ∧
      M (x.factorial mode.kernel m).2 (y.factorial mode.kernel m').2

theorem pointwise_lawful (hR : Term.Congruence R) (hfactorials : FactorialsMatch mode R M left) :
    (pointwise R M left).Lawful mode where
  toAligned := pointwise_aligned hR
  unary hsub h hm := by
    obtain ⟨rfl, rfl⟩ | ⟨t, t', us, us', rfl, rfl, ht, hus⟩ := h.cases
    · exact .failure hm
    · exact (pointwise_aligned hR).unary_cons hsub ht (fun _ => hus) (fun _ => hus) hm
  factorial h ht _ hm₀ hx _ hxy hm := hfactorials _ _ _ _ _ _ _ _ _ h.left ht hm₀ hx hxy hm

/-- Token lists that correspond token by token have corresponding outcomes. -/
theorem evaluateWithin_pointwise (depth : ℕ) (hR : Term.Congruence R)
    (hfactorials : FactorialsMatch mode R M (range span ts))
    (hts : List.Forall₂ (Parallel.SameToken R) (range span ts) (range span ts')) (hm : M m m') :
    EndAlike (Dual.Like R) (evaluateWithin mode depth span ts m).1
        (evaluateWithin mode depth span ts' m').1 ∧
      M (evaluateWithin mode depth span ts m).2 (evaluateWithin mode depth span ts' m').2 := by
  have hmatches := (pointwise_lawful hR hfactorials).parse depth .expr ⟨hts, List.suffix_refl _⟩ hm
  unfold evaluateWithin
  dsimp only
  generalize parse mode depth .expr (range span ts) m = o,
    parse mode depth .expr (range span ts') m' = o' at hmatches
  obtain ⟨o, m₁⟩ := o
  obtain ⟨o', m₁'⟩ := o'
  have hspan : ((range span ts).length : ℤ) = span ↔ ((range span ts').length : ℤ) = span := by
    rw [hts.length_eq]
  obtain ⟨s, h, -⟩ | ⟨s, h, -⟩ | h := hmatches.settle PointwiseAtEnd.eq_nil_iff hspan
  · exact h.elim
  · exact h.elim
  · exact h

theorem sameToken_self {t : Token}
    (hR : ∀ u : Term, u.Consistent names → u.Consistent names' → R u u) (ht : t.Consistent names)
    (ht' : t.Consistent names') : Parallel.SameToken R t t := by
  cases t with
  | literal l => exact .literal l
  | operator k => exact .operator k
  | collapsed name value source context short => exact .collapsed ⟨hR _ ht ht', rfl⟩

/-- Evaluating leaves a sound memory, and a value that uses every name for one number. -/
theorem evaluateWithin_keeps (hk : mode.kernel.Accurate) (hm : m.Sound names)
    (hts : ∀ t ∈ ts, t.Consistent names) :
    (evaluateWithin mode depth span ts m).2.Sound names ∧
      ∀ v, (evaluateWithin mode depth span ts m).1 = .ok v → v.real.Consistent names := by
  let R : Term → Term → Prop := fun t u => t = u ∧ t.Consistent names ∧ u.Consistent names
  have hR : Term.Congruence R := .and .eq (.consistent names names)
  have hfactorials : FactorialsMatch mode R (fun m m' => m = m' ∧ m.Sound names) (range span ts) := by
    rintro us t rest m₀ m₀' m _ x y - - - - hxy ⟨rfl, hm⟩
    obtain rfl : x = y := Dual.like_eq_iff.1 ⟨hxy.real.1, hxy.exact⟩
    exact ⟨Dual.factorial_like_self hR hxy.real m,
      rfl, Dual.factorial_sound hk hm hxy.real.2.1⟩
  have hsame : List.Forall₂ (Parallel.SameToken R) (range span ts) (range span ts) :=
    List.forall₂_same.2 fun t ht => sameToken_self (fun u hu _ => ⟨rfl, hu, hu⟩)
      (hts t (List.mem_of_mem_take ht)) (hts t (List.mem_of_mem_take ht))
  obtain ⟨hend, -, hsound⟩ := evaluateWithin_pointwise depth hR hfactorials hsame ⟨rfl, hm⟩
  refine ⟨hsound, fun v hv => ?_⟩
  rw [hv] at hend
  cases hend with
  | ok hv => exact hv.real.2.1

theorem evaluateWithin_keeps_of_ok (hk : mode.kernel.Accurate) (hm : m.Sound names)
    (hts : ∀ t ∈ ts, t.Consistent names) {v : Dual}
    (h : evaluateWithin mode depth span ts m = (.ok v, m')) :
    m'.Sound names ∧ v.real.Consistent names := by
  obtain rfl : (evaluateWithin mode depth span ts m).2 = m' := congrArg Prod.snd h
  exact (evaluateWithin_keeps hk hm hts).imp_right fun hvalue => hvalue v (congrArg Prod.fst h)

/-- Corresponding tokens come to corresponding numbers, from any two sound memories, where the factorials
in the one list are settled. -/
theorem evaluateWithin_like (depth : ℕ) (hk : mode.kernel.Accurate) (hQ : Term.Congruence Q)
    (hm : m.Sound names) (hm' : m'.Sound names')
    (hts : List.Forall₂ (Parallel.SameToken fun t u =>
      Q t u ∧ t.SameValue u ∧ t.Consistent names ∧ u.Consistent names')
      (range span ts) (range span ts'))
    (hsteady : Steady mode names (range span ts)) :
    EndAlike (Dual.Like Q) (evaluateWithin mode depth span ts m).1
      (evaluateWithin mode depth span ts' m').1 := by
  let R : Term → Term → Prop := fun t u =>
    Q t u ∧ t.SameValue u ∧ t.Consistent names ∧ u.Consistent names'
  have hR : Term.Congruence R := hQ.and (.and .sameValue (.consistent names names'))
  have hfactorials : FactorialsMatch mode R (fun m m' => m.Sound names ∧ m'.Sound names')
      (range span ts) := by
    rintro us t rest m₀ m₀' m m' x y hus ht ⟨hm₀, -⟩ hx hxy ⟨hm, hm'⟩
    exact Dual.factorial_like hR (fun _ _ h => h.2) hk hm hm' hxy
      (hsteady us t rest m₀ x m hus ht hm₀ hx)
  have hend := (evaluateWithin_pointwise depth hR hfactorials hts ⟨hm, hm'⟩).1
  exact hend.mono fun v w h => ⟨h.real.1, h.exact⟩

/-- So one list of tokens comes to the same, whatever is kept. -/
theorem evaluateWithin_eq_of_steady (hk : mode.kernel.Accurate) (hm : m.Sound names)
    (hm' : m'.Sound names') (hts : ∀ t ∈ ts, t.Consistent names ∧ t.Consistent names')
    (hsteady : Steady mode names (range span ts)) :
    (evaluateWithin mode depth span ts m).1 = (evaluateWithin mode depth span ts m').1 := by
  have hend := evaluateWithin_like depth hk .eq hm hm'
    (List.forall₂_same.2 fun t ht => ?_) hsteady
  · exact EndAlike.eq_iff.1 (hend.mono fun _ _ => Dual.like_eq_iff.1)
  · obtain ⟨h, h'⟩ := hts t (List.mem_of_mem_take ht)
    cases t with
    | literal l => exact .literal l
    | operator k => exact .operator k
    | collapsed => exact .collapsed ⟨⟨rfl, .refl _, h, h'⟩, rfl⟩

end Grammar

namespace Expression

theorem complete_prefix (e : Expression) : e.complete <+: e := by
  have h := List.reverse_prefix.2 (List.dropWhile_suffix (fun t => !canEnd t) (l := e.reverse))
  rwa [List.reverse_reverse] at h

/-- The tokens that count. -/
def counted (required : Bool) (e : Expression) : Expression := if required then e else e.complete

theorem range_counted (required : Bool) (e : Expression) :
    Grammar.range (if required then (e.length : ℤ) else e.trailingStart) e = e.counted required := by
  cases required with
  | true => exact List.take_length
  | false => exact (List.prefix_iff_eq_take.1 e.complete_prefix).symm

end Expression

theorem Arithmetic.evaluate_required (a : Arithmetic) (degrees : Bool) (e : Expression) :
    a.evaluate degrees true e =
      Grammar.evaluateWithin (a.mode degrees) Grammar.nestingLimit e.length e := rfl

theorem Arithmetic.evaluate_keeps (a : Arithmetic) (degrees required : Bool) {e : Expression}
    {names : ℕ → Term} {m : Memory} (hk : a.kernel.Accurate) (hm : m.Sound names)
    (he : ∀ t ∈ e, t.Consistent names) :
    (a.evaluate degrees required e m).2.Sound names ∧
      ∀ v, (a.evaluate degrees required e m).1 = .ok v → v.real.Consistent names := by
  have hk : (a.mode degrees).kernel.Accurate := hk
  unfold evaluate evaluateIn Grammar.evaluate
  exact Grammar.evaluateWithin_keeps hk hm he

/-- An expression comes to the same, whatever is kept, if the factorials in it are settled. -/
theorem Arithmetic.evaluate_eq_of_steady (a : Arithmetic) (degrees required : Bool) {e : Expression}
    {names names' : ℕ → Term} {m m' : Memory} (hk : a.kernel.Accurate) (hm : m.Sound names)
    (hm' : m'.Sound names') (he : ∀ t ∈ e, t.Consistent names ∧ t.Consistent names')
    (hsteady : Grammar.Steady (a.mode degrees) names (e.counted required)) :
    (a.evaluate degrees required e m).1 = (a.evaluate degrees required e m').1 := by
  refine Grammar.evaluateWithin_eq_of_steady hk hm hm' he ?_
  rw [Expression.range_counted]
  exact hsteady

end Reckoner
