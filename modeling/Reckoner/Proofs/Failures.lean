import Reckoner.Proofs.Agreement
/-!
Why an evaluation fails. The grammar stops it, or the value of a part, or the depth of the rules; or a
number among the tokens cannot be converted, because one of its digits has no place value or there
are too many of them (`literalValue_isOk`). There is no other reason (`evaluateWithin_error`).
-/
namespace Reckoner

open Reals

namespace Literal

open Text

/-- Every digit has a place value, and there are few enough of them to convert. -/
structure Convertible (l : Literal) : Prop where
  whole : ∀ c ∈ l.whole.toList, isDecimal c
  fraction : ∀ c ∈ l.fraction.toList, isDecimal c
  short : l.integral.length + l.fraction.length ≤ digitLimit

variable {l : Literal}

/-- The number as far as it is shown: without a point, nothing is that comes after it. -/
def shown (l : Literal) : Literal := if l.point then l else { l with fraction := "" }

theorem shown_of_point (h : l.point = true) : l.shown = l := if_pos h

theorem shown_of_not_point (h : l.point = false) : l.shown = { l with fraction := "" } :=
  if_neg (by simp [h])

theorem Numeric.shown_eq (h : l.Numeric) : l.shown = l := by
  cases hpoint : l.point with
  | true => exact shown_of_point hpoint
  | false =>
    rw [shown_of_not_point hpoint, ← h.point hpoint]

theorem shown_integral (l : Literal) : l.shown.integral = l.integral := by
  unfold shown
  split <;> rfl

theorem plainText_shown (l : Literal) : l.shown.plainText = l.plainText := by
  unfold shown
  split
  · rfl
  · rename_i h
    simp only [plainText, h, Bool.false_eq_true, if_false]

theorem Convertible.numeric_shown (h : l.Convertible) : l.shown.Numeric := by
  unfold shown
  split
  · rename_i hpoint
    exact ⟨h.whole, h.fraction, fun hnot => absurd (hpoint.symm.trans hnot) (by decide)⟩
  · exact ⟨h.whole, fun c hc => (by cases hc), fun _ => rfl⟩

/-- The exact value counts all digits. -/
theorem Convertible.exact_eq (h : l.Convertible) : l.exact = .ok l.number := by
  have hnumeric : Numeric { l with point := true } := ⟨h.whole, h.fraction, fun hp => by cases hp⟩
  exact (Literal.exact_eq hnumeric).trans (if_neg (Nat.not_lt.2 h.short))

/-- The real counts the digits that are shown. -/
theorem Convertible.real_eq (h : l.Convertible) : l.real = .ok (.rational l.shown.number) := by
  have hshort := h.short
  have hreal := Literal.real_eq h.numeric_shown
  have hfraction : l.shown.fraction.length ≤ l.fraction.length := by
    unfold shown
    split
    · exact Nat.le_refl _
    · exact Nat.zero_le _
  rw [shown_integral, if_neg (by omega)] at hreal
  rw [← hreal, real, real, plainText_shown]

end Literal

namespace Grammar

theorem literalValue_isOk {l : Literal} (h : l.Convertible) : ∃ v, literalValue l = .ok v := by
  refine ⟨⟨.rational l.shown.number, some l.number⟩, ?_⟩
  rw [literalValue, h.real_eq, h.exact_eq]
  rfl

/-- Whether an operand can start with the operator of a key. -/
def StartsOperand (k : Key) : Prop :=
  ∃ ts t rest, Derives (.rule .unary) (.operator k :: ts) t rest

theorem startsOperand_iff {k : Key} :
    StartsOperand k ↔
      k = .root ∨ k = .opening ∨ (∃ c, k = .constant c) ∨ ∃ f, k = .function f := by
  constructor
  · rintro ⟨ts, t, rest, h⟩
    cases h with
    | constant => exact .inr (.inr (.inl ⟨_, rfl⟩))
    | root | rootMinus => exact .inl rfl
    | group => exact .inr (.inl rfl)
    | call => exact .inr (.inr (.inr ⟨_, rfl⟩))
  · have hexpr : Derives (.rule .expr) [.operator (.constant .e)] (.constant .e) [] :=
      .expr (.term (.signedFactor (.factor (.suffix .constant .suffixesDone))) .productsDone) .sumsDone
    rintro (rfl | rfl | ⟨c, rfl⟩ | ⟨f, rfl⟩)
    · exact ⟨[.operator (.constant .e)], _, [], .root .constant⟩
    · exact ⟨_, _, _, .group hexpr .ending⟩
    · exact ⟨[], _, _, .constant⟩
    · exact ⟨_, _, _, .call hexpr .ending⟩

/-- What can stop the reading of tokens. -/
inductive Stops (ts : List Token) : Stop → Prop where
  | ending : Stops ts (.failure .unexpectedEnd [])
  | unrecognized {k : Key} {rest : List Token} (hk : ¬ StartsOperand k)
      (hrest : .operator k :: rest <:+ ts) :
      Stops ts (.failure .unrecognizedToken (.operator k :: rest))
  | nesting : Stops ts (.abort .nesting)
  | arithmetic {cause : ArithmeticError} : Stops ts (.abort (.arithmetic cause))
  | numeral {l : Literal} {cause : Text.NumeralError} (hl : .literal l ∈ ts)
      (h : ¬ l.Convertible) : Stops ts (.abort (.numeral cause))

/-- A reading that only such a stop can be the failure of. -/
def Explained {α : Type} (ts : List Token) (o : Recall Stop α) : Prop :=
  ∀ m stop, (o m).1 = .error stop → Stops ts stop

variable {mode : Mode} {depth count : Nat} {ts us rest : List Token} {v : Dual}

namespace Explained

variable {α β : Type}

theorem ok (x : α) : Explained ts (pure x : Recall Stop α) := by
  intro m stop h
  cases h

theorem bind {x : Recall Stop α} {f : α → Recall Stop β} (hx : Explained ts x)
    (hf : ∀ v m m', x m = (.ok v, m') → Explained ts (f v)) : Explained ts (x >>= f) := by
  intro m stop h
  rw [Recall.bind_apply] at h
  rcases hxm : x m with ⟨stop' | v, m'⟩
  · rw [hxm] at h
    obtain rfl := Except.error.inj h
    exact hx m stop' (congrArg Prod.fst hxm)
  · rw [hxm] at h
    exact hf v m m' hxm m' stop h

theorem arithmetic (x : Recall ArithmeticError α) :
    Explained ts (x.mapError fun e => .abort (.arithmetic e)) := by
  intro m stop h
  obtain ⟨cause, -, rfl⟩ := mapError_eq_error_iff.1 h
  exact .arithmetic

theorem orFail (x : Except ArithmeticError α) : Explained ts (orFail x) := by
  intro m stop h
  cases x with
  | error cause =>
    cases h
    exact .arithmetic
  | ok v => cases h

theorem number {l : Literal} (hl : .literal l ∈ ts) :
    Explained ts (orAbort ((literalValue l).mapError .numeral)) := by
  intro m stop h
  cases hvalue : literalValue l with
  | ok v =>
    rw [hvalue] at h
    cases h
  | error cause =>
    rw [hvalue] at h
    cases h
    refine .numeral hl fun hconvertible => ?_
    obtain ⟨v, hv⟩ := literalValue_isOk hconvertible
    rw [hv] at hvalue
    cases hvalue

theorem power (limit : Int) (x y : Dual) : Explained ts (orAbort (x.power limit depth y)) := by
  intro m stop h
  obtain ⟨e, he, rfl⟩ := mapError_eq_error_iff.1 h
  unfold Dual.power at he
  generalize Exact.pow limit x.exact y.exact = q, Exact.toInt? y.exact = n at he
  rcases q with cause | (_ | q)
  · cases he
    exact .arithmetic
  · cases n with
    | none => cases he
    | some n =>
      by_cases hdepth : depth < Graph.powerDepth n.natAbs
      · obtain rfl := Except.error.inj ((if_pos hdepth).symm.trans he)
        exact .nesting
      · cases (if_neg hdepth).symm.trans he
  · cases he

end Explained

theorem explained_applySuffix (op : SuffixOperator) (x : Dual) :
    Explained ts (applySuffix mode op x) := by
  cases op with
  | factorial =>
    rw [applySuffix_eq, suffixValue, Recall.mapError_mapError]
    exact .arithmetic _
  | square | percent => exact .ok _

theorem explained_suffixes : Explained ts (suffixes mode v us) := by
  fun_induction suffixes mode v us with
  | case1 v op rest ih => exact .bind (explained_applySuffix op v) fun w _ _ _ => ih w
  | case2 => exact .ok _

theorem explained_unrecognized {k : Key} (hk : ¬ StartsOperand k)
    (hrest : .operator k :: rest <:+ ts) :
    Explained ts (throw (.failure .unrecognizedToken (.operator k :: rest)) : Outcome) := by
  intro m stop h
  cases h
  exact .unrecognized hk hrest

theorem isSuffix_of_skipMinus {negative : Bool} (h : skipMinus ts = (negative, rest)) :
    rest <:+ ts := by
  cases negative with
  | false => rw [eq_of_skipMinus_false h]
  | true =>
    rw [eq_of_skipMinus_true h]
    exact List.suffix_cons _ _

/-! A rule that reads some of the tokens stops for such a reason if the rules that it calls do, which
leave tokens of those that they are given. -/

section

variable {sub : Rule → List Token → Outcome} (hsub : ∀ r us, us <:+ ts → Explained ts (sub r us))
  (hrest : ∀ r us p m m', us <:+ ts → sub r us m = (.ok p, m') → p.rest <:+ ts)

include hsub

theorem explained_unary (hus : us <:+ ts) : Explained ts (unary mode sub us) := by
  fun_cases unary mode sub us with
  | case1 =>
    intro m stop h
    cases h
    exact .ending
  | case2 l rest => exact .bind (.number (hus.mem List.mem_cons_self)) fun v _ _ _ => .ok _
  | case3 | case4 | case5 => exact .ok _
  | case6 us negative rest hskip =>
    have hrest' := isSuffix_of_skipMinus hskip
    exact .bind (hsub _ _ (hrest'.trans ((List.suffix_cons _ _).trans hus))) fun arg _ _ _ =>
      .bind (.orFail _) fun v _ _ _ => .ok _
  | case7 us => exact .bind (hsub _ _ ((List.suffix_cons _ _).trans hus)) fun arg _ _ _ => .ok _
  | case8 us f =>
    exact .bind (hsub _ _ ((List.suffix_cons _ _).trans hus)) fun arg _ _ _ =>
      .bind (.orFail _) fun v _ _ _ => .ok _
  | case9 rest k hpi he hroot hopening hfunction =>
    refine explained_unrecognized (fun h => ?_) hus
    rcases startsOperand_iff.1 h with rfl | rfl | ⟨c, rfl⟩ | ⟨f, rfl⟩
    · exact hroot rfl
    · exact hopening rfl
    · cases c <;> contradiction
    · exact hfunction f rfl

theorem explained_suffix (hus : us <:+ ts) : Explained ts (suffix mode sub us) :=
  .bind (hsub _ _ hus) fun _ _ _ _ => explained_suffixes

theorem explained_signedFactor (hus : us <:+ ts) : Explained ts (signedFactor sub us) := by
  unfold signedFactor
  split
  · rename_i rest hskip
    rw [eq_of_skipMinus_true hskip] at hus
    exact .bind (hsub _ _ ((List.suffix_cons _ _).trans hus)) fun _ _ _ _ => .ok _
  · rename_i rest hskip
    rw [eq_of_skipMinus_false hskip] at hus
    exact hsub _ _ hus

include hrest

theorem explained_factor (hus : us <:+ ts) : Explained ts (factor mode depth sub us) := by
  rw [factor_eq]
  refine .bind (hsub _ _ hus) fun base m m' hbase => ?_
  cases hafter : after? (.binary .power) base.rest with
  | none => exact .ok _
  | some rest =>
    have hmid := hrest _ _ _ _ _ hus hbase
    rw [after?_eq_some_iff.1 hafter] at hmid
    exact .bind (hsub _ _ ((List.suffix_cons _ _).trans hmid)) fun _ _ _ _ =>
      .bind (.power _ _ _) fun _ _ _ _ => .ok _

theorem explained_products (hus : us <:+ ts) : Explained ts (products mode sub count v us) := by
  fun_induction products mode sub count v us with
  | case1 | case2 | case6 => exact .ok _
  | case3 count v t us hkey ih =>
    have htail := (List.suffix_cons _ _).trans hus
    exact .bind (hsub _ _ htail) fun y _ _ hy => ih y (hrest _ _ _ _ _ htail hy)
  | case4 count v t us _ hkey ih =>
    have htail := (List.suffix_cons _ _).trans hus
    exact .bind (hsub _ _ htail) fun y _ _ hy =>
      .bind (.orFail _) fun w _ _ _ => ih y w (hrest _ _ _ _ _ htail hy)
  | case5 count v t us _ _ hstart ih =>
    exact .bind (hsub _ _ hus) fun y _ _ hy => ih y (hrest _ _ _ _ _ hus hy)

theorem explained_sums (hus : us <:+ ts) : Explained ts (sums mode sub count v us) := by
  fun_induction sums mode sub count v us with
  | case1 | case2 | case5 => exact .ok _
  | case3 count v t us hkey ih =>
    have htail := (List.suffix_cons _ _).trans hus
    exact .bind (hsub _ _ htail) fun y _ _ hy => ih y (hrest _ _ _ _ _ htail hy)
  | case4 count v t us _ hkey ih =>
    have htail := (List.suffix_cons _ _).trans hus
    exact .bind (hsub _ _ htail) fun y _ _ hy => ih y (hrest _ _ _ _ _ htail hy)

theorem explained_term (hus : us <:+ ts) : Explained ts (term mode sub us) :=
  .bind (hsub _ _ hus) fun _ _ _ hx => explained_products hsub hrest (hrest _ _ _ _ _ hus hx)

theorem explained_expr (hus : us <:+ ts) : Explained ts (expr mode sub us) :=
  .bind (hsub _ _ hus) fun _ _ _ hx => explained_sums hsub hrest (hrest _ _ _ _ _ hus hx)

end

theorem parse_explained (mode : Mode) (depth : Nat) (r : Rule) (hus : us <:+ ts) :
    Explained ts (parse mode depth r us) := by
  induction depth generalizing r us with
  | zero =>
    intro m stop h
    cases h
    exact .nesting
  | succ depth ih =>
    have hsub : ∀ r us, us <:+ ts → Explained ts (parse mode depth r us) := fun r us hus => ih r hus
    have hrest : ∀ r us p m m', us <:+ ts → parse mode depth r us m = (.ok p, m') →
        p.rest <:+ ts := by
      intro r us p m m' hus h
      obtain ⟨t, ht, -⟩ := parse_sound h
      exact ht.isSuffix.trans hus
    cases r with
    | unary => exact explained_unary hsub hus
    | suffix => exact explained_suffix hsub hus
    | factor => exact explained_factor hsub hrest hus
    | signedFactor => exact explained_signedFactor hsub hus
    | term => exact explained_term hsub hrest hus
    | expr => exact explained_expr hsub hrest hus

/-- An evaluation fails for what the grammar says, for a number that has no value, or for a number among
the tokens that cannot be converted. -/
theorem evaluateWithin_error {span : Int} {e : Failure} {m : Memory}
    (h : (evaluateWithin mode depth span ts m).1 = .error e) :
    (∃ cause, e = .grammar cause) ∨ (∃ cause, e = .arithmetic cause) ∨
      ∃ cause l, e = .numeral cause ∧ .literal l ∈ range span ts ∧ ¬ l.Convertible := by
  have hexplained := parse_explained mode depth .expr (List.suffix_refl (range span ts)) m
  unfold evaluateWithin at h
  dsimp only at h
  generalize parse mode depth .expr (range span ts) m = o at hexplained h
  obtain ⟨stop | parsed, m'⟩ := o
  · cases hexplained stop rfl with
    | ending | unrecognized =>
      cases h
      exact .inl ⟨_, rfl⟩
    | nesting | arithmetic =>
      cases h
      exact .inr (.inl ⟨_, rfl⟩)
    | numeral hl hnot =>
      cases h
      exact .inr (.inr ⟨_, _, rfl, hl, hnot⟩)
  · simp only [settle] at h
    split at h <;> cases h
    exact .inl ⟨_, rfl⟩

end Grammar

end Reckoner
