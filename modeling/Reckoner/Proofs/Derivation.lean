import Reckoner.Proofs.Lookahead
/-!
The grammar as a relation. `Derives` says which tokens make up a phrase and what its tree is: the
rules of the grammar with all their choices, among them whether a closing parenthesis stands or the
tokens end, and whether a multiplication sign stands. A phrase ends before an operator that binds
less tightly than what its rule reads; of two phrases at the front of the same tokens that end so,
there is one (`Derives.unique`).
-/
namespace Reckoner.Grammar

/-- A derivation: which rules a phrase comes about by, without those that only pass it on. -/
inductive Tree where
  | number (l : Literal)
  | collapsed (value : Dual)
  | constant (c : Constant)
  | root (negative : Bool) (t : Tree)
  | group (closed : Bool) (t : Tree)
  | call (f : FunctionName) (closed : Bool) (t : Tree)
  | suffix (op : SuffixOperator) (t : Tree)
  | power (s t : Tree)
  | opposite (t : Tree)
  /-- A product, with or without a sign. -/
  | product (signed : Bool) (s t : Tree)
  | quotient (s t : Tree)
  | sum (s t : Tree)
  | difference (s t : Tree)
  deriving DecidableEq

/-- A phrase of a rule, or the rest of a repetition after what has been read of it. -/
inductive Part where
  | rule (r : Rule)
  | suffixes (x : Tree)
  | products (x : Tree)
  | sums (x : Tree)

/-- What stands at the end of a phrase in parentheses: one that closes them, or nothing at all. -/
inductive Closes : List Token → Bool → List Token → Prop where
  | closing {rest : List Token} : Closes (.operator .closing :: rest) true rest
  | ending : Closes [] false []

/-- `Derives p ts t rest`: the tokens `ts` are a part `p` with the tree `t`, and the tokens `rest`. -/
inductive Derives : Part → List Token → Tree → List Token → Prop where
  | number {l : Literal} {ts : List Token} : Derives (.rule .unary) (.literal l :: ts) (.number l) ts
  | collapsed {name : Nat} {value : Dual} {source : Expression} {context : Context} {short : String}
      {ts : List Token} :
      Derives (.rule .unary) (.collapsed name value source context short :: ts) (.collapsed value) ts
  | constant {c : Constant} {ts : List Token} :
      Derives (.rule .unary) (.operator (.constant c) :: ts) (.constant c) ts
  | root {ts rest : List Token} {t : Tree} (h : Derives (.rule .unary) ts t rest) :
      Derives (.rule .unary) (.operator .root :: ts) (.root false t) rest
  | rootMinus {ts rest : List Token} {t : Tree} (h : Derives (.rule .unary) ts t rest) :
      Derives (.rule .unary) (.operator .root :: .operator (.binary .minus) :: ts) (.root true t) rest
  | group {ts mid rest : List Token} {t : Tree} {closed : Bool} (h : Derives (.rule .expr) ts t mid)
      (hc : Closes mid closed rest) :
      Derives (.rule .unary) (.operator .opening :: ts) (.group closed t) rest
  | call {f : FunctionName} {ts mid rest : List Token} {t : Tree} {closed : Bool}
      (h : Derives (.rule .expr) ts t mid) (hc : Closes mid closed rest) :
      Derives (.rule .unary) (.operator (.function f) :: ts) (.call f closed t) rest
  | suffix {ts mid rest : List Token} {x t : Tree} (h : Derives (.rule .unary) ts x mid)
      (h' : Derives (.suffixes x) mid t rest) : Derives (.rule .suffix) ts t rest
  | suffixesDone {x : Tree} {ts : List Token} : Derives (.suffixes x) ts x ts
  | suffixesMore {x t : Tree} {op : SuffixOperator} {ts rest : List Token}
      (h : Derives (.suffixes (.suffix op x)) ts t rest) :
      Derives (.suffixes x) (.operator (.suffix op) :: ts) t rest
  | factor {ts rest : List Token} {t : Tree} (h : Derives (.rule .suffix) ts t rest) :
      Derives (.rule .factor) ts t rest
  | power {ts mid rest : List Token} {s t : Tree}
      (h : Derives (.rule .suffix) ts s (.operator (.binary .power) :: mid))
      (h' : Derives (.rule .signedFactor) mid t rest) : Derives (.rule .factor) ts (.power s t) rest
  | signedFactor {ts rest : List Token} {t : Tree} (h : Derives (.rule .factor) ts t rest) :
      Derives (.rule .signedFactor) ts t rest
  | opposite {ts rest : List Token} {t : Tree} (h : Derives (.rule .factor) ts t rest) :
      Derives (.rule .signedFactor) (.operator (.binary .minus) :: ts) (.opposite t) rest
  | term {ts mid rest : List Token} {x t : Tree} (h : Derives (.rule .signedFactor) ts x mid)
      (h' : Derives (.products x) mid t rest) : Derives (.rule .term) ts t rest
  | productsDone {x : Tree} {ts : List Token} : Derives (.products x) ts x ts
  | times {ts mid rest : List Token} {x y t : Tree} (h : Derives (.rule .signedFactor) ts y mid)
      (h' : Derives (.products (.product true x y)) mid t rest) :
      Derives (.products x) (.operator (.binary .times) :: ts) t rest
  | dividedBy {ts mid rest : List Token} {x y t : Tree} (h : Derives (.rule .signedFactor) ts y mid)
      (h' : Derives (.products (.quotient x y)) mid t rest) :
      Derives (.products x) (.operator (.binary .over) :: ts) t rest
  /-- A factor beside another is multiplied; it has no minus of its own. -/
  | beside {ts mid rest : List Token} {x y t : Tree} (h : Derives (.rule .factor) ts y mid)
      (h' : Derives (.products (.product false x y)) mid t rest) : Derives (.products x) ts t rest
  | expr {ts mid rest : List Token} {x t : Tree} (h : Derives (.rule .term) ts x mid)
      (h' : Derives (.sums x) mid t rest) : Derives (.rule .expr) ts t rest
  | sumsDone {x : Tree} {ts : List Token} : Derives (.sums x) ts x ts
  | plus {ts mid rest : List Token} {x y t : Tree} (h : Derives (.rule .term) ts y mid)
      (h' : Derives (.sums (.sum x y)) mid t rest) :
      Derives (.sums x) (.operator (.binary .plus) :: ts) t rest
  | minus {ts mid rest : List Token} {x y t : Tree} (h : Derives (.rule .term) ts y mid)
      (h' : Derives (.sums (.difference x y)) mid t rest) :
      Derives (.sums x) (.operator (.binary .minus) :: ts) t rest

/-- How tightly the phrases of a rule bind. -/
def Rule.level : Rule → Nat
  | .expr => 0
  | .term => 1
  | .signedFactor => 2
  | .factor => 3
  | .suffix => 4
  | .unary => 5

/-- How tightly a part binds: a repetition as its rule. -/
def Part.level : Part → Nat
  | .rule r => r.level
  | .sums _ => Rule.expr.level
  | .products _ => Rule.term.level
  | .suffixes _ => Rule.suffix.level

/-- How tightly the token ahead binds what is before it. -/
def tightness : List Token → Nat
  | [] => 0
  | .operator .closing :: _ => 0
  | .operator (.binary .plus) :: _ => 1
  | .operator (.binary .minus) :: _ => 1
  | .operator (.binary .power) :: _ => 4
  | .operator (.suffix _) :: _ => 5
  | _ => 2

/-- Whether a part can end here. -/
def Part.EndsAt (p : Part) (rest : List Token) : Prop := tightness rest ≤ p.level

/-- How many tokens a part has at least. -/
def Part.least : Part → Nat
  | .rule _ => 1
  | _ => 0

theorem Closes.tightness_le {mid rest : List Token} {closed : Bool} (h : Closes mid closed rest) :
    tightness mid ≤ 0 := by
  cases h <;> exact Nat.le_refl 0

theorem Closes.length_le {mid rest : List Token} {closed : Bool} (h : Closes mid closed rest) :
    rest.length ≤ mid.length := by
  cases h
  · exact Nat.le_succ _
  · exact Nat.le_refl _

theorem Closes.isSuffix {mid rest : List Token} {closed : Bool} (h : Closes mid closed rest) :
    rest <:+ mid := by
  cases h
  · exact List.suffix_cons _ _
  · exact List.suffix_refl _

theorem Closes.unique {mid rest rest' : List Token} {closed closed' : Bool}
    (h : Closes mid closed rest) (h' : Closes mid closed' rest') :
    closed = closed' ∧ rest = rest' := by
  cases h <;> cases h' <;> exact ⟨rfl, rfl⟩

/-- Whether a part is a phrase that has no minus of its own. -/
def Part.isUnsigned : Part → Bool
  | .rule .unary | .rule .suffix | .rule .factor => true
  | _ => false

theorem tightness_le (ts : List Token) : tightness ts ≤ 5 := by
  fun_cases tightness ts <;> decide

/-- Only a sign stands between a power and a product. -/
theorem tightness_le_two {ts : List Token} (h : tightness ts ≤ 3) : tightness ts ≤ 2 := by
  fun_cases tightness ts <;> simp_all [tightness]

theorem tightness_of_canStartFactor {ts : List Token} (h : canStartFactor ts = true) :
    tightness ts = 2 := by
  fun_cases tightness ts <;> simp_all [canStartFactor, Key.isBinary, Key.isSuffix]

namespace Derives

variable {p : Part} {ts ts' rest rest' : List Token} {x t t' : Tree}

theorem canStartFactor (h : Derives p ts t rest) (hp : p.isUnsigned) :
    canStartFactor ts = true := by
  induction h with
  | suffix h h' ih ih' => exact ih rfl
  | factor h ih => exact ih rfl
  | power h h' ih ih' => exact ih rfl
  | number | collapsed | constant | root | rootMinus | group | call => rfl
  | _ => cases hp

/-- A product does not end before a factor. -/
theorem not_endsAt (h : Derives (.rule .factor) ts t rest) : ¬ (Part.products x).EndsAt ts := by
  unfold Part.EndsAt
  rw [tightness_of_canStartFactor (h.canStartFactor rfl)]
  exact Nat.not_succ_le_self 1

theorem tightness_products (h : Derives (.products x) ts t rest)
    (hend : (Part.products x).EndsAt rest) : tightness ts ≤ 2 := by
  cases h with
  | productsDone => exact Nat.le_succ_of_le hend
  | times | dividedBy => exact Nat.le_refl 2
  | beside h => exact Nat.le_of_eq (tightness_of_canStartFactor (h.canStartFactor rfl))

theorem tightness_sums (h : Derives (.sums x) ts t rest) (hend : (Part.sums x).EndsAt rest) :
    tightness ts ≤ 1 := by
  cases h with
  | sumsDone => exact Nat.le_succ_of_le hend
  | plus | minus => exact Nat.le_refl 1

/-- Of two parts of one kind at the front of the same tokens, both of which end before an operator that
binds less tightly, there is one. -/
theorem unique (h : Derives p ts t rest) (h' : Derives p ts t' rest') (hend : p.EndsAt rest)
    (hend' : p.EndsAt rest') : t = t' ∧ rest = rest' := by
  induction h generalizing t' rest' with
  | number | collapsed | constant =>
    cases h'
    exact ⟨rfl, rfl⟩
  | root h ih =>
    cases h' with
    | root h' =>
      obtain ⟨rfl, rfl⟩ := ih h' hend hend'
      exact ⟨rfl, rfl⟩
    | rootMinus h' => cases h.canStartFactor rfl
  | rootMinus h ih =>
    cases h' with
    | root h' => cases h'.canStartFactor rfl
    | rootMinus h' =>
      obtain ⟨rfl, rfl⟩ := ih h' hend hend'
      exact ⟨rfl, rfl⟩
  | group h hc ih =>
    cases h' with
    | group h' hc' =>
      obtain ⟨rfl, rfl⟩ := ih h' hc.tightness_le hc'.tightness_le
      obtain ⟨rfl, rfl⟩ := hc.unique hc'
      exact ⟨rfl, rfl⟩
  | call h hc ih =>
    cases h' with
    | call h' hc' =>
      obtain ⟨rfl, rfl⟩ := ih h' hc.tightness_le hc'.tightness_le
      obtain ⟨rfl, rfl⟩ := hc.unique hc'
      exact ⟨rfl, rfl⟩
  | suffix h₁ h₂ ih₁ ih₂ =>
    cases h' with
    | suffix h₁' h₂' =>
      obtain ⟨rfl, rfl⟩ := ih₁ h₁' (tightness_le _) (tightness_le _)
      exact ih₂ h₂' hend hend'
  | suffixesDone =>
    cases h' with
    | suffixesDone => exact ⟨rfl, rfl⟩
    | suffixesMore h' => exact absurd hend (Nat.not_succ_le_self 4)
  | suffixesMore h ih =>
    cases h' with
    | suffixesDone => exact absurd hend' (Nat.not_succ_le_self 4)
    | suffixesMore h' => exact ih h' hend hend'
  | factor h ih =>
    cases h' with
    | factor h' => exact ih h' (Nat.le_succ_of_le hend) (Nat.le_succ_of_le hend')
    | power h₁' h₂' =>
      obtain ⟨-, rfl⟩ := ih h₁' (Nat.le_succ_of_le hend) (Nat.le_refl 4)
      exact absurd hend (Nat.not_succ_le_self 3)
  | power h₁ h₂ ih₁ ih₂ =>
    cases h' with
    | factor h' =>
      obtain ⟨-, rfl⟩ := ih₁ h' (Nat.le_refl 4) (Nat.le_succ_of_le hend')
      exact absurd hend' (Nat.not_succ_le_self 3)
    | power h₁' h₂' =>
      obtain ⟨rfl, hmid⟩ := ih₁ h₁' (Nat.le_refl 4) (Nat.le_refl 4)
      obtain rfl := (List.cons.inj hmid).2
      obtain ⟨rfl, rfl⟩ := ih₂ h₂' (tightness_le_two hend) (tightness_le_two hend')
      exact ⟨rfl, rfl⟩
  | signedFactor h ih =>
    cases h' with
    | signedFactor h' => exact ih h' (Nat.le_succ_of_le hend) (Nat.le_succ_of_le hend')
    | opposite h' => cases h.canStartFactor rfl
  | opposite h ih =>
    cases h' with
    | signedFactor h' => cases h'.canStartFactor rfl
    | opposite h' =>
      obtain ⟨rfl, rfl⟩ := ih h' (Nat.le_succ_of_le hend) (Nat.le_succ_of_le hend')
      exact ⟨rfl, rfl⟩
  | term h₁ h₂ ih₁ ih₂ =>
    cases h' with
    | term h₁' h₂' =>
      obtain ⟨rfl, rfl⟩ := ih₁ h₁' (h₂.tightness_products hend) (h₂'.tightness_products hend')
      exact ih₂ h₂' hend hend'
  | productsDone =>
    cases h' with
    | productsDone => exact ⟨rfl, rfl⟩
    | times | dividedBy => exact absurd hend (Nat.not_succ_le_self 1)
    | beside h₁' h₂' => exact absurd hend h₁'.not_endsAt
  | times h₁ h₂ ih₁ ih₂ =>
    cases h' with
    | productsDone => exact absurd hend' (Nat.not_succ_le_self 1)
    | times h₁' h₂' =>
      obtain ⟨rfl, rfl⟩ := ih₁ h₁' (h₂.tightness_products hend) (h₂'.tightness_products hend')
      exact ih₂ h₂' hend hend'
    | beside h₁' h₂' => cases h₁'.canStartFactor rfl
  | dividedBy h₁ h₂ ih₁ ih₂ =>
    cases h' with
    | productsDone => exact absurd hend' (Nat.not_succ_le_self 1)
    | dividedBy h₁' h₂' =>
      obtain ⟨rfl, rfl⟩ := ih₁ h₁' (h₂.tightness_products hend) (h₂'.tightness_products hend')
      exact ih₂ h₂' hend hend'
    | beside h₁' h₂' => cases h₁'.canStartFactor rfl
  | beside h₁ h₂ ih₁ ih₂ =>
    cases h' with
    | productsDone => exact absurd hend' h₁.not_endsAt
    | times | dividedBy => cases h₁.canStartFactor rfl
    | beside h₁' h₂' =>
      obtain ⟨rfl, rfl⟩ := ih₁ h₁' (Nat.le_succ_of_le (h₂.tightness_products hend))
        (Nat.le_succ_of_le (h₂'.tightness_products hend'))
      exact ih₂ h₂' hend hend'
  | expr h₁ h₂ ih₁ ih₂ =>
    cases h' with
    | expr h₁' h₂' =>
      obtain ⟨rfl, rfl⟩ := ih₁ h₁' (h₂.tightness_sums hend) (h₂'.tightness_sums hend')
      exact ih₂ h₂' hend hend'
  | sumsDone =>
    cases h' with
    | sumsDone => exact ⟨rfl, rfl⟩
    | plus | minus => exact absurd hend (Nat.not_succ_le_self 0)
  | plus h₁ h₂ ih₁ ih₂ =>
    cases h' with
    | sumsDone => exact absurd hend' (Nat.not_succ_le_self 0)
    | plus h₁' h₂' =>
      obtain ⟨rfl, rfl⟩ := ih₁ h₁' (h₂.tightness_sums hend) (h₂'.tightness_sums hend')
      exact ih₂ h₂' hend hend'
  | minus h₁ h₂ ih₁ ih₂ =>
    cases h' with
    | sumsDone => exact absurd hend' (Nat.not_succ_le_self 0)
    | minus h₁' h₂' =>
      obtain ⟨rfl, rfl⟩ := ih₁ h₁' (h₂.tightness_sums hend) (h₂'.tightness_sums hend')
      exact ih₂ h₂' hend hend'

/-- What is left of the tokens is at their end. -/
theorem isSuffix (h : Derives p ts t rest) : rest <:+ ts := by
  induction h with
  | number | collapsed | constant => exact List.suffix_cons _ _
  | suffixesDone | productsDone | sumsDone => exact List.suffix_refl _
  | group h hc ih | call h hc ih => exact (hc.isSuffix.trans ih).trans (List.suffix_cons _ _)
  | factor h ih | signedFactor h ih => exact ih
  | root h ih | opposite h ih | suffixesMore h ih => exact ih.trans (List.suffix_cons _ _)
  | rootMinus h ih => exact (ih.trans (List.suffix_cons _ _)).trans (List.suffix_cons _ _)
  | suffix h h' ih ih' | term h h' ih ih' | expr h h' ih ih' | beside h h' ih ih' =>
    exact ih'.trans ih
  | power h h' ih ih' => exact ih'.trans ((List.suffix_cons _ _).trans ih)
  | times h h' ih ih' | dividedBy h h' ih ih' | plus h h' ih ih' | minus h h' ih ih' =>
    exact (ih'.trans ih).trans (List.suffix_cons _ _)

/-- A phrase has tokens of its own, the rest of a repetition may have none. -/
theorem length_add_le (h : Derives p ts t rest) : rest.length + p.least ≤ ts.length := by
  induction h with
  | group h hc ih | call h hc ih =>
    have hle := hc.length_le
    simp only [Part.least, List.length_cons] at ih ⊢
    omega
  | suffix h h' ih ih' | term h h' ih ih' | expr h h' ih ih' | times h h' ih ih' | dividedBy h h' ih ih'
  | beside h h' ih ih' | plus h h' ih ih' | minus h h' ih ih' | power h h' ih ih' =>
    simp only [Part.least, List.length_cons] at ih ih' ⊢
    omega
  | root h ih | rootMinus h ih | suffixesMore h ih | factor h ih | signedFactor h ih
  | opposite h ih =>
    simp only [Part.least, List.length_cons] at ih ⊢
    omega
  | _ => exact Nat.le_refl _

theorem length_lt {r : Rule} (h : Derives (.rule r) ts t rest) : rest.length < ts.length :=
  h.length_add_le

end Derives

end Reckoner.Grammar
