import Reckoner.Proofs.Congruence
import Reckoner.Proofs.Parsing
/-!
Two token lists read side by side, with a memory each. Where what stands ahead corresponds at every look
that the rules take, the outcomes correspond (`Lawful.parse`): the same failure, or related numbers with
corresponding tokens after them, and corresponding memories.
-/
namespace Reckoner

open Reals

namespace Grammar

/-- What is multiplied next: whether it divides, and the tokens that it starts with. -/
def nextFactor? : List Token → Option (Bool × List Token)
  | [] => none
  | t :: rest =>
    if t.isKey (.binary .times) then some (false, rest)
    else if t.isKey (.binary .over) then some (true, rest)
    else if canStartFactor (t :: rest) then some (false, t :: rest)
    else none

/-- What is added next: whether it is taken away, and the tokens that it starts with. -/
def nextTerm? : List Token → Option (Bool × List Token)
  | [] => none
  | t :: rest =>
    if t.isKey (.binary .plus) then some (false, rest)
    else if t.isKey (.binary .minus) then some (true, rest)
    else none

/-- The product, or the quotient. -/
def factorValue (mode : Mode) (divides : Bool) (x y : Dual) : Except Failure Dual :=
  if divides then (x.div mode.limit y).mapError .arithmetic else .ok (x.mul mode.limit y)

/-- The sum, or the difference. -/
def termValue (mode : Mode) (negative : Bool) (x y : Dual) : Except Failure Dual :=
  .ok (if negative then x.sub mode.limit y else x.add mode.limit y)

/-- A repetition that reads operands of a rule as long as `next?` finds one ahead. -/
structure Repeats (sub : Rule → List Token → Outcome) (rule : Rule)
    (next? : List Token → Option (Bool × List Token))
    (combine : Bool → Dual → Dual → Except Failure Dual)
    (loop : Nat → Dual → List Token → Outcome) : Prop where
  length_le : ∀ {ts inverse rest}, next? ts = some (inverse, rest) → rest.length ≤ ts.length
  stop : ∀ {count x ts}, next? ts = none → loop count x ts = return ⟨x, ts⟩
  go : ∀ {count x ts inverse rest}, next? ts = some (inverse, rest) → ts.length ≤ count →
    loop count x ts = (do
      let y ← sub rule rest
      loop (count - 1) (← orAbort (combine inverse x y.value)) y.rest)

theorem products_repeats (mode : Mode) (sub : Rule → List Token → Outcome) :
    Repeats sub .signedFactor nextFactor? (factorValue mode) (products mode sub) where
  length_le {ts inverse rest} h := by
    cases ts with
    | nil => cases h
    | cons t ts =>
      simp only [nextFactor?] at h
      split_ifs at h <;> cases h <;> simp
  stop {count x ts} h := by
    fun_cases products mode sub count x ts with
    | case3 _ _ _ _ hkey | case4 _ _ _ _ _ hkey | case5 _ _ _ _ _ _ hkey => simp_all [nextFactor?]
    | _ => rfl
  go {count x ts inverse rest} h hcount := by
    cases ts with
    | nil => cases h
    | cons t ts =>
      simp only [nextFactor?] at h
      obtain ⟨count, rfl⟩ := Nat.exists_eq_add_of_lt hcount
      split_ifs at h with htimes hover hstart <;> cases h
      · rw [products, if_pos htimes]
        rfl
      · rw [products, if_neg htimes, if_pos hover]
        rfl
      · rw [products, if_neg htimes, if_neg hover, if_pos hstart]
        rfl

theorem sums_repeats (mode : Mode) (sub : Rule → List Token → Outcome) :
    Repeats sub .term nextTerm? (termValue mode) (sums mode sub) where
  length_le {ts inverse rest} h := by
    cases ts with
    | nil => cases h
    | cons t ts =>
      simp only [nextTerm?] at h
      split_ifs at h <;> cases h <;> simp
  stop {count x ts} h := by
    fun_cases sums mode sub count x ts with
    | case3 _ _ _ _ hkey | case4 _ _ _ _ _ hkey => simp_all [nextTerm?]
    | _ => rfl
  go {count x ts inverse rest} h hcount := by
    cases ts with
    | nil => cases h
    | cons t ts =>
      simp only [nextTerm?] at h
      obtain ⟨count, rfl⟩ := Nat.exists_eq_add_of_lt hcount
      split_ifs at h with hplus hminus <;> cases h
      · rw [sums, if_pos hplus]
        rfl
      · rw [sums, if_neg hplus, if_pos hminus]
        rfl

theorem Derives.suffixes_concat {x t : Tree} {op : SuffixOperator} {ts rest : List Token}
    (h : Derives (.suffixes x) ts t (.operator (.suffix op) :: rest)) :
    Derives (.suffixes x) ts (.suffix op t) rest := by
  generalize hp : Part.suffixes x = p at h
  generalize hr : Token.operator (.suffix op) :: rest = mid at h
  induction h generalizing x with
  | suffixesDone =>
    obtain rfl := Part.suffixes.inj hp
    exact hr ▸ .suffixesMore .suffixesDone
  | suffixesMore h ih =>
    obtain rfl := Part.suffixes.inj hp
    exact .suffixesMore (ih rfl hr)
  | _ => cases hp

/-- Two readings side by side: which token lists correspond where an operand is to come and which after
an operand, which formulas and which memories correspond, and which stops on the left or on the right
need no counterpart. -/
structure Parallel where
  operand : List Token → List Token → Prop
  after : List Token → List Token → Prop
  formula : Term → Term → Prop
  memory : Memory → Memory → Prop
  excusedLeft : Stop → Prop
  excusedRight : Stop → Prop

namespace Parallel

/-- Corresponding numbers. -/
abbrev Like (P : Parallel) : Dual → Dual → Prop := Dual.Like P.formula

/-- Corresponding outcomes, with the memories that they leave. -/
inductive Matches (P : Parallel) :
    Except Stop Parsed × Memory → Except Stop Parsed × Memory → Prop where
  | excusedLeft {s : Stop} {m : Memory} {o : Except Stop Parsed × Memory} (h : P.excusedLeft s) :
      P.Matches (.error s, m) o
  | excusedRight {s : Stop} {m : Memory} {o : Except Stop Parsed × Memory}
      (h : P.excusedRight s) : P.Matches o (.error s, m)
  | ok {p q : Parsed} {m m' : Memory} (h : P.Like p.value q.value) (h' : P.after p.rest q.rest)
      (hm : P.memory m m') : P.Matches (.ok p, m) (.ok q, m')
  | failure {cause : GrammarError} {rest rest' : List Token} {m m' : Memory} (hm : P.memory m m') :
      P.Matches (.error (.failure cause rest), m) (.error (.failure cause rest'), m')
  | abort {e : Failure} {m m' : Memory} (hm : P.memory m m') :
      P.Matches (.error (.abort e), m) (.error (.abort e), m')

namespace Matches

variable {P : Parallel} {o o' : Outcome} {x y : Except Failure Dual} {m m' : Memory}

theorem bind {f g : Parsed → Outcome} (h : P.Matches (o m) (o' m'))
    (hf : ∀ p q m₁ m₁', o m = (.ok p, m₁) → o' m' = (.ok q, m₁') → P.Like p.value q.value →
      P.after p.rest q.rest → P.memory m₁ m₁' → P.Matches (f p m₁) (g q m₁')) :
    P.Matches ((o >>= f) m) ((o' >>= g) m') := by
  rw [Recall.bind_apply, Recall.bind_apply]
  generalize ho : o m = r, ho' : o' m' = r' at h
  cases h with
  | excusedLeft h => exact .excusedLeft h
  | excusedRight h => exact .excusedRight h
  | ok h h' hm => exact hf _ _ _ _ ho ho' h h' hm
  | failure hm => exact .failure hm
  | abort hm => exact .abort hm

theorem bind_value {f g : Dual → Outcome} (h : EndAlike P.Like x y) (hm : P.memory m m')
    (hf : ∀ v w, x = .ok v → y = .ok w → P.Like v w → P.Matches (f v m) (g w m')) :
    P.Matches ((orAbort x >>= f) m) ((orAbort y >>= g) m') := by
  cases h with
  | error e => exact .abort hm
  | ok h => exact hf _ _ rfl rfl h

theorem conclude {rest rest' : List Token} (h : EndAlike P.Like x y) (h' : P.after rest rest')
    (hm : P.memory m m') :
    P.Matches (conclude (.ofExcept x) rest m) (Grammar.conclude (.ofExcept y) rest' m') :=
  bind_value h hm fun _ _ _ _ hvw => .ok hvw h' hm

end Matches

/-- At every look ahead the same is seen on both sides, and what follows corresponds again. -/
structure Aligned (P : Parallel) : Prop where
  congruence : Term.Congruence P.formula
  minus : ∀ {ts ts'}, P.operand ts ts' →
    Option.Rel P.operand (after? (.binary .minus) ts) (after? (.binary .minus) ts')
  suffix : ∀ {ts ts'}, P.after ts ts' →
    Option.Rel (fun s s' => s.1 = s'.1 ∧ P.after s.2 s'.2) (suffix? ts) (suffix? ts')
  power : ∀ {ts ts'}, P.after ts ts' →
    Option.Rel P.operand (after? (.binary .power) ts) (after? (.binary .power) ts')
  factor : ∀ {ts ts'}, P.after ts ts' →
    Option.Rel (fun s s' => s.1 = s'.1 ∧ P.operand s.2 s'.2) (nextFactor? ts) (nextFactor? ts')
  term : ∀ {ts ts'}, P.after ts ts' →
    Option.Rel (fun s s' => s.1 = s'.1 ∧ P.operand s.2 s'.2) (nextTerm? ts) (nextTerm? ts')
  closing : ∀ {ts ts'}, P.after ts ts' → P.after (skipClosing ts) (skipClosing ts')

/-- Corresponding phrases where rules nest to at most `depth`. -/
def MatchesTo (P : Parallel) (mode : Mode) (depth : Nat) : Prop :=
  ∀ r ts ts' m m', P.operand ts ts' → P.memory m m' →
    P.Matches (parse mode depth r ts m) (parse mode depth r ts' m')

/-- Operands correspond if phrases do that nest less deeply, and so do the factorials of corresponding
numbers, each of which has been read before its sign. -/
structure Lawful (P : Parallel) (mode : Mode) : Prop extends P.Aligned where
  unary : ∀ {depth ts ts' m m'}, P.MatchesTo mode depth → P.operand ts ts' → P.memory m m' →
    P.Matches (unary mode (parse mode depth) ts m) (unary mode (parse mode depth) ts' m')
  factorial : ∀ {ts ts' rest rest' t t' x y m₀ m₀' m m'}, P.operand ts ts' →
    Derives (.rule .suffix) ts t (.operator (.suffix .factorial) :: rest) →
    Derives (.rule .suffix) ts' t' (.operator (.suffix .factorial) :: rest') →
    P.memory m₀ m₀' → t.value mode m₀ = (.ok x, m) → t'.value mode m₀' = (.ok y, m') →
    P.Like x y → P.memory m m' →
    EndAlike P.Like (x.factorial mode.kernel m).1 (y.factorial mode.kernel m').1 ∧
      P.memory (x.factorial mode.kernel m).2 (y.factorial mode.kernel m').2

/-- The same literal or operator, or collapsed tokens with related numbers. -/
inductive SameToken (R : Term → Term → Prop) : Token → Token → Prop where
  | literal (l : Literal) : SameToken R (.literal l) (.literal l)
  | operator (k : Key) : SameToken R (.operator k) (.operator k)
  | collapsed {name name' value value' source source' context context' short short'}
      (h : Dual.Like R value value') :
      SameToken R (.collapsed name value source context short)
        (.collapsed name' value' source' context' short')

theorem SameToken.refl {R : Term → Term → Prop} (hR : ∀ t, R t t) (t : Token) : SameToken R t t := by
  cases t with
  | literal l => exact .literal l
  | operator k => exact .operator k
  | collapsed name value source context short => exact .collapsed ⟨hR _, rfl⟩

/-! The looks ahead at lists that start with the same token. -/

namespace SameToken

variable {Q : List Token → List Token → Prop} {R : Term → Term → Prop} {t t' : Token}
  {ts ts' : List Token}

theorem after? (ht : SameToken R t t') (k : Key) (h : Q ts ts') :
    Option.Rel Q (after? k (t :: ts)) (Grammar.after? k (t' :: ts')) := by
  cases ht with
  | operator k' =>
    by_cases hk : k' = k
    · simp only [Grammar.after?, if_pos hk]
      exact .some h
    · simp only [Grammar.after?, if_neg hk]
      exact .none
  | _ => exact .none

theorem suffix? (ht : SameToken R t t') (h : Q ts ts') :
    Option.Rel (fun s s' => s.1 = s'.1 ∧ Q s.2 s'.2) (suffix? (t :: ts))
      (Grammar.suffix? (t' :: ts')) := by
  cases ht with
  | operator k =>
    cases k with
    | suffix op => exact .some ⟨rfl, h⟩
    | _ => exact .none
  | _ => exact .none

theorem canStartFactor (ht : SameToken R t t') (ts ts' : List Token) :
    canStartFactor (t :: ts) = Grammar.canStartFactor (t' :: ts') := by
  cases ht <;> rfl

theorem isKey (ht : SameToken R t t') (k : Key) : t.isKey k = t'.isKey k := by
  cases ht <;> rfl

theorem nextFactor? (ht : SameToken R t t') (h : Q ts ts') (h' : Q (t :: ts) (t' :: ts')) :
    Option.Rel (fun s s' => s.1 = s'.1 ∧ Q s.2 s'.2) (nextFactor? (t :: ts))
      (Grammar.nextFactor? (t' :: ts')) := by
  simp only [Grammar.nextFactor?, ht.canStartFactor ts ts', ht.isKey]
  split_ifs
  · exact .some ⟨rfl, h⟩
  · exact .some ⟨rfl, h⟩
  · exact .some ⟨rfl, h'⟩
  · exact .none

theorem nextTerm? (ht : SameToken R t t') (h : Q ts ts') :
    Option.Rel (fun s s' => s.1 = s'.1 ∧ Q s.2 s'.2) (nextTerm? (t :: ts))
      (Grammar.nextTerm? (t' :: ts')) := by
  simp only [Grammar.nextTerm?, ht.isKey]
  split_ifs
  · exact .some ⟨rfl, h⟩
  · exact .some ⟨rfl, h⟩
  · exact .none

theorem skipClosing (ht : SameToken R t t') (h : Q ts ts') (h' : Q (t :: ts) (t' :: ts')) :
    Q (skipClosing (t :: ts)) (Grammar.skipClosing (t' :: ts')) := by
  cases ht with
  | operator k => cases k <;> assumption
  | _ => exact h'

end SameToken

/-- Whether an operand comes after a token that one can start with. -/
def opens : Token → Bool
  | .operator .root | .operator .opening | .operator (.function _) => true
  | _ => false

variable {P : Parallel} {mode : Mode} {depth : Nat} {ts ts' rest rest' : List Token} {x y : Dual}
  {m m' m₀ m₀' : Memory}

namespace Aligned

theorem skipMinus (h : P.Aligned) (hts : P.operand ts ts') :
    (skipMinus ts).1 = (Grammar.skipMinus ts').1 ∧
      P.operand (Grammar.skipMinus ts).2 (Grammar.skipMinus ts').2 := by
  have hlook := h.minus hts
  rw [skipMinus_eq, skipMinus_eq]
  generalize after? (.binary .minus) ts = look, after? (.binary .minus) ts' = look' at hlook
  cases hlook with
  | none => exact ⟨rfl, hts⟩
  | some hrest => exact ⟨rfl, hrest⟩

theorem like_literal (h : P.Aligned) (l : Literal) :
    EndAlike P.Like (literalValue l) (literalValue l) := by
  cases hv : literalValue l with
  | error e => exact .error e
  | ok v =>
    obtain ⟨t, ht, hv⟩ := bind_eq_ok_iff.1 hv
    obtain ⟨q, hq, hv⟩ := bind_eq_ok_iff.1 hv
    unfold Literal.real at ht
    cases hr : Text.readRational l.plainText with
    | error e =>
      rw [hr] at ht
      cases ht
    | ok r =>
      rw [hr] at ht
      cases ht
      cases hv
      exact .ok ⟨h.congruence.rational r, rfl⟩

/-- The same token on both sides. -/
theorem unary_cons (h : P.Aligned) (hsub : P.MatchesTo mode depth) {t t' : Token}
    (ht : SameToken P.formula t t') (hafter : opens t = false → P.after ts ts')
    (hoperand : opens t = true → P.operand ts ts') (hm : P.memory m m') :
    P.Matches (unary mode (parse mode depth) (t :: ts) m)
      (unary mode (parse mode depth) (t' :: ts') m') := by
  cases ht with
  | literal l => exact Matches.conclude ((h.like_literal l).mapError _) (hafter rfl) hm
  | collapsed hvalue => exact .ok hvalue (hafter rfl) hm
  | operator k =>
    cases k with
    | constant c =>
      cases c with
      | pi => exact .ok ⟨h.congruence.pi, rfl⟩ (hafter rfl) hm
      | e => exact .ok ⟨h.congruence.e, rfl⟩ (hafter rfl) hm
    | root =>
      obtain ⟨hsign, hrest⟩ := h.skipMinus (hoperand rfl)
      simp only [unary]
      refine (hsub .unary _ _ _ _ hrest hm).bind fun p q _ _ _ _ hvalue hend hm => ?_
      refine Matches.conclude (.mapError ?_ _) hend hm
      rw [hsign]
      split
      · exact (hvalue.neg h.congruence).sqrt h.congruence
      · exact hvalue.sqrt h.congruence
    | opening =>
      refine (hsub .expr _ _ _ _ (hoperand rfl) hm).bind fun p q _ _ _ _ hvalue hend hm => ?_
      exact .ok hvalue (h.closing hend) hm
    | function f =>
      refine (hsub .expr _ _ _ _ (hoperand rfl) hm).bind fun p q _ _ _ _ hvalue hend hm => ?_
      exact Matches.conclude (.mapError (hvalue.apply h.congruence _ f) _) (h.closing hend) hm
    | _ => exact .failure hm

end Aligned

namespace Lawful

section

variable (h : P.Lawful mode) (hsub : P.MatchesTo mode depth)

include h hsub

omit hsub in
/-- An operator written after operands that have been read. -/
theorem applySuffix {t t' : Tree} {op : SuffixOperator} {f g : Dual → Outcome}
    (hts : P.operand ts ts')
    (ht : Derives (.rule .suffix) ts t (.operator (.suffix op) :: rest))
    (ht' : Derives (.rule .suffix) ts' t' (.operator (.suffix op) :: rest'))
    (hm₀ : P.memory m₀ m₀') (hx : t.value mode m₀ = (.ok x, m))
    (hy : t'.value mode m₀' = (.ok y, m')) (hxy : P.Like x y) (hm : P.memory m m')
    (hf : ∀ v w m₁ m₁', (Tree.suffix op t).value mode m₀ = (.ok v, m₁) →
      (Tree.suffix op t').value mode m₀' = (.ok w, m₁') → P.Like v w → P.memory m₁ m₁' →
      P.Matches (f v m₁) (g w m₁')) :
    P.Matches ((Grammar.applySuffix mode op x >>= f) m)
      ((Grammar.applySuffix mode op y >>= g) m') := by
  have hvalue : ∀ {v m₁}, suffixValue mode op x m = (.ok v, m₁) →
      (Tree.suffix op t).value mode m₀ = (.ok v, m₁) :=
    fun hv => run_bind_eq_ok_iff.2 ⟨_, _, hx, hv⟩
  have hvalue' : ∀ {v m₁}, suffixValue mode op y m' = (.ok v, m₁) →
      (Tree.suffix op t').value mode m₀' = (.ok v, m₁) :=
    fun hv => run_bind_eq_ok_iff.2 ⟨_, _, hy, hv⟩
  cases op with
  | factorial =>
    obtain ⟨hend, hleft⟩ := h.factorial hts ht ht' hm₀ hx hy hxy hm
    rw [applySuffix_eq, applySuffix_eq, Recall.bind_apply, Recall.bind_apply]
    simp only [suffixValue, Recall.mapError_apply] at hvalue hvalue' ⊢
    generalize (x.factorial mode.kernel m).1 = r, (y.factorial mode.kernel m').1 = r' at *
    cases hend with
    | error e => exact .abort hleft
    | ok hvw => exact hf _ _ _ _ (hvalue rfl) (hvalue' rfl) hvw hleft
  | square => exact hf _ _ _ _ (hvalue rfl) (hvalue' rfl) (hxy.square h.congruence _) hm
  | percent => exact hf _ _ _ _ (hvalue rfl) (hvalue' rfl) (hxy.percent h.congruence _) hm

omit hsub in
theorem suffixes {b b' t t' : Tree} {us us' : List Token} (hts : P.operand ts ts')
    (hb : Derives (.rule .unary) ts b us) (hb' : Derives (.rule .unary) ts' b' us')
    (ht : Derives (.suffixes b) us t rest) (ht' : Derives (.suffixes b') us' t' rest')
    (hm₀ : P.memory m₀ m₀') (hx : t.value mode m₀ = (.ok x, m))
    (hy : t'.value mode m₀' = (.ok y, m')) (hxy : P.Like x y) (hm : P.memory m m')
    (hrest : P.after rest rest') :
    P.Matches (Grammar.suffixes mode x rest m) (Grammar.suffixes mode y rest' m') := by
  induction hn : rest.length using Nat.strongRecOn generalizing rest rest' t t' x y m m' with
  | ind n ih =>
    have hlook := h.suffix hrest
    rw [suffixes_eq, suffixes_eq mode y]
    generalize hs : suffix? rest = look, hs' : suffix? rest' = look' at hlook
    cases hlook with
    | none => exact .ok hxy hrest hm
    | @some s s' hnext =>
      obtain ⟨op, next⟩ := s
      obtain ⟨op', next'⟩ := s'
      obtain ⟨rfl, hnext⟩ : op = op' ∧ P.after next next' := hnext
      obtain rfl := suffix?_eq_some_iff.1 hs
      obtain rfl := suffix?_eq_some_iff.1 hs'
      refine h.applySuffix hts (.suffix hb ht) (.suffix hb' ht') hm₀ hx hy hxy hm
        fun v w m₁ m₁' hv hw hvw hm₁ => ?_
      refine ih next.length ?_ ht.suffixes_concat ht'.suffixes_concat hv hw hvw hm₁ hnext rfl
      rw [← hn]
      exact Nat.lt_succ_self _

theorem suffixPhrase (hts : P.operand ts ts') (hm : P.memory m m') :
    P.Matches (Grammar.suffix mode (parse mode depth) ts m)
      (Grammar.suffix mode (parse mode depth) ts' m') := by
  refine (hsub .unary _ _ _ _ hts hm).bind fun p q _ _ hp hq hvalue hend hm₁ => ?_
  obtain ⟨b, hb, hx, -⟩ := parse_sound hp
  obtain ⟨b', hb', hy, -⟩ := parse_sound hq
  exact h.suffixes hts hb hb' .suffixesDone .suffixesDone hm hx hy hvalue hm₁ hend

theorem factorPhrase (hts : P.operand ts ts') (hm : P.memory m m') :
    P.Matches (Grammar.factor mode depth (parse mode depth) ts m)
      (Grammar.factor mode depth (parse mode depth) ts' m') := by
  rw [factor_eq_raised, factor_eq_raised]
  refine (hsub .suffix _ _ _ _ hts hm).bind fun p q _ _ _ _ hvalue hend hm => ?_
  have hlook := h.power hend
  unfold raised
  generalize after? (.binary .power) p.rest = look, after? (.binary .power) q.rest = look' at hlook
  cases hlook with
  | none => exact .ok hvalue hend hm
  | some hrest =>
    refine (hsub .signedFactor _ _ _ _ hrest hm).bind fun r s _ _ _ _ hexponent hend hm => ?_
    exact Matches.conclude (hvalue.power h.congruence hexponent _ _) hend hm

theorem signedFactorPhrase (hts : P.operand ts ts') (hm : P.memory m m') :
    P.Matches (Grammar.signedFactor (parse mode depth) ts m)
      (Grammar.signedFactor (parse mode depth) ts' m') := by
  obtain ⟨hsign, hrest⟩ := h.skipMinus hts
  unfold Grammar.signedFactor
  generalize Grammar.skipMinus ts = look, Grammar.skipMinus ts' = look' at hsign hrest
  obtain ⟨negative, us⟩ := look
  obtain ⟨negative', us'⟩ := look'
  obtain rfl : negative = negative' := hsign
  cases negative with
  | false => exact hsub .factor _ _ _ _ hrest hm
  | true =>
    refine (hsub .factor _ _ _ _ hrest hm).bind fun p q _ _ _ _ hvalue hend hm => ?_
    exact .ok (hvalue.neg h.congruence) hend hm

omit h in
theorem repetition {r : Rule} {next? : List Token → Option (Bool × List Token)}
    {combine : Bool → Dual → Dual → Except Failure Dual} {loop : Nat → Dual → List Token → Outcome}
    (hloop : Repeats (parse mode depth) r next? combine loop)
    (hlook : ∀ {us us'}, P.after us us' →
      Option.Rel (fun s s' => s.1 = s'.1 ∧ P.operand s.2 s'.2) (next? us) (next? us'))
    (hcombine : ∀ inverse {v v' w w'}, P.Like v v' → P.Like w w' →
      EndAlike P.Like (combine inverse v w) (combine inverse v' w'))
    {count count' : Nat} (hxy : P.Like x y) (hts : P.after ts ts') (hm : P.memory m m')
    (hcount : ts.length ≤ count) (hcount' : ts'.length ≤ count') :
    P.Matches (loop count x ts m) (loop count' y ts' m') := by
  induction hn : ts.length using Nat.strongRecOn generalizing count count' x y ts ts' m m' with
  | ind n ih =>
    have hnext := hlook hts
    generalize hs : next? ts = look, hs' : next? ts' = look' at hnext
    cases hnext with
    | none =>
      rw [hloop.stop hs, hloop.stop hs']
      exact .ok hxy hts hm
    | @some s s' hrest =>
      obtain ⟨inverse, us⟩ := s
      obtain ⟨inverse', us'⟩ := s'
      obtain ⟨rfl, hrest⟩ : inverse = inverse' ∧ P.operand us us' := hrest
      have hle := hloop.length_le hs
      have hle' := hloop.length_le hs'
      rw [hloop.go hs hcount, hloop.go hs' hcount']
      refine (hsub r _ _ _ _ hrest hm).bind fun p q _ _ hp hq hvalue hend hm => ?_
      refine Matches.bind_value (hcombine inverse hxy hvalue) hm fun v w _ _ hvw => ?_
      -- an operand has tokens of its own
      obtain ⟨s, hs, -⟩ := parse_sound hp
      obtain ⟨s', hs', -⟩ := parse_sound hq
      have hlt := hs.length_lt
      have hlt' := hs'.length_lt
      exact ih p.rest.length (by omega) hvw hend hm (by omega) (by omega) rfl

theorem termPhrase (hts : P.operand ts ts') (hm : P.memory m m') :
    P.Matches (Grammar.term mode (parse mode depth) ts m)
      (Grammar.term mode (parse mode depth) ts' m') := by
  refine (hsub .signedFactor _ _ _ _ hts hm).bind fun p q _ _ hp hq hvalue hend hm => ?_
  obtain ⟨s, hs, -⟩ := parse_sound hp
  obtain ⟨s', hs', -⟩ := parse_sound hq
  refine repetition hsub (products_repeats mode _) h.factor (fun divides v v' w w' hv hw => ?_)
    hvalue hend hm (Nat.le_of_lt hs.length_lt) (Nat.le_of_lt hs'.length_lt)
  cases divides with
  | false => exact .ok (hv.mul h.congruence hw _)
  | true => exact (hv.div h.congruence hw _).mapError _

theorem exprPhrase (hts : P.operand ts ts') (hm : P.memory m m') :
    P.Matches (Grammar.expr mode (parse mode depth) ts m)
      (Grammar.expr mode (parse mode depth) ts' m') := by
  refine (hsub .term _ _ _ _ hts hm).bind fun p q _ _ hp hq hvalue hend hm => ?_
  obtain ⟨s, hs, -⟩ := parse_sound hp
  obtain ⟨s', hs', -⟩ := parse_sound hq
  refine repetition hsub (sums_repeats mode _) h.term (fun negative v v' w w' hv hw => ?_)
    hvalue hend hm (Nat.le_of_lt hs.length_lt) (Nat.le_of_lt hs'.length_lt)
  cases negative with
  | false => exact .ok (hv.add h.congruence hw _)
  | true => exact .ok (hv.sub h.congruence hw _)

end

/-- Corresponding tokens have corresponding outcomes by every rule. -/
theorem parse (h : P.Lawful mode) (depth : Nat) (r : Rule) (hts : P.operand ts ts')
    (hm : P.memory m m') :
    P.Matches (Grammar.parse mode depth r ts m) (Grammar.parse mode depth r ts' m') := by
  induction depth generalizing r ts ts' m m' with
  | zero => exact .abort hm
  | succ depth ih =>
    have hsub : P.MatchesTo mode depth := fun r us us' m m' hus hm => ih r hus hm
    cases r with
    | unary => exact h.unary hsub hts hm
    | suffix => exact h.suffixPhrase hsub hts hm
    | factor => exact h.factorPhrase hsub hts hm
    | signedFactor => exact h.signedFactorPhrase hsub hts hm
    | term => exact h.termPhrase hsub hts hm
    | expr => exact h.exprPhrase hsub hts hm

end Lawful

/-- What the tokens that count come to corresponds, where all tokens end together on both sides. -/
theorem Matches.settle {o o' : Except Stop Parsed} {span span' : Int}
    (h : P.Matches (o, m) (o', m')) (hnil : ∀ {us us'}, P.after us us' → (us = [] ↔ us' = []))
    (hspan : (ts.length : Int) = span ↔ (ts'.length : Int) = span') :
    (∃ s, P.excusedLeft s ∧ o = .error s) ∨ (∃ s, P.excusedRight s ∧ o' = .error s) ∨
      (EndAlike P.Like (settle span ts o) (Grammar.settle span' ts' o') ∧ P.memory m m') := by
  cases h with
  | @excusedLeft s _ _ h => exact .inl ⟨s, h, rfl⟩
  | @excusedRight s _ _ h => exact .inr (.inl ⟨s, h, rfl⟩)
  | @ok p q _ _ hvalue hrest hm =>
    refine .inr (.inr ⟨?_, hm⟩)
    have hsame : (p.rest.isEmpty && decide ((ts.length : Int) = span)) =
        (q.rest.isEmpty && decide ((ts'.length : Int) = span')) := by
      rw [Bool.eq_iff_iff]
      simp only [Bool.and_eq_true, List.isEmpty_iff, decide_eq_true_eq, hnil hrest, hspan]
    simp only [Grammar.settle, hsame]
    split
    · exact .ok hvalue
    · exact .error _
  | failure hm => exact .inr (.inr ⟨.error _, hm⟩)
  | @abort e _ _ hm =>
    refine .inr (.inr ⟨?_, hm⟩)
    cases e <;> exact .error _

end Parallel

theorem sameToken_refl (t : Token) : Parallel.SameToken Eq t t := .refl (fun _ => rfl) t

end Grammar

end Reckoner
