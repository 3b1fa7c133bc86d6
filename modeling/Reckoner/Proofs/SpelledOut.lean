import Reckoner.Proofs.BoundedRun
import Reckoner.Proofs.Closing
import Reckoner.Proofs.Steadiness
/-!
A collapsed token stands for the expression it came from, in parentheses, where the factorials are
settled (`evaluate_spelled_out`). What tells them apart is that the approximations of the token's number
are kept and those of what is spelled out are made anew, so that the integer test of a factorial may
have the one more closely than the other (`evaluate_spelled_out_shared`).
-/
namespace Reckoner

open Reals

namespace Grammar

/-- The tokens on the left, and the same tokens with some occurrences of a token spelled out. -/
inductive Spelled (token : Token) (spelling : List Token) : List Token → List Token → Prop where
  | nil : Spelled token spelling [] []
  | same {ts ts' : List Token} (t : Token) (h : Spelled token spelling ts ts') :
      Spelled token spelling (t :: ts) (t :: ts')
  | spell {ts ts' : List Token} (h : Spelled token spelling ts ts') :
      Spelled token spelling (token :: ts) (spelling ++ ts')

namespace Spelled

variable {token : Token} {spelling : List Token}

theorem refl (ts : List Token) : Spelled token spelling ts ts := by
  induction ts with
  | nil => exact .nil
  | cons t ts ih => exact .same t ih

/-- One token spelled out between others. -/
theorem between (pre post : List Token) :
    Spelled token spelling (pre ++ token :: post) (pre ++ (spelling ++ post)) := by
  induction pre with
  | nil => exact .spell (.refl post)
  | cons t pre ih => exact .same t ih

end Spelled

/-- The tokens of an expression in parentheses, with all that are open in it closed. -/
def parenthesized (e : Expression) : List Token :=
  .operator .opening :: (e ++ List.replicate (e.unclosed + 1) (.operator .closing))

/-- Such tokens at the ends of two lists. -/
structure SpelledAtEnds (token : Token) (e left right ts ts' : Expression) : Prop where
  spelled : Spelled token (parenthesized e) ts ts'
  left : ts <:+ left
  right : ts' <:+ right

namespace SpelledAtEnds

variable {token t : Token} {e left right ts ts' : Expression}

theorem eq_nil_iff (h : SpelledAtEnds token e left right ts ts') : ts = [] ↔ ts' = [] := by
  cases h.spelled <;> simp [parenthesized]

/-- Both lists end, or go on with the same token, or with the one that is spelled out. -/
theorem cases (h : SpelledAtEnds token e left right ts ts') :
    (ts = [] ∧ ts' = []) ∨
    (∃ t us us', ts = t :: us ∧ ts' = t :: us' ∧ SpelledAtEnds token e left right us us') ∨
    ∃ us us', ts = token :: us ∧ ts' = parenthesized e ++ us' ∧
      SpelledAtEnds token e left right us us' := by
  obtain ⟨hspelled, hleft, hright⟩ := h
  cases hspelled with
  | nil => exact .inl ⟨rfl, rfl⟩
  | @same us us' t hspelled =>
    exact .inr (.inl ⟨t, us, us', rfl, rfl, hspelled, (List.suffix_cons t us).trans hleft,
      (List.suffix_cons t us').trans hright⟩)
  | @spell us us' hspelled =>
    exact .inr (.inr ⟨us, us', rfl, rfl, hspelled, (List.suffix_cons token us).trans hleft,
      (List.suffix_append _ us').trans hright⟩)

end SpelledAtEnds

/-- The readings of two token lists, as far as rules nest, each with the names and a sound memory of its
own. -/
def spelledOut (token : Token) (e left right : Expression) (names names' : ℕ → Term) : Parallel where
  operand := SpelledAtEnds token e left right
  after := SpelledAtEnds token e left right
  formula t u := t.SameValue u ∧ t.Consistent names ∧ u.Consistent names'
  memory m m' := m.Sound names ∧ m'.Sound names'
  excusedLeft s := s = .abort .nesting
  excusedRight s := s = .abort .nesting

section

variable {mode : Mode} {name : Nat} {value v : Dual} {source e left right : Expression}
  {context : Context} {short : String} {names names' : ℕ → Term} {m m' m₀ m₁ : Memory} {tree : Tree}

theorem spelledOut_aligned :
    (spelledOut (.collapsed name value source context short) e left right names names').Aligned where
  congruence := .and .sameValue (.consistent names names')
  minus h := by
    rcases h.cases with ⟨rfl, rfl⟩ | ⟨t, us, us', rfl, rfl, htail⟩ | ⟨us, us', rfl, rfl, htail⟩
    · exact .none
    · exact (sameToken_refl t).after? _ htail
    · exact .none
  suffix h := by
    rcases h.cases with ⟨rfl, rfl⟩ | ⟨t, us, us', rfl, rfl, htail⟩ | ⟨us, us', rfl, rfl, htail⟩
    · exact .none
    · exact (sameToken_refl t).suffix? htail
    · exact .none
  power h := by
    rcases h.cases with ⟨rfl, rfl⟩ | ⟨t, us, us', rfl, rfl, htail⟩ | ⟨us, us', rfl, rfl, htail⟩
    · exact .none
    · exact (sameToken_refl t).after? _ htail
    · exact .none
  factor h := by
    rcases h.cases with ⟨rfl, rfl⟩ | ⟨t, us, us', rfl, rfl, htail⟩ | ⟨us, us', rfl, rfl, htail⟩
    · exact .none
    · exact (sameToken_refl t).nextFactor? htail h
    · -- both are multiplied without a sign
      exact .some ⟨rfl, h⟩
  term h := by
    rcases h.cases with ⟨rfl, rfl⟩ | ⟨t, us, us', rfl, rfl, htail⟩ | ⟨us, us', rfl, rfl, htail⟩
    · exact .none
    · exact (sameToken_refl t).nextTerm? htail
    · exact .none
  closing h := by
    rcases h.cases with ⟨rfl, rfl⟩ | ⟨t, us, us', rfl, rfl, htail⟩ | ⟨us, us', rfl, rfl, htail⟩
    · exact h
    · exact (sameToken_refl t).skipClosing htail h
    · exact h

/-- The value of an expression from two sound memories, where its factorials are settled. -/
theorem IsExpression.value_like (he : IsExpression e tree) (hk : mode.kernel.Accurate)
    (hm : m.Sound names) (hm' : m'.Sound names')
    (hconsistent : ∀ t ∈ e, t.Consistent names ∧ t.Consistent names') (hsteady : Steady mode names e) :
    EndAlike (Dual.Like fun t u => t.SameValue u ∧ t.Consistent names ∧ u.Consistent names')
      (tree.value mode m).1 (tree.value mode m').1 ∧ (tree.value mode m').2.Sound names' := by
  -- read with as much room as both need
  let depth := max (tree.room mode m) (tree.room mode m')
  rw [← he.evaluateWithin_eq (Nat.le_max_left _ _ : _ ≤ depth),
    ← he.evaluateWithin_eq (Nat.le_max_right _ _ : _ ≤ depth)]
  have hrange : range e.length e = e := List.take_length
  have hsame : List.Forall₂ (Parallel.SameToken fun t u =>
      (t.SameValue u ∧ t.Consistent names ∧ u.Consistent names') ∧
        t.SameValue u ∧ t.Consistent names ∧ u.Consistent names') e e :=
    List.forall₂_same.2 fun t ht => sameToken_self
      (fun u hu hu' => ⟨⟨.refl u, hu, hu'⟩, .refl u, hu, hu'⟩) (hconsistent t ht).1
      (hconsistent t ht).2
  constructor
  · refine evaluateWithin_like depth hk (.and .sameValue (.consistent names names')) hm hm' ?_ ?_
    · rw [hrange]
      exact hsame
    · rw [hrange]
      exact hsteady
  · exact (evaluateWithin_keeps hk hm' fun t ht => (hconsistent t ht).2).1

/-- The token and what spells it out are operands with the same number. -/
theorem spelledOut_lawful (hk : mode.kernel.Accurate) (he : IsExpression e tree)
    (hm₀ : m₀.Sound names) (hv : tree.value mode m₀ = (.ok v, m₁))
    (hvalue : value.exact = v.exact ∧ value.real.SameValue v.real ∧ value.real.Consistent names)
    (hsource : ∀ t ∈ e, t.Consistent names ∧ t.Consistent names')
    (hleft : ∀ t ∈ left, t.Consistent names) (hright : ∀ t ∈ right, t.Consistent names')
    (hsteady : Steady mode names e) (hsteady' : Steady mode names left) :
    (spelledOut (.collapsed name value source context short) e left right names names').Lawful
      mode where
  toAligned := spelledOut_aligned
  unary {depth ts ts' m m'} hsub h hm := by
    rcases h.cases with ⟨rfl, rfl⟩ | ⟨t, us, us', rfl, rfl, htail⟩ | ⟨us, us', rfl, rfl, htail⟩
    · exact .failure hm
    · have ht := sameToken_self (R := fun t u => t.SameValue u ∧ t.Consistent names ∧
          u.Consistent names') (fun u hu hu' => ⟨.refl u, hu, hu'⟩)
        (hleft t (h.left.subset List.mem_cons_self)) (hright t (h.right.subset List.mem_cons_self))
      exact spelledOut_aligned.unary_cons hsub ht (fun _ => htail) (fun _ => htail) hm
    · have happend : parenthesized e ++ us' = .operator .opening ::
          (e ++ (List.replicate (e.unclosed + 1) (.operator .closing) ++ us')) := by
        simp [parenthesized]
      have hclose : (Tree.group true tree.close).value mode = tree.value mode :=
        Tree.value_close mode tree
      have hmeets : Meets ((Tree.group true tree.close).room mode m' ≤ depth + 1 + Rule.unary.level)
          (unary mode (parse mode depth) (parenthesized e ++ us')) (tree.value mode) us' m' := by
        rw [happend, ← hclose]
        exact (he.group us').meets (tightness_le _) (depth + 1) _ (Nat.le_refl _) m'
      obtain ⟨hlike, hsound⟩ := he.value_like hk hm₀ hm.2 hsource hsteady
      rcases hmeets with hread | ⟨-, m₂, hnesting⟩
      · rw [hread]
        rcases hw : tree.value mode m' with ⟨answer, m₂⟩
        rw [hv, hw] at hlike
        rw [hw] at hsound
        cases hlike with
        | ok hlike =>
          rw [conclude, Recall.bind_of_ok (Recall.mapError_eq_ok_iff.2 hw)]
          have hreal := Term.SameValue.trans hvalue.2.1 hlike.real.1
          exact .ok ⟨⟨hreal, hvalue.2.2, hlike.real.2.2⟩, hvalue.1.trans hlike.exact⟩ htail
            ⟨hm.1, hsound⟩
      · rw [hnesting]
        exact .excusedRight rfl
  factorial h ht _ hm₀ hx _ hxy hm :=
    Dual.factorial_like (.and .sameValue (.consistent names names')) (fun _ _ h => h) hk hm.1 hm.2
      hxy (hsteady' _ _ _ _ _ _ h.left ht hm₀.1 hx)

end

end Grammar

namespace Dual

/-- The same exact value, and the same number denoted. -/
def SameNumber (x y : Dual) : Prop :=
  x.exact = y.exact ∧ ∀ r, x.real.Denotes r ↔ y.real.Denotes r

theorem Like.sameNumber {R : Term → Term → Prop} {x y : Dual} (h : Like R x y)
    (hR : ∀ t u, R t u → t.SameValue u) : x.SameNumber y := by
  obtain ⟨hvalue, hregular⟩ := hR _ _ h.real
  refine ⟨h.exact, fun r => ?_⟩
  unfold Reals.Term.Denotes
  rw [hvalue, ← Reals.Term.isRegular_zero, hregular, Reals.Term.isRegular_zero]

end Dual

namespace Arithmetic

open Grammar

/-- A collapsed token can be spelled out as the expression it came from, in parentheses, without a change
of the outcome, from any two sound memories, where rules do not nest too deep and all factorials are
settled, in the expression and around the token. -/
theorem evaluate_spelled_out (a : Arithmetic) (degrees : Bool) (hk : a.kernel.Accurate)
    {names names' : ℕ → Term} {e : Expression} {v : Dual} {m₀ m₁ : Memory} (hm₀ : m₀.Sound names)
    (hv : a.evaluate degrees true e m₀ = (.ok v, m₁)) (name : Nat)
    (hname : v.real.identity? = none → names name = v.real) (context : Context) (short : String)
    (pre post : Expression)
    (hconsistent : ∀ t ∈ pre ++ e ++ post, t.Consistent names ∧ t.Consistent names') :
    let left := pre ++ .collapsed name (v.keptAs name) e context short :: post
    let right := pre ++ (parenthesized e ++ post)
    Steady (a.mode degrees) names e → Steady (a.mode degrees) names left →
    ∀ m m', m.Sound names → m'.Sound names' →
      (a.evaluate degrees true left m).1 ≠ .error (.arithmetic .tooComplex) →
      (a.evaluate degrees true right m').1 ≠ .error (.arithmetic .tooComplex) →
      EndAlike Dual.SameNumber (a.evaluate degrees true left m).1
        (a.evaluate degrees true right m').1 := by
  intro left right hsteady hsteady' m m' hm hm' hdeep hdeep'
  simp only [List.forall_mem_append] at hconsistent
  obtain ⟨⟨hpre, hsource⟩, hpost⟩ := hconsistent
  have hk' : (a.mode degrees).kernel.Accurate := hk
  obtain ⟨tree, he, htree, -⟩ :=
    evaluateWithin_sound ((congrFun (a.evaluate_required degrees e) m₀).symm.trans hv)
  rw [range_natCast, List.take_length] at he
  have hvalue := Dual.keptAs_sameValue ((a.evaluate_keeps degrees true hk hm₀
    fun t ht => (hsource t ht).1).2 v (congrArg Prod.fst hv)) hname
  have hleft : ∀ t ∈ left, t.Consistent names := by
    refine List.forall_mem_append.2 ⟨fun t ht => (hpre t ht).1, List.forall_mem_cons.2 ⟨?_, ?_⟩⟩
    · exact hvalue.2.2
    · exact fun t ht => (hpost t ht).1
  have hparentheses : ∀ t ∈ parenthesized e, t.Consistent names' := by
    refine List.forall_mem_cons.2 ⟨trivial, List.forall_mem_append.2 ⟨fun t ht => (hsource t ht).2, ?_⟩⟩
    intro t ht
    obtain rfl := List.eq_of_mem_replicate ht
    trivial
  have hright : ∀ t ∈ right, t.Consistent names' :=
    List.forall_mem_append.2 ⟨fun t ht => (hpre t ht).2,
      List.forall_mem_append.2 ⟨hparentheses, fun t ht => (hpost t ht).2⟩⟩
  have hlawful : (spelledOut (.collapsed name (v.keptAs name) e context short) e left right names
      names').Lawful (a.mode degrees) :=
    spelledOut_lawful hk' he hm₀ htree hvalue hsource hleft hright hsteady hsteady'
  have hmatches := hlawful.parse nestingLimit .expr
    ⟨.between pre post, List.suffix_refl left, List.suffix_refl right⟩ ⟨hm, hm'⟩
  rw [a.evaluate_required, evaluateWithin_length] at hdeep hdeep' ⊢
  rw [a.evaluate_required, evaluateWithin_length]
  generalize parse (a.mode degrees) nestingLimit .expr left m = o,
    parse (a.mode degrees) nestingLimit .expr right m' = o' at hmatches hdeep hdeep' ⊢
  obtain ⟨o, m₂⟩ := o
  obtain ⟨o', m₂'⟩ := o'
  obtain ⟨s, hs, rfl⟩ | ⟨s, hs, rfl⟩ | ⟨hend, -⟩ :=
    hmatches.settle SpelledAtEnds.eq_nil_iff (iff_of_true rfl rfl)
  · obtain rfl : s = .abort .nesting := hs
    exact absurd rfl hdeep
  · obtain rfl : s = .abort .nesting := hs
    exact absurd rfl hdeep'
  · exact hend.mono fun x y hxy => hxy.sameNumber fun _ _ h => h.1

/-- 2 to the power of a collapsed (2 + 1, which is not closed, with a factorial. -/
theorem evaluate_spelled_out_factorial :
    let a : Arithmetic := ⟨10000, Kernel.ideal⟩
    let names : ℕ → Term := fun _ => .rational 3
    let e : Expression := [.operator .opening, .literal ⟨"2", false, ""⟩, .operator (.binary .plus),
      .literal ⟨"1", false, ""⟩]
    let token : Token := .collapsed 0 ((Dual.ofRat 3).keptAs 0) e ⟨false, 4⟩ "3"
    let pre : Expression := [.literal ⟨"2", false, ""⟩, .operator (.binary .power)]
    let post : Expression := [.operator (.suffix .factorial)]
    let left := pre ++ token :: post
    let right := pre ++ (parenthesized e ++ post)
    a.kernel.Accurate ∧ Memory.empty.Sound names ∧
      a.evaluate false true e Memory.empty = (.ok (.ofRat 3), Memory.empty) ∧
      (∀ t ∈ pre ++ e ++ post, t.Consistent names ∧ t.Consistent names) ∧
      Steady (a.mode false) names e ∧ Steady (a.mode false) names left ∧
      (a.evaluate false true left Memory.empty).1 = .ok (.ofRat 64) ∧
      (a.evaluate false true right Memory.empty).1 = .ok (.ofRat 64) ∧
      EndAlike Dual.SameNumber (a.evaluate false true left Memory.empty).1
        (a.evaluate false true right Memory.empty).1 := by
  intro a names e token pre post left right
  have hk : a.kernel.Accurate := Kernel.ideal_accurate
  have hm : Memory.empty.Sound names := Memory.sound_empty names
  have hv : a.evaluate false true e Memory.empty = (.ok (.ofRat 3), Memory.empty) := by cbv
  have hconsistent : ∀ t ∈ pre ++ e ++ post, t.Consistent names ∧ t.Consistent names := by
    simp [pre, e, post, Token.Consistent]
  have hsteady : Steady (a.mode false) names e := steady_of_not_mem (by simp [e])
  have hsteady' : Steady (a.mode false) names left := by
    -- nothing but the token stands before the sign
    intro us t rest m x m' hus ht _ hx hnone
    simp only [left, pre, post, token, List.cons_append, List.nil_append, List.suffix_cons_iff,
      List.suffix_nil] at hus
    cases ht with
    | suffix hunary hsuffixes =>
      rcases hus with rfl | rfl | rfl | rfl | rfl <;> cases hunary
      · cases hsuffixes
      · cases hsuffixes with
        | suffixesDone =>
          cases hx
          cases hnone
        | suffixesMore h => cases h
  have hleft : (a.evaluate false true left Memory.empty).1 = .ok (.ofRat 64) := by cbv
  have hright : (a.evaluate false true right Memory.empty).1 = .ok (.ofRat 64) := by cbv
  refine ⟨hk, hm, hv, hconsistent, hsteady, hsteady', hleft, hright, ?_⟩
  refine evaluate_spelled_out a false hk hm hv 0 (fun _ => rfl) ⟨false, 4⟩ "3" pre post hconsistent
    hsteady hsteady' _ _ hm hm ?_ ?_
  · rw [hleft]
    intro h
    cases h
  · rw [hright]
    intro h
    cases h

end Arithmetic

/-! X × 7 + X for X = √0.140625000000000000000000000000075, which is close to 3. -/

namespace Grammar.SharedRoot

def radicand : Literal := ⟨"0", true, "140625000000000000000000000000075"⟩

/-- X. -/
def root : Term := .sqrt (.rational (5625000000000000000000000000003 / 40000000000000000000000000000000))

/-- X, collapsed. -/
def token : Token := .collapsed 0 ((⟨root, none⟩ : Dual).keptAs 0) [.operator .root, .literal radicand]
  ⟨false, 2⟩ "0.375"

def seven : Literal := ⟨"7", false, ""⟩

/-- (X × 7 + y)!, where the first X is the collapsed one. -/
def tokens (y : List Token) : List Token :=
  .operator .opening :: token :: .operator (.binary .times) :: .literal seven ::
    .operator (.binary .plus) :: (y ++ [.operator .closing, .operator (.suffix .factorial)])

def sumTree (y : Tree) : Tree :=
  .sum (.product true (.collapsed ((⟨root, none⟩ : Dual).keptAs 0)) (.number seven)) y

def mode : Mode := ⟨false, 10000, Elementary.kernel⟩

theorem tokens_isExpression {ys : List Token} {y : Tree} (hy : Derives (.rule .unary)
      (ys ++ [.operator .closing, .operator (.suffix .factorial)]) y
      [.operator .closing, .operator (.suffix .factorial)]) :
    IsExpression (tokens ys) (.suffix .factorial (.group true (sumTree y))) := by
  have hproduct : Derives (.rule .term) (tokens ys).tail
      (.product true (.collapsed ((⟨root, none⟩ : Dual).keptAs 0)) (.number seven))
      ((tokens ys).drop 4) :=
    .term (.signedFactor (.factor (.suffix .collapsed .suffixesDone)))
      (.times (.signedFactor (.factor (.suffix .number .suffixesDone))) .productsDone)
  have hlast : Derives (.rule .term) ((tokens ys).drop 5) y
      [.operator .closing, .operator (.suffix .factorial)] :=
    .term (.signedFactor (.factor (.suffix hy .suffixesDone))) .productsDone
  have hgroup : Derives (.rule .unary) (tokens ys) (.group true (sumTree y))
      [.operator (.suffix .factorial)] :=
    .group (.expr hproduct (.plus hlast .sumsDone)) .closing
  exact .expr (.term (.signedFactor (.factor (.suffix hgroup (.suffixesMore .suffixesDone))))
    .productsDone) .sumsDone

theorem literalValue_radicand : literalValue radicand =
    .ok (.ofRat (5625000000000000000000000000003 / 40000000000000000000000000000000)) := by
  decide +kernel

/-- The root of the radicand, which has no exact value. -/
theorem root_value (m : Memory) :
    (Tree.root false (.number radicand)).value mode m = (.ok ⟨root, none⟩, m) := by
  have hsqrt : (Dual.ofRat (5625000000000000000000000000003 / 40000000000000000000000000000000)).sqrt =
      .ok ⟨root, none⟩ := by
    decide +kernel
  simp only [Tree.value, literalValue_radicand, Except.mapError, Recall.ofExcept_ok, pure_bind,
    Bool.false_eq_true, if_false, hsqrt]
  rfl

/-- What a factorial of the sum comes to, where the test for an integer is computed. -/
theorem evaluate_tokens (ys : List Token) {y : Tree} {t : Term} (answer : Option Int)
    (hy : Derives (.rule .unary) (ys ++ [.operator .closing, .operator (.suffix .factorial)]) y
      [.operator .closing, .operator (.suffix .factorial)])
    (hroom : (sumTree y).room mode Memory.empty + 6 ≤ nestingLimit)
    (ht : ∀ m, y.value mode m = (.ok ⟨t, none⟩, m))
    (htest : ((Term.add (.mul (.named (.name 0) root) (.rational 7)) t).integerWithin
      Elementary.kernel 200 Dual.integerTest Memory.empty).map Prod.fst = some answer) :
    (evaluate mode (tokens ys).length (tokens ys) Memory.empty).1 =
      (Dual.factorialAs ⟨.add (.mul (.named (.name 0) root) (.rational 7)) t, none⟩ answer).mapError
        .arithmetic := by
  obtain ⟨⟨_, m⟩, hwithin, rfl⟩ := Option.map_eq_some_iff.1 htest
  have hseven : literalValue seven = .ok (.ofRat 7) := by decide +kernel
  have hsum : (sumTree y).value mode Memory.empty =
      (.ok ⟨.add (.mul (.named (.name 0) root) (.rational 7)) t, none⟩, Memory.empty) := by
    simp only [sumTree, Tree.value, hseven, Except.mapError, Recall.ofExcept_ok, pure_bind]
    rw [Recall.bind_of_ok (ht _)]
    rfl
  have hfactorial : Dual.factorial mode.kernel
      ⟨.add (.mul (.named (.name 0) root) (.rational 7)) t, none⟩ Memory.empty =
        (Dual.factorialAs ⟨.add (.mul (.named (.name 0) root) (.rational 7)) t, none⟩ _, m) :=
    Dual.factorial_of_within 200 rfl hwithin
  rw [(tokens_isExpression hy).evaluate_eq hroom, Tree.value, Tree.value, Recall.bind_of_ok hsum,
    suffixValue, Recall.mapError_apply, hfactorial]

end Grammar.SharedRoot

namespace Arithmetic

open Grammar SharedRoot

/-- In the factorial of X × 7 + X, the token's X is approximated once, for the product, and what the sum
comes to is too far from 3. Spelled out, the second root is approximated for the sum alone and less
closely, and the sum passes for 3. -/
theorem evaluate_spelled_out_shared :
    let a : Arithmetic := ⟨10000, Elementary.kernel⟩
    let l : Literal := ⟨"0", true, "140625000000000000000000000000075"⟩
    let e : Expression := [.operator .root, .literal l]
    let v : Dual :=
      ⟨.sqrt (.rational (5625000000000000000000000000003 / 40000000000000000000000000000000)), none⟩
    let token : Token := .collapsed 0 (v.keptAs 0) e ⟨false, 2⟩ "0.375"
    let pre : Expression := [.operator .opening, token, .operator (.binary .times),
      .literal ⟨"7", false, ""⟩, .operator (.binary .plus)]
    let post : Expression := [.operator .closing, .operator (.suffix .factorial)]
    a.evaluate false true e Memory.empty = (.ok v, Memory.empty) ∧
      (a.evaluate false true (pre ++ token :: post) Memory.empty).1 =
        .error (.arithmetic .factorialOfNonInteger) ∧
      (a.evaluate false true (pre ++ (parenthesized e ++ post)) Memory.empty).1 = .ok (.ofRat 6) := by
  intro a l e v token pre post
  have he : IsExpression e (.root false (.number radicand)) :=
    .expr (.term (.signedFactor (.factor (.suffix (.root .number) .suffixesDone))) .productsDone)
      .sumsDone
  have hspelled : Derives (.rule .unary) (parenthesized e ++ post)
      (.group true (.root false (.number radicand))) post :=
    he.group post
  rw [a.evaluate_required, a.evaluate_required, a.evaluate_required]
  refine ⟨?_, ?_, ?_⟩
  · exact (he.evaluateWithin_eq (by decide +kernel)).trans (root_value _)
  · exact evaluate_tokens [token] none .collapsed (by decide +kernel) (fun _ => rfl)
      (by decide +kernel)
  · exact evaluate_tokens (parenthesized e) (some 3) hspelled (by decide +kernel) root_value
      (by decide +kernel)

end Arithmetic

end Reckoner
