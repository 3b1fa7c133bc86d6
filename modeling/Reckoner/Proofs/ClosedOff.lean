import Reckoner.Evaluation
import Reckoner.Proofs.Closing
import Reckoner.Proofs.Leniency
import Reckoner.Proofs.Unsettled
/-!
Closing parentheses at the end of an expression that has a value. As many as are open can be appended
without a change of the value, and with any more the tokens are no expression
(`evaluate_append_closings`).
-/
namespace Reckoner

open Reals

namespace Expression

theorem opened_append (e e' : Expression) : opened (e ++ e') = e.opened + e'.opened :=
  List.countP_append

theorem closed_append (e e' : Expression) : closed (e ++ e') = e.closed + e'.closed :=
  List.countP_append

theorem opened_closings (n : Nat) : opened (List.replicate n (.operator .closing)) = 0 := by
  rw [opened, List.countP_replicate]
  rfl

theorem closed_closings (n : Nat) : closed (List.replicate n (.operator .closing)) = n := by
  rw [closed, List.countP_replicate]
  rfl

end Expression

namespace Grammar

variable {mode : Mode} {p : Part} {ts mid rest : List Token} {t : Tree} {depth n : Nat}
  {m m' : Memory}

/-- What is seen ahead does not depend on which stops are excused. -/
theorem Parallel.Aligned.excusing {P : Parallel} (h : P.Aligned) (left right : Stop → Prop) :
    Parallel.Aligned { P with excusedLeft := left, excusedRight := right } where
  congruence := h.congruence
  minus := h.minus
  suffix := h.suffix
  power := h.power
  factor := h.factor
  term := h.term
  closing := h.closing

/-- The readings of tokens with closing parentheses at the end, and of those without, where these come to
a value. -/
def closedOff : Parallel :=
  { closedUp with excusedLeft := fun _ => False, excusedRight := fun _ => True }

theorem closedOff_aligned : closedOff.Aligned := closedUp_aligned.excusing _ _

theorem closedOff_lawful (mode : Mode) : closedOff.Lawful mode where
  toAligned := closedOff_aligned
  unary hsub h hm := by
    cases h with
    | done n => exact .excusedRight trivial
    | cons t h =>
      exact closedOff_aligned.unary_cons hsub (sameToken_refl t) (fun _ => h) (fun _ => h) hm
  factorial _ _ _ _ _ _ hxy hm := factorial_same hxy hm

theorem ClosedUp.eq_replicate (h : ClosedUp ts []) :
    ∃ n, ts = List.replicate n (.operator .closing) := by
  cases h with
  | done n => exact ⟨n, rfl⟩

/-- All that is read is read with closing parentheses at the end too, and some of them may be left. -/
theorem exists_parse_append_closings {r : Rule} {v : Dual} (n : Nat)
    (h : parse mode depth r ts m = (.ok ⟨v, []⟩, m')) :
    ∃ k, parse mode depth r (ts ++ List.replicate n (.operator .closing)) m =
      (.ok ⟨v, List.replicate k (.operator .closing)⟩, m') := by
  have hmatches := (closedOff_lawful mode).parse depth r (closedUp_append ts n) (rfl : m = m)
  rw [h] at hmatches
  generalize parse mode depth r (ts ++ List.replicate n (.operator .closing)) m = o at hmatches ⊢
  cases hmatches with
  | excusedLeft h => exact h.elim
  | @ok p q m₁ _ hvalue hrest hm =>
    obtain ⟨w, rest⟩ := p
    obtain rfl : w = v := Dual.like_eq_iff.1 hvalue
    obtain rfl : m₁ = m' := hm
    obtain ⟨k, rfl⟩ : ∃ k, rest = List.replicate k (.operator .closing) := ClosedUp.eq_replicate hrest
    exact ⟨k, rfl⟩

theorem Derives.eq_nil_of_eq_nil (h : Derives p mid t rest) (hmid : mid = []) : rest = [] :=
  List.suffix_nil.1 (hmid ▸ h.isSuffix)

/-- Where a parenthesis is left open, the tokens have ended. -/
theorem Derives.eq_nil_of_unclosed (h : Derives p ts t rest) (ht : p.unclosed < t.unclosed) :
    rest = [] := by
  induction h with
  | number | collapsed | constant | suffixesDone | productsDone | sumsDone =>
    exact absurd ht (Nat.lt_irrefl _)
  | root h ih | rootMinus h ih | suffixesMore h ih | factor h ih | signedFactor h ih
  | opposite h ih => exact ih ht
  | group h hc ih | call h hc ih =>
    cases hc with
    | ending => rfl
    | closing => cases ih ht
  | power h h' ih ih' =>
    refine ih' (Nat.pos_of_ne_zero fun hzero => ?_)
    -- what is open is in the base, after which the tokens go on
    have hbase : 0 < Tree.unclosed _ + Tree.unclosed _ := ht
    rw [hzero] at hbase
    cases ih hbase
  | suffix h h' ih ih' | term h h' ih ih' | expr h h' ih ih' | times h h' ih ih' | dividedBy h h' ih ih'
  | beside h h' ih ih' | plus h h' ih ih' | minus h h' ih ih' =>
    -- what is open is in what follows, or the tokens end with the first phrase
    by_contra hrest
    have hfirst : ¬ _ < _ := fun hopen => hrest (h'.eq_nil_of_eq_nil (ih hopen))
    have hnext : ¬ _ < _ := fun hopen => hrest (ih' hopen)
    simp only [Part.unclosed, Tree.unclosed] at hfirst hnext ht
    omega

theorem IsExpression.opened_eq {e : Expression} (h : IsExpression e t) :
    e.opened = e.closed + t.unclosed := by
  have hcount := Derives.unclosed_eq h
  simpa [Expression.opened, Expression.closed, Part.unclosed] using hcount

/-- As many of them are left as are not open before. -/
theorem parse_append_closings {e : Expression} {v : Dual}
    (h : parse mode depth .expr e m = (.ok ⟨v, []⟩, m')) (n : Nat) :
    parse mode depth .expr (e ++ List.replicate n (.operator .closing)) m =
      (.ok ⟨v, List.replicate (n - e.unclosed) (.operator .closing)⟩, m') := by
  obtain ⟨k, hk⟩ := exists_parse_append_closings n h
  obtain ⟨t, ht, -⟩ := parse_sound h
  obtain ⟨t', ht', -⟩ := parse_sound hk
  have hended : 0 < t'.unclosed → k = 0 := by
    intro hopen
    simpa using ht'.eq_nil_of_unclosed hopen
  have hbefore := IsExpression.opened_eq ht
  have hafter := Derives.unclosed_eq ht'
  simp only [Expression.opened_append, Expression.closed_append, Expression.opened_closings,
    Expression.closed_closings, Part.unclosed] at hafter
  have hleft : k = n - e.unclosed := by
    unfold Expression.unclosed
    omega
  rw [hk, hleft]

theorem evaluate_of_parse {p : Parsed} (h : parse mode nestingLimit .expr ts m = (.ok p, m')) :
    evaluate mode ts.length ts m =
      (if p.rest = [] then .ok p.value else .error (.grammar .incompleteParse), m') := by
  refine (evaluateWithin_length mode nestingLimit ts m).trans ?_
  simp only [h, settle, List.isEmpty_iff, decide_true, Bool.and_true]

end Grammar

namespace Arithmetic

open Grammar

/-- Closing parentheses at the end of an expression that has a value. -/
theorem evaluate_closings (a : Arithmetic) (degrees : Bool) {e : Expression} {v : Dual}
    {m m' : Memory} (h : a.evaluate degrees true e m = (.ok v, m')) (n : ℕ) :
    a.evaluate degrees true (e ++ List.replicate n (.operator .closing)) m =
      (if n ≤ e.unclosed then .ok v else .error (.grammar .incompleteParse), m') := by
  rw [evaluate_required] at h
  have hread := (evaluateWithin_eq_ok_iff (Nat.le_refl e.length)).1 h
  rw [List.take_length] at hread
  refine (evaluate_of_parse (parse_append_closings hread n)).trans ?_
  simp only [List.replicate_eq_nil_iff, Nat.sub_eq_zero_iff_le]

/-- In an expression that has a value no more parentheses are closed than are opened. Closing as many at
its end as are open, or fewer, leaves the value as it is, and with more there is no expression: with
the same memory, and also with another that is sound, if the factorials in the expression are settled. -/
theorem evaluate_append_closings (a : Arithmetic) (degrees : Bool) {e : Expression} {v : Dual}
    {m m₁ : Memory} (h : a.evaluate degrees true e m = (.ok v, m₁)) :
    ∃ d, e.opened = e.closed + d ∧
      (∀ n ≤ d, a.evaluate degrees true (e ++ List.replicate n (.operator .closing)) m = (.ok v, m₁)) ∧
      (∀ n, d < n → ∃ cause : GrammarError, cause.code = "3013" ∧
        a.evaluate degrees true (e ++ List.replicate n (.operator .closing)) m =
          (.error (.grammar cause), m₁)) ∧
      ∀ names names' m', a.kernel.Accurate → m.Sound names → m'.Sound names' →
        (∀ t ∈ e, t.Consistent names ∧ t.Consistent names') → Steady (a.mode degrees) names e →
        (∀ n ≤ d,
          (a.evaluate degrees true (e ++ List.replicate n (.operator .closing)) m').1 = .ok v) ∧
        ∀ n, d < n → ∃ cause : GrammarError, cause.code = "3013" ∧
          (a.evaluate degrees true (e ++ List.replicate n (.operator .closing)) m').1 =
            .error (.grammar cause) := by
  obtain ⟨t, ht, -⟩ := evaluateWithin_sound ((congrFun (a.evaluate_required degrees e) m).symm.trans h)
  rw [range_natCast, List.take_length] at ht
  refine ⟨e.unclosed, ?_, fun n hn => ?_, fun n hn => ⟨.incompleteParse, rfl, ?_⟩,
    fun names names' m' hk hm hm' he hsteady => ?_⟩
  · rw [IsExpression.unclosed_eq ht]
    exact IsExpression.opened_eq ht
  · rw [evaluate_closings a degrees h, if_pos hn]
  · rw [evaluate_closings a degrees h, if_neg (Nat.not_le.2 hn)]
  · have hsame : (a.evaluate degrees true e m').1 = .ok v := by
      rw [← a.evaluate_eq_of_steady degrees true hk hm hm' he hsteady, h]
    have hother := fun n => evaluate_closings a degrees (Prod.ext hsame rfl) n
    refine ⟨fun n hn => ?_, fun n hn => ⟨.incompleteParse, rfl, ?_⟩⟩
    · rw [hother, if_pos hn]
    · rw [hother, if_neg (Nat.not_le.2 hn)]

/-- 2 ^ (sin(90) + (3!, in degrees, can be closed twice. -/
theorem evaluate_append_closings_nested :
    let a : Arithmetic := ⟨10000, Elementary.kernel⟩
    let e : Expression := [.literal ⟨"2", false, ""⟩, .operator (.binary .power), .operator .opening,
      .operator (.function .sin), .literal ⟨"90", false, ""⟩, .operator .closing,
      .operator (.binary .plus), .operator .opening, .literal ⟨"3", false, ""⟩,
      .operator (.suffix .factorial)]
    a.evaluate true true e Memory.empty = (.ok (.ofRat 128), Memory.empty) ∧ e.opened = 3 ∧
      e.closed = 1 ∧
      a.evaluate true true (e ++ List.replicate 2 (.operator .closing)) Memory.empty =
        (.ok (.ofRat 128), Memory.empty) ∧
      ∃ cause : GrammarError, cause.code = "3013" ∧
        a.evaluate true true (e ++ List.replicate 3 (.operator .closing)) Memory.empty =
          (.error (.grammar cause), Memory.empty) := by
  intro a e
  have hvalue : a.evaluate true true e Memory.empty = (.ok (.ofRat 128), Memory.empty) := by cbv
  have hopened : e.opened = 3 := rfl
  have hclosed : e.closed = 1 := rfl
  obtain ⟨d, hd, hok, herror, -⟩ := evaluate_append_closings a true hvalue
  obtain rfl : d = 2 := by omega
  exact ⟨hvalue, hopened, hclosed, hok 2 (Nat.le_refl 2), herror 3 (Nat.lt_succ_self 2)⟩

/-- An expression in a parenthesis that is not closed has a value; closed, and evaluated after that, it
has none, as a factorial in it is not settled. -/
theorem evaluate_append_closings_again :
    let a : Arithmetic := ⟨10000, Elementary.kernel⟩
    let e : Expression := .operator .opening :: Unsettled.tokens
    e.opened = e.closed + 1 ∧
      ∃ m, a.evaluate false true e Memory.empty = (.ok (.ofRat 6), m) ∧
        (a.evaluate false true (e ++ List.replicate 1 (.operator .closing)) m).1 =
          .error (.arithmetic .factorialOfNonInteger) := by
  intro a e
  let opened : Grammar.Tree := .group false (Unsettled.product true)
  let closed : Grammar.Tree := .group true (Unsettled.product true)
  have hopened : IsExpression e opened := by
    have hgroup : Derives (.rule .unary) e opened [] :=
      .group (Unsettled.tokens_derives []) .ending
    exact .expr (.term (.signedFactor (.factor (.suffix hgroup .suffixesDone))) .productsDone) .sumsDone
  have hclosed : IsExpression (e ++ List.replicate 1 (.operator .closing)) closed := by
    have hgroup : Derives (.rule .unary) (e ++ List.replicate 1 (.operator .closing)) closed [] :=
      .group (Unsettled.tokens_derives [.operator .closing]) .closing
    exact .expr (.term (.signedFactor (.factor (.suffix hgroup .suffixesDone))) .productsDone) .sumsDone
  exact ⟨rfl, Unsettled.evaluate_twice hopened hclosed rfl rfl
    (fun _ => Nat.le_of_ble_eq_true rfl) fun _ => Nat.le_of_ble_eq_true rfl⟩

end Arithmetic

end Reckoner
