import Reckoner.Evaluation
import Reckoner.Proofs.Agreement
import Reckoner.Proofs.Steadiness
import Reckoner.Proofs.Unsettled
/-!
What may be left off the end of an expression. Closing parentheses at the end change nothing, for none is
needed there; other operators that cannot end an expression are no part of one. So evaluation that
leaves both off has every value that strict evaluation has (`evaluate_lenient`).
-/
namespace Reckoner

open Reals

namespace Grammar

variable {mode : Mode} {p : Part} {ts mid rest : List Token} {t : Tree}

/-- What has been read ends in a token that an expression can end with, and closing parentheses. -/
def Settles (ts rest : List Token) : Prop :=
  ∃ used last n, ts = used ++ last :: (List.replicate n (.operator .closing) ++ rest) ∧
    Expression.canEnd last = true

theorem Settles.of_suffix (h : Settles mid rest) (hmid : mid <:+ ts) : Settles ts rest := by
  obtain ⟨used, last, n, rfl, hlast⟩ := h
  obtain ⟨before, rfl⟩ := hmid
  exact ⟨before ++ used, last, n, (List.append_assoc _ _ _).symm, hlast⟩

theorem Settles.cons (h : Settles ts rest) (a : Token) : Settles (a :: ts) rest :=
  h.of_suffix (List.suffix_cons a ts)

theorem Settles.of_last {last : Token} (h : Expression.canEnd last = true) :
    Settles (last :: rest) rest :=
  ⟨[], last, 0, rfl, h⟩

theorem Settles.closes {closed : Bool} (h : Settles ts mid) (hc : Closes mid closed rest) :
    Settles ts rest := by
  cases hc with
  | ending => exact h
  | closing =>
    obtain ⟨used, last, n, rfl, hlast⟩ := h
    refine ⟨used, last, n + 1, ?_, hlast⟩
    rw [List.replicate_succ', List.append_assoc]
    rfl

/-- A phrase ends so; of a repetition nothing may have been read. -/
theorem Derives.settles (h : Derives p ts t rest) :
    Settles ts rest ∨ p.least = 0 ∧ ts = rest := by
  induction h with
  | number | collapsed | constant => exact .inl (.of_last rfl)
  | suffixesDone | productsDone | sumsDone => exact .inr ⟨rfl, rfl⟩
  | root h ih | opposite h ih =>
    exact .inl ((ih.resolve_right (by simp [Part.least])).cons _)
  | rootMinus h ih => exact .inl (((ih.resolve_right (by simp [Part.least])).cons _).cons _)
  | group h hc ih | call h hc ih =>
    exact .inl (((ih.resolve_right (by simp [Part.least])).closes hc).cons _)
  | factor h ih | signedFactor h ih => exact .inl (ih.resolve_right (by simp [Part.least]))
  | suffixesMore h ih =>
    rcases ih with ih | ⟨-, rfl⟩
    · exact .inl (ih.cons _)
    · exact .inl (.of_last rfl)
  | power h h' ih ih' =>
    have hsuffix := (List.suffix_cons _ _).trans h.isSuffix
    exact .inl ((ih'.resolve_right (by simp [Part.least])).of_suffix hsuffix)
  | suffix h h' ih ih' | term h h' ih ih' | expr h h' ih ih' | beside h h' ih ih' =>
    have hfirst := ih.resolve_right (by simp [Part.least])
    rcases ih' with ih' | ⟨-, rfl⟩
    · exact .inl (ih'.of_suffix h.isSuffix)
    · exact .inl hfirst
  | times h h' ih ih' | dividedBy h h' ih ih' | plus h h' ih ih' | minus h h' ih ih' =>
    have hfirst := ih.resolve_right (by simp [Part.least])
    rcases ih' with ih' | ⟨-, rfl⟩
    · exact .inl ((ih'.of_suffix h.isSuffix).cons _)
    · exact .inl (hfirst.cons _)

/-- Closing parentheses at the end, on the left alone. -/
inductive ClosedUp : List Token → List Token → Prop where
  | done (n : Nat) : ClosedUp (List.replicate n (.operator .closing)) []
  | cons {ts ts' : List Token} (t : Token) (h : ClosedUp ts ts') : ClosedUp (t :: ts) (t :: ts')

theorem ClosedUp.eq_nil {ts ts' : List Token} (h : ClosedUp ts ts') (hts : ts = []) : ts' = [] := by
  cases h with
  | done n => rfl
  | cons t h => cases hts

/-- The readings of tokens with closing parentheses at the end, if they come to a value, and without. -/
def closedUp : Parallel where
  operand := ClosedUp
  after := ClosedUp
  formula := Eq
  memory := Eq
  excusedLeft _ := True
  excusedRight _ := False

theorem closedUp_append (ts : List Token) (n : Nat) :
    ClosedUp (ts ++ List.replicate n (.operator .closing)) ts := by
  induction ts with
  | nil => exact .done n
  | cons t ts ih => exact .cons t ih

theorem closedUp_aligned : closedUp.Aligned where
  congruence := .eq
  minus h := by
    cases h with
    | done n => cases n <;> exact .none
    | cons t h => exact (sameToken_refl t).after? _ h
  suffix h := by
    cases h with
    | done n => cases n <;> exact .none
    | cons t h => exact (sameToken_refl t).suffix? h
  power h := by
    cases h with
    | done n => cases n <;> exact .none
    | cons t h => exact (sameToken_refl t).after? _ h
  factor h := by
    cases h with
    | done n => cases n <;> exact .none
    | cons t h => exact (sameToken_refl t).nextFactor? h (.cons t h)
  term h := by
    cases h with
    | done n => cases n <;> exact .none
    | cons t h => exact (sameToken_refl t).nextTerm? h
  closing h := by
    cases h with
    | done n =>
      cases n with
      | zero => exact .done 0
      | succ n => exact .done n
    | cons t h => exact (sameToken_refl t).skipClosing h (.cons t h)

/-- A number has one factorial with one memory. -/
theorem factorial_same {kernel : Kernel} {x y : Dual} {m m' : Memory} (hxy : Dual.Like Eq x y)
    (hm : m = m') :
    EndAlike (Dual.Like Eq) (x.factorial kernel m).1 (y.factorial kernel m').1 ∧
      (x.factorial kernel m).2 = (y.factorial kernel m').2 := by
  obtain rfl := Dual.like_eq_iff.1 hxy
  subst hm
  exact ⟨.refl (fun _ => ⟨rfl, rfl⟩) _, rfl⟩

theorem closedUp_lawful (mode : Mode) : closedUp.Lawful mode where
  toAligned := closedUp_aligned
  unary hsub h hm := by
    cases h with
    | done n =>
      -- no operand starts here
      cases n <;> exact .excusedLeft trivial
    | cons t h => exact closedUp_aligned.unary_cons hsub (sameToken_refl t) (fun _ => h) (fun _ => h) hm
  factorial _ _ _ _ _ _ hxy hm := factorial_same hxy hm

/-- A value needs no closing parentheses at the end. -/
theorem parse_of_closedUp {v : Dual} {depth n : Nat} {m m' : Memory}
    (h : parse mode depth .expr (ts ++ List.replicate n (.operator .closing)) m =
      (.ok ⟨v, []⟩, m')) :
    parse mode depth .expr ts m = (.ok ⟨v, []⟩, m') := by
  have hmatches := (closedUp_lawful mode).parse depth .expr (closedUp_append ts n) (rfl : m = m)
  rw [h] at hmatches
  generalize parse mode depth .expr ts m = o at hmatches
  cases hmatches with
  | excusedRight h => cases h
  | @ok p q _ m₁ hvalue hrest hm =>
    obtain ⟨w, rest⟩ := q
    obtain rfl : v = w := Dual.like_eq_iff.1 hvalue
    obtain rfl : rest = [] := hrest.eq_nil rfl
    obtain rfl : m' = m₁ := hm
    rfl

theorem evaluateWithin_eq_ok_iff {v : Dual} {n depth : Nat} {m m' : Memory} (hn : n ≤ ts.length) :
    evaluateWithin mode depth n ts m = (.ok v, m') ↔
      parse mode depth .expr (ts.take n) m = (.ok ⟨v, []⟩, m') := by
  have happly : evaluateWithin mode depth n ts m =
      (settle n (ts.take n) (parse mode depth .expr (ts.take n) m).1,
        (parse mode depth .expr (ts.take n) m).2) := by
    rw [← range_natCast]
    rfl
  rw [happly, Prod.mk.injEq, settle_eq_ok_iff, List.length_take, Nat.min_eq_left hn,
    and_iff_left rfl, Prod.ext_iff]

end Grammar

namespace Expression

variable {e run : Expression} {t : Token}

theorem complete_append (h : ∀ t ∈ run, canEnd t = false) : complete (e ++ run) = complete e := by
  unfold complete
  rw [List.reverse_append, List.dropWhile_append_of_pos (by simpa using h)]

theorem complete_concat (h : canEnd t = true) : complete (e ++ [t]) = e ++ [t] := by
  simp [complete, h]

/-- What is left off an expression are closing parentheses. -/
theorem eq_complete_append {t : Grammar.Tree} (h : Grammar.IsExpression e t) :
    ∃ n, e = e.complete ++ List.replicate n (.operator .closing) := by
  have hsettles := (Grammar.Derives.settles h).resolve_right (by simp [Grammar.Part.least])
  obtain ⟨used, last, n, he, hlast⟩ := hsettles
  rw [List.append_nil, List.append_cons] at he
  have hrun : ∀ t ∈ List.replicate n (Token.operator .closing), canEnd t = false := by
    intro t ht
    rw [List.eq_of_mem_replicate ht]
    rfl
  refine ⟨n, ?_⟩
  rw [he, complete_append hrun, complete_concat hlast]

end Expression

namespace Arithmetic

open Grammar

/-- Evaluation that leaves off what cannot end an expression comes to the value of strict evaluation
wherever there is one, and leaves the same memory; and signs, opening parentheses and functions at the
end change nothing. With different memories, if both are sound, the value is the same where the
factorials in the expression are settled. -/
theorem evaluate_lenient (a : Arithmetic) (degrees : Bool) (e : Expression) :
    (∀ m v m', a.evaluate degrees true e m = (.ok v, m') → a.evaluate degrees false e m = (.ok v, m')) ∧
    (∀ run : Expression,
      (∀ t ∈ run, ∃ k, t = .operator k ∧
        (k.isBinary ∨ k = .root ∨ k = .opening ∨ k.isFunction)) →
      a.evaluate degrees false (e ++ run) = a.evaluate degrees false e) ∧
    ∀ names names' m m', a.kernel.Accurate → m.Sound names → m'.Sound names' →
      (∀ t ∈ e, t.Consistent names ∧ t.Consistent names') →
      Steady (a.mode degrees) names e.complete →
      (a.evaluate degrees false e m).1 = (a.evaluate degrees false e m').1 := by
  refine ⟨fun m v m' hv => ?_, fun run hrun => ?_, fun names names' m m' hk hm hm' he hsteady =>
    a.evaluate_eq_of_steady degrees false hk hm hm' he hsteady⟩
  · rw [evaluate_required] at hv
    have hread := (evaluateWithin_eq_ok_iff (Nat.le_refl e.length)).1 hv
    rw [List.take_length] at hread
    obtain ⟨t, ht, -⟩ := parse_sound hread
    obtain ⟨n, he⟩ := Expression.eq_complete_append ht
    have hprefix := e.complete_prefix
    suffices h : evaluateWithin (a.mode degrees) nestingLimit e.complete.length e m = (.ok v, m') from h
    refine (evaluateWithin_eq_ok_iff hprefix.length_le).2 ?_
    rw [← List.prefix_iff_eq_take.1 hprefix]
    rw [he] at hread
    exact parse_of_closedUp hread
  · have hopen : ∀ t ∈ run, Expression.canEnd t = false := by
      intro t ht
      obtain ⟨k, rfl, hk⟩ := hrun t ht
      cases k <;> simp_all [Expression.canEnd, Key.isBinary, Key.isFunction]
    have hrange : range e.complete.length (e ++ run) = range e.complete.length e := by
      rw [range_natCast, range_natCast, List.take_append_of_le_length e.complete_prefix.length_le]
    funext m
    simp only [Arithmetic.evaluate, evaluateIn, Grammar.evaluate, evaluateWithin,
      Bool.false_eq_true, if_false, Expression.trailingStart, Expression.complete_append hopen, hrange]

/-- A closing parenthesis is left off 2(3 + 1), and then a sign and a root that have no operand; and it
is all the same what is kept of π. -/
theorem evaluate_lenient_closed :
    let a : Arithmetic := ⟨10000, Kernel.ideal⟩
    let e : Expression := [.literal ⟨"2", false, ""⟩, .operator .opening, .literal ⟨"3", false, ""⟩,
      .operator (.binary .plus), .literal ⟨"1", false, ""⟩, .operator .closing]
    let run : Expression := [.operator (.binary .power), .operator .root]
    let m := (Term.pi.approximate a.kernel 100 Memory.empty).2
    a.evaluate false true e Memory.empty = (.ok (.ofRat 8), Memory.empty) ∧
      a.evaluate false false (e ++ run) Memory.empty = (.ok (.ofRat 8), Memory.empty) ∧
      (a.evaluate false false e m).1 = .ok (.ofRat 8) := by
  intro a e run m
  have hstrict : a.evaluate false true e Memory.empty = (.ok (.ofRat 8), Memory.empty) := by cbv
  obtain ⟨hvalue, hrun, hsteady⟩ := evaluate_lenient a false e
  have hlenient := hvalue _ _ _ hstrict
  have hpi : Term.pi.Consistent fun _ => .pi := trivial
  have hm : m.Sound fun _ => .pi := Term.ask_sound (Memory.sound_empty _) hpi fun g node =>
    Query.Keeps.approximateBits Kernel.ideal_accurate g node 100
  refine ⟨hstrict, ?_, ?_⟩
  · rw [hrun run (by simp [run, Key.isBinary]), hlenient]
  · have hsame := hsteady (fun _ => .pi) (fun _ => .pi) Memory.empty m Kernel.ideal_accurate
      (Memory.sound_empty _) hm ?_ (steady_of_not_mem fun h => ?_)
    · rw [← hsame, hlenient]
    · simp [e, Token.Consistent]
    · simpa [e] using e.complete_prefix.subset h

/-- Where a factorial is not settled, evaluation that leaves nothing off may come to no value after
strict evaluation has come to one. -/
theorem evaluate_lenient_again :
    let a : Arithmetic := ⟨10000, Elementary.kernel⟩
    let e : Expression := Unsettled.tokens
    ∃ m, a.evaluate false true e Memory.empty = (.ok (.ofRat 6), m) ∧
      (a.evaluate false false e m).1 = .error (.arithmetic .factorialOfNonInteger) :=
  have hroom : ∀ m, (Unsettled.product true).room (Unsettled.mode false) m ≤ nestingLimit :=
    fun _ => Nat.le_of_ble_eq_true rfl
  Unsettled.evaluate_twice Unsettled.tokens_isExpression Unsettled.tokens_isExpression rfl rfl
    hroom hroom

end Arithmetic

end Reckoner
