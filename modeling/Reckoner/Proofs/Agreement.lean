import Reckoner.Elementary
import Reckoner.Proofs.Denotation
import Reckoner.Proofs.Numerals
import Reckoner.Proofs.Parsing
/-!
The two halves of a number agree: where its exact value is known, its formula denotes it. Every
operation either derives the formula of its result from the exact result, or finds no exact result;
only the opposite works on both halves. So whatever is evaluated agrees if the collapsed tokens do.
-/
namespace Reckoner

open Reals

namespace Dual

/-- The formula denotes the exact value, if that is known. -/
def Agrees (x : Dual) : Prop := ∀ q, x.exact = some q → x.real.Denotes q

variable {x y : Dual} {m m' : Memory}

theorem agrees_ofRat (q : Rat) : (ofRat q).Agrees := by
  rintro q' ⟨⟩
  exact Term.denotes_rational q

theorem agrees_unknown (t : Term) : Dual.Agrees ⟨t, none⟩ := by
  rintro q ⟨⟩

theorem agrees_orReal (exact : Option Rat) (t : Term) : (orReal exact t).Agrees := by
  cases exact with
  | none => exact agrees_unknown t
  | some q => exact agrees_ofRat q

theorem agrees_of_ok {exact : Option Rat} {t : Term}
    (h : (.ok (orReal exact t) : Except Failure Dual) = .ok y) : y.Agrees := by
  cases h
  exact agrees_orReal exact t

theorem Agrees.neg (h : x.Agrees) : x.neg.Agrees := by
  intro q hq
  obtain ⟨q', hq', rfl⟩ := Option.map_eq_some_iff.1 hq
  rw [Rat.cast_neg]
  exact (h q' hq').neg

/-- A result is made from what is known of it exactly. -/
theorem agrees_of_orReal {exact : Except ArithmeticError (Option Rat)} {t : Term}
    (h : (do return orReal (← exact) t) = .ok y) : y.Agrees := by
  obtain ⟨q, -, h⟩ := bind_eq_ok_iff.1 h
  cases h
  exact agrees_orReal q t

theorem agrees_of_factorial {kernel : Kernel} (h : x.factorial kernel m = (.ok y, m')) :
    y.Agrees := by
  obtain ⟨n, m₁, -, h⟩ := run_bind_eq_ok_iff.1 h
  obtain ⟨q, m₂, -, h⟩ := run_bind_eq_ok_iff.1 h
  cases h
  exact agrees_orReal q _

theorem agrees_of_raise {limit : Int} {z : Dual} (h : x.raise limit y = .ok z) : z.Agrees := by
  obtain ⟨q, -, h⟩ := bind_eq_ok_iff.1 h
  cases q with
  | some q =>
    cases h
    exact agrees_ofRat q
  | none =>
    cases hn : Exact.toInt? y.exact with
    | some n =>
      rw [hn] at h
      cases h
      exact agrees_unknown _
    | none =>
      rw [hn] at h
      cases h
      exact agrees_unknown _

end Dual

/-- What can be known of a token: that its number is well formed, or that its value agrees. -/
def Token.Agrees : Token → Prop
  | literal l => l.WellFormed
  | operator _ => True
  | collapsed _ value _ _ _ => value.Agrees

namespace Grammar

variable {mode : Mode} {p : Part} {ts rest : List Token} {s t : Tree}

/-- The value of a tree, if it has one, agrees. -/
def Tree.Agrees (mode : Mode) (t : Tree) : Prop :=
  ∀ m v m', t.value mode m = (.ok v, m') → v.Agrees

/-- What has been read of a part agrees. -/
def Part.Agrees (mode : Mode) : Part → Prop
  | .rule _ => True
  | .suffixes x | .products x | .sums x => x.Agrees mode

theorem Tree.agrees_root (mode : Mode) (negative : Bool) (t : Tree) :
    (Tree.root negative t).Agrees mode := by
  intro m v m' hv
  obtain ⟨x, m₁, -, hv⟩ := run_bind_eq_ok_iff.1 hv
  exact Dual.agrees_of_orReal (mapError_eq_ok_iff.1 (Recall.ofExcept_eq_ok_iff.1 hv).1)

theorem Tree.agrees_call (mode : Mode) (f : FunctionName) (closed : Bool) (t : Tree) :
    (Tree.call f closed t).Agrees mode := by
  intro m v m' hv
  obtain ⟨x, m₁, -, hv⟩ := run_bind_eq_ok_iff.1 hv
  exact Dual.agrees_of_orReal (mapError_eq_ok_iff.1 (Recall.ofExcept_eq_ok_iff.1 hv).1)

theorem Tree.agrees_suffix (mode : Mode) (op : SuffixOperator) (t : Tree) :
    (Tree.suffix op t).Agrees mode := by
  intro m v m' hv
  obtain ⟨x, m₁, -, hv⟩ := run_bind_eq_ok_iff.1 hv
  cases op with
  | factorial => exact Dual.agrees_of_factorial (Recall.mapError_eq_ok_iff.1 hv)
  | square | percent =>
    cases hv
    exact Dual.agrees_orReal _ _

theorem Tree.agrees_power (mode : Mode) (s t : Tree) : (Tree.power s t).Agrees mode :=
  value_of_binary (f := fun x y => x.raise mode.limit y) rfl fun _ _ _ => Dual.agrees_of_raise

theorem Tree.agrees_product (mode : Mode) (signed : Bool) (s t : Tree) :
    (Tree.product signed s t).Agrees mode :=
  value_of_binary (f := fun x y => .ok (x.mul mode.limit y)) rfl fun _ _ _ => Dual.agrees_of_ok

theorem Tree.agrees_quotient (mode : Mode) (s t : Tree) : (Tree.quotient s t).Agrees mode :=
  value_of_binary (f := fun x y => (x.div mode.limit y).mapError .arithmetic) rfl
    fun _ _ _ h => Dual.agrees_of_orReal (mapError_eq_ok_iff.1 h)

theorem Tree.agrees_sum (mode : Mode) (s t : Tree) : (Tree.sum s t).Agrees mode :=
  value_of_binary (f := fun x y => .ok (x.add mode.limit y)) rfl fun _ _ _ => Dual.agrees_of_ok

theorem Tree.agrees_difference (mode : Mode) (s t : Tree) :
    (Tree.difference s t).Agrees mode :=
  value_of_binary (f := fun x y => .ok (x.sub mode.limit y)) rfl fun _ _ _ => Dual.agrees_of_ok

theorem Tree.Agrees.opposite (h : t.Agrees mode) : (Tree.opposite t).Agrees mode := by
  intro m v m' hv
  obtain ⟨x, m₁, hx, hv⟩ := run_bind_eq_ok_iff.1 hv
  cases hv
  exact (h _ _ _ hx).neg

theorem Tree.agrees_number (mode : Mode) {l : Literal} (h : l.Numeric) :
    (Tree.number l).Agrees mode := by
  intro m v m' hv
  have hread := mapError_eq_ok_iff.1 (Recall.ofExcept_eq_ok_iff.1 hv).1
  obtain ⟨x, hx, hv⟩ := bind_eq_ok_iff.1 hread
  obtain ⟨q, hq, hv⟩ := bind_eq_ok_iff.1 hv
  cases hv
  rw [Literal.real_eq h] at hx
  rw [Literal.exact_eq h] at hq
  split at hx
  · cases hx
  · split at hq
    · cases hq
    · cases hx
      cases hq
      exact Dual.agrees_ofRat _

/-- Everything derived from tokens that agree does. -/
theorem Derives.agrees (h : Derives p ts t rest) (hts : ∀ a ∈ ts, a.Agrees) (hp : p.Agrees mode) :
    t.Agrees mode := by
  induction h with
  | number => exact Tree.agrees_number mode (hts _ List.mem_cons_self).numeric
  | collapsed =>
    intro m v m' hv
    cases hv
    exact hts _ List.mem_cons_self
  | @constant c ts =>
    intro m v m' hv
    cases c <;>
    · cases hv
      exact Dual.agrees_unknown _
  | root | rootMinus => exact Tree.agrees_root mode _ _
  | group h hc ih => exact ih (fun a ha => hts a (List.mem_cons_of_mem _ ha)) trivial
  | call => exact Tree.agrees_call mode _ _ _
  | suffix h h' ih ih' | term h h' ih ih' | expr h h' ih ih' =>
    exact ih' (fun a ha => hts a (h.isSuffix.mem ha)) (ih hts trivial)
  | suffixesDone | productsDone | sumsDone => exact hp
  | suffixesMore h ih =>
    exact ih (fun a ha => hts a (List.mem_cons_of_mem _ ha)) (Tree.agrees_suffix mode _ _)
  | factor h ih | signedFactor h ih => exact ih hts trivial
  | power => exact Tree.agrees_power mode _ _
  | opposite h ih =>
    exact (ih (fun a ha => hts a (List.mem_cons_of_mem _ ha)) trivial).opposite
  | times h h' ih ih' =>
    exact ih' (fun a ha => hts a (List.mem_cons_of_mem _ (h.isSuffix.mem ha)))
      (Tree.agrees_product mode _ _ _)
  | dividedBy h h' ih ih' =>
    exact ih' (fun a ha => hts a (List.mem_cons_of_mem _ (h.isSuffix.mem ha)))
      (Tree.agrees_quotient mode _ _)
  | beside h h' ih ih' =>
    exact ih' (fun a ha => hts a (h.isSuffix.mem ha)) (Tree.agrees_product mode _ _ _)
  | plus h h' ih ih' =>
    exact ih' (fun a ha => hts a (List.mem_cons_of_mem _ (h.isSuffix.mem ha)))
      (Tree.agrees_sum mode _ _)
  | minus h h' ih ih' =>
    exact ih' (fun a ha => hts a (List.mem_cons_of_mem _ (h.isSuffix.mem ha)))
      (Tree.agrees_difference mode _ _)

/-- Whatever the rules of the grammar read of tokens that agree, and whatever the tokens are worth as
an expression, agrees, in every context and whatever size exact values may have. Both readings of a
number give the number of its digits, unless it has too many of them. -/
theorem evaluate_agrees (mode : Mode) (ts : List Token) (hts : ∀ a ∈ ts, a.Agrees) :
    (∀ span start depth r m p m', parse mode depth r ((range span ts).drop start) m = (.ok p, m') →
      p.value.Agrees) ∧
    (∀ depth span m v m', evaluateWithin mode depth span ts m = (.ok v, m') → v.Agrees) ∧
    ∀ l, .literal l ∈ ts →
      (∀ t, l.real = .ok t → t.Denotes l.number) ∧ (∀ q, l.exact = .ok q → q = l.number) ∧
      (l.integral.length + l.fraction.length ≤ Text.digitLimit →
        l.real = .ok (.rational l.number) ∧ l.exact = .ok l.number) := by
  have hrange : ∀ span, ∀ a ∈ range span ts, a.Agrees :=
    fun span a ha => hts a (List.mem_of_mem_take ha)
  refine ⟨fun span start depth r m p m' h => ?_, fun depth span m v m' h => ?_, fun l hl => ?_⟩
  · obtain ⟨t, ht, hvt, -⟩ := parse_sound h
    exact ht.agrees (fun a ha => hrange span a (List.mem_of_mem_drop ha)) trivial _ _ _ hvt
  · obtain ⟨t, ht, hvt, -⟩ := evaluateWithin_sound h
    exact ht.agrees (hrange span) trivial _ v _ hvt
  · have hnumeric := (hts _ hl).numeric
    rw [Literal.real_eq hnumeric, Literal.exact_eq hnumeric]
    refine ⟨fun t ht => ?_, fun q hq => ?_, fun hshort => ?_⟩
    · split at ht
      · cases ht
      · cases ht
        exact Term.denotes_rational _
    · split at hq
      · cases hq
      · cases hq
        rfl
    · have hreal : ¬ (Text.digitLimit < l.integral.length ∨ Text.digitLimit < l.fraction.length) := by
        omega
      rw [if_neg hreal, if_neg (Nat.not_lt.2 hshort)]
      exact ⟨rfl, rfl⟩

/-- The opposite of a collapsed half of four. -/
theorem evaluate_agrees_opposite :
    let two : Dual := ⟨.named (.name 0) (.mul (.rational (1 / 2)) (.rational 4)), some 2⟩
    let ts : List Token := [.operator (.binary .minus), .collapsed 0 two [] ⟨false, 0⟩ "2"]
    let mode : Mode := ⟨true, 10000, Elementary.kernel⟩
    (∀ a ∈ ts, a.Agrees) ∧ evaluate mode 2 ts Memory.empty = (.ok two.neg, Memory.empty) ∧
      two.neg.real.Denotes ((-2 : ℚ) : ℝ) := by
  intro two ts mode
  have htwo : two.Agrees := by
    rintro q ⟨⟩
    refine ⟨⟨trivial, trivial⟩, ?_⟩
    norm_num [two, Term.value]
  have hts : ∀ a ∈ ts, a.Agrees := by
    intro a ha
    rcases List.mem_pair.1 ha with rfl | rfl
    · trivial
    · exact htwo
  have hvalue : evaluate mode 2 ts Memory.empty = (.ok two.neg, Memory.empty) := by cbv
  exact ⟨hts, hvalue, (evaluate_agrees mode ts hts).2.1 _ 2 _ two.neg _ hvalue (-2) rfl⟩

end Grammar

end Reckoner
