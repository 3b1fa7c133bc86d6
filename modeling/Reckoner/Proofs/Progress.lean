import Reckoner.Proofs.Failures
import Reckoner.Proofs.Located
/-!
How far the rules get. A rule reads at least one token and no further than the tokens that count; where
it stops for what stands there, it has not gone past them either (`parse_explained`). With room enough
every rule comes to an outcome, which is the outcome with more room as well: of the tokens that are
left each phrase inside has fewer, or the same at a rule that binds more tightly (`parse_converges`).
By positions all of this is `parse_progress`.
-/
namespace Reckoner.Grammar

open Reals

variable {α β : Type} {mode : Mode} {r : Rule} {ts rest : List Token} {v : Dual} {count : ℕ}

/-- What an outcome comes to as rules may nest more deeply: with room enough it is `x`, which is not for
want of room, and before that there is no other outcome than the want of room. -/
structure ComesTo {ε : Type} (deep : ε) (o : ℕ → Except ε α × Memory) (x : Except ε α × Memory) :
    Prop where
  roomy : x.1 ≠ .error deep
  enough : ∃ room, ∀ depth, room ≤ depth → o depth = x
  before : ∀ depth, o depth = x ∨ (o depth).1 = .error deep

/-- With room enough there is an outcome from every memory, always the same. -/
def Converges (o : ℕ → Recall Stop α) : Prop :=
  ∀ m, ∃ x, ComesTo (.abort .nesting) (fun depth => o depth m) x

namespace Converges

theorem const {x : Recall Stop α} (hx : ∀ m, (x m).1 ≠ .error (.abort .nesting)) :
    Converges fun _ => x :=
  fun m => ⟨x m, hx m, ⟨0, fun _ _ => rfl⟩, fun _ => .inl rfl⟩

theorem ok (x : α) : Converges fun _ => (pure x : Recall Stop α) := const nofun

theorem failure (cause : GrammarError) (rest : List Token) :
    Converges fun _ => (throw (.failure cause rest) : Recall Stop α) := const nofun

theorem orFail (x : Except ArithmeticError α) : Converges fun _ => orFail x := by
  refine const fun m => ?_
  cases x <;> nofun

theorem number (l : Literal) : Converges fun _ => orAbort ((literalValue l).mapError .numeral) := by
  refine const fun m => ?_
  cases literalValue l <;> nofun

theorem bind {o : ℕ → Recall Stop α} {f : ℕ → α → Recall Stop β} (ho : Converges o)
    (hf : ∀ depth v m m', o depth m = (.ok v, m') → Converges fun depth => f depth v) :
    Converges fun depth => o depth >>= f depth := by
  intro m
  obtain ⟨⟨x, m'⟩, hx, ⟨room, henough⟩, hbefore⟩ := ho m
  have hdeep : ∀ depth, (o depth m).1 = .error (.abort .nesting) →
      ((o depth >>= f depth) m).1 = .error (.abort .nesting) :=
    fun depth h => congrArg Prod.fst (Recall.bind_of_error (Prod.ext h rfl))
  cases x with
  | error stop =>
    refine ⟨(.error stop, m'), fun h => hx (congrArg _ (Except.error.inj h)),
      ⟨room, fun depth hdepth => Recall.bind_of_error (henough depth hdepth)⟩, fun depth => ?_⟩
    rcases hbefore depth with h | h
    · exact .inl (Recall.bind_of_error h)
    · exact .inr (hdeep depth h)
  | ok v =>
    obtain ⟨y, hy, ⟨room', henough'⟩, hbefore'⟩ := hf room v m m' (henough room le_rfl) m'
    refine ⟨y, hy, ⟨max room room', fun depth hdepth => ?_⟩, fun depth => ?_⟩
    · exact (Recall.bind_of_ok (henough depth (le_of_max_le_left hdepth))).trans
        (henough' depth (le_of_max_le_right hdepth))
    · rcases hbefore depth with h | h
      · dsimp only
        rw [Recall.bind_of_ok h]
        exact hbefore' depth
      · exact .inr (hdeep depth h)

/-- A power needs room for its exponent. -/
theorem power (limit : Int) (x y : Dual) :
    Converges fun depth => orAbort (x.power limit depth y) := by
  refine fun m => ⟨orAbort (x.raise limit y) m, fun h => ?_, ⟨y.exponentDepth, fun depth hdepth => ?_⟩,
    fun depth => ?_⟩
  · obtain ⟨e, he, hnesting⟩ := mapError_eq_error_iff.1 h
    cases hnesting
    rcases x.raise_failsInValue limit y m _ he with ⟨_, h⟩ | ⟨_, h⟩ <;> cases h
  · rcases x.power_eq limit depth y with heq | ⟨hlt, -⟩
    · exact congrArg (fun v => orAbort v m) heq
    · exact absurd hdepth (Nat.not_le.2 hlt)
  · rcases x.power_eq limit depth y with heq | ⟨-, heq⟩
    · exact .inl (congrArg (fun v => orAbort v m) heq)
    · exact .inr (congrArg (fun v => (orAbort v m).1) heq)

/-- A rule has room for one phrase less inside. -/
theorem succ {o : ℕ → Recall Stop α} (h : Converges fun depth => o (depth + 1))
    (hzero : ∀ m, (o 0 m).1 = .error (.abort .nesting)) : Converges o := by
  intro m
  obtain ⟨x, hx, ⟨room, henough⟩, hbefore⟩ := h m
  refine ⟨x, hx, ⟨room + 1, fun depth hdepth => ?_⟩, fun depth => ?_⟩
  · obtain ⟨depth, rfl⟩ := Nat.exists_eq_add_of_le' (Nat.le_of_add_left_le hdepth)
    exact henough depth (Nat.le_of_succ_le_succ hdepth)
  · cases depth with
    | zero => exact .inr (hzero m)
    | succ depth => exact hbefore depth

end Converges

theorem converges_applySuffix (op : SuffixOperator) (x : Dual) :
    Converges fun _ => applySuffix mode op x := by
  refine .const fun m h => ?_
  obtain ⟨e, he, hnesting⟩ := mapError_eq_error_iff.1 h
  cases hnesting
  rcases suffixValue_failsInValue mode op x m _ he with ⟨_, h⟩ | ⟨_, h⟩ <;> cases h

theorem converges_suffixes : Converges fun _ => suffixes mode v ts := by
  fun_induction suffixes mode v ts with
  | case1 v op rest ih => exact .bind (converges_applySuffix op v) fun _ w _ _ _ => ih w
  | case2 => exact .ok _

/-! A rule comes to an outcome if the rules do that it calls, on fewer tokens or on the same ones. -/

section

variable {sub : ℕ → Rule → List Token → Outcome}

theorem converges_suffix (hsame : Converges fun depth => sub depth .unary ts) :
    Converges fun depth => suffix mode (sub depth) ts :=
  .bind hsame fun _ _ _ _ _ => converges_suffixes

variable (hfewer : ∀ r us, us.length < ts.length → Converges fun depth => sub depth r us)
  (hrest : ∀ depth r us p m m', sub depth r us m = (.ok p, m') → p.rest.length < us.length)

include hfewer

theorem converges_unary : Converges fun depth => unary mode (sub depth) ts := by
  cases ts with
  | nil => exact .failure _ _
  | cons t rest =>
    have hinside (r : Rule) : Converges fun depth => sub depth r rest :=
      hfewer r rest (Nat.lt_succ_self _)
    cases t with
    | literal l => exact .bind (.number l) fun _ v _ _ _ => .ok _
    | collapsed name value source context short => exact .ok _
    | operator k =>
      cases k with
      | constant c => cases c <;> exact .ok _
      | root =>
        rcases hskip : skipMinus rest with ⟨negative, us⟩
        have hus : us.length ≤ rest.length := (isSuffix_of_skipMinus hskip).length_le
        simp only [unary, hskip]
        exact .bind (hfewer _ us (Nat.lt_succ_of_le hus)) fun _ arg _ _ _ =>
          .bind (.orFail _) fun _ v _ _ _ => .ok _
      | opening => exact .bind (hinside .expr) fun _ arg _ _ _ => .ok _
      | function f =>
        exact .bind (hinside .expr) fun _ arg _ _ _ => .bind (.orFail _) fun _ v _ _ _ => .ok _
      | _ => exact .failure _ _

theorem converges_signedFactor (hsame : Converges fun depth => sub depth .factor ts) :
    Converges fun depth => signedFactor (sub depth) ts := by
  rcases hskip : skipMinus ts with ⟨negative, us⟩
  simp only [signedFactor, hskip]
  cases negative with
  | false =>
    obtain rfl := eq_of_skipMinus_false hskip
    exact hsame
  | true =>
    obtain rfl := eq_of_skipMinus_true hskip
    exact .bind (hfewer _ us (Nat.lt_succ_self _)) fun _ x _ _ _ => .ok _

include hrest

theorem converges_factor (hsame : Converges fun depth => sub depth .suffix ts) :
    Converges fun depth => factor mode depth (sub depth) ts := by
  simp only [factor_eq]
  refine .bind hsame fun depth base m m' hbase => ?_
  have hlt := hrest _ _ _ _ _ _ hbase
  cases hafter : after? (.binary .power) base.rest with
  | none => exact .ok _
  | some rest =>
    rw [after?_eq_some_iff.1 hafter] at hlt
    exact .bind (hfewer _ rest (Nat.lt_of_succ_lt hlt)) fun _ exponent _ _ _ =>
      .bind (.power _ _ _) fun _ _ _ _ _ => .ok _

theorem converges_products {us : List Token} (hus : us.length < ts.length) :
    Converges fun depth => products mode (sub depth) count v us := by
  induction count generalizing v us with
  | zero => exact .ok _
  | succ count ih =>
    cases us with
    | nil => exact .ok _
    | cons t rest =>
      have hlt : rest.length < ts.length := Nat.lt_of_succ_lt hus
      simp only [products]
      split
      · exact .bind (hfewer _ rest hlt) fun _ y _ _ hy => ih ((hrest _ _ _ _ _ _ hy).trans hlt)
      · split
        · exact .bind (hfewer _ rest hlt) fun _ y _ _ hy => .bind (.orFail _) fun _ w _ _ _ =>
            ih ((hrest _ _ _ _ _ _ hy).trans hlt)
        · split
          · exact .bind (hfewer _ _ hus) fun _ y _ _ hy => ih ((hrest _ _ _ _ _ _ hy).trans hus)
          · exact .ok _

theorem converges_sums {us : List Token} (hus : us.length < ts.length) :
    Converges fun depth => sums mode (sub depth) count v us := by
  induction count generalizing v us with
  | zero => exact .ok _
  | succ count ih =>
    cases us with
    | nil => exact .ok _
    | cons t rest =>
      have hlt : rest.length < ts.length := Nat.lt_of_succ_lt hus
      simp only [sums]
      split
      · exact .bind (hfewer _ rest hlt) fun _ y _ _ hy => ih ((hrest _ _ _ _ _ _ hy).trans hlt)
      · split
        · exact .bind (hfewer _ rest hlt) fun _ y _ _ hy => ih ((hrest _ _ _ _ _ _ hy).trans hlt)
        · exact .ok _

theorem converges_term (hsame : Converges fun depth => sub depth .signedFactor ts) :
    Converges fun depth => term mode (sub depth) ts :=
  .bind hsame fun _ _ _ _ hx => converges_products hfewer hrest (hrest _ _ _ _ _ _ hx)

theorem converges_expr (hsame : Converges fun depth => sub depth .term ts) :
    Converges fun depth => expr mode (sub depth) ts :=
  .bind hsame fun _ _ _ _ hx => converges_sums hfewer hrest (hrest _ _ _ _ _ _ hx)

end

theorem length_lt_of_parse {depth : ℕ} {p : Parsed} {m m' : Memory}
    (h : parse mode depth r ts m = (.ok p, m')) :
    p.rest.length < ts.length := by
  obtain ⟨t, ht, -⟩ := parse_sound h
  exact ht.length_lt

/-- With room enough every rule comes to an outcome. -/
theorem parse_converges (mode : Mode) (r : Rule) (ts : List Token) :
    Converges fun depth => parse mode depth r ts := by
  induction hn : ts.length using Nat.strong_induction_on generalizing r ts with
  | _ n ih =>
    subst hn
    have hfewer : ∀ r us, us.length < ts.length → Converges fun depth => parse mode depth r us :=
      fun r us hlt => ih _ hlt r us rfl
    have hrest : ∀ depth r us p m m', parse mode depth r us m = (.ok p, m') →
        p.rest.length < us.length :=
      fun _ _ _ _ _ _ => length_lt_of_parse
    have hunary : Converges fun depth => parse mode depth .unary ts :=
      .succ (converges_unary hfewer) fun _ => rfl
    have hsuffix : Converges fun depth => parse mode depth .suffix ts :=
      .succ (converges_suffix hunary) fun _ => rfl
    have hfactor : Converges fun depth => parse mode depth .factor ts :=
      .succ (converges_factor hfewer hrest hsuffix) fun _ => rfl
    have hsigned : Converges fun depth => parse mode depth .signedFactor ts :=
      .succ (converges_signedFactor hfewer hfactor) fun _ => rfl
    have hterm : Converges fun depth => parse mode depth .term ts :=
      .succ (converges_term hfewer hrest hsigned) fun _ => rfl
    have hexpr : Converges fun depth => parse mode depth .expr ts :=
      .succ (converges_expr hfewer hrest hterm) fun _ => rfl
    cases r <;> assumption

/-! How far a rule gets. -/

theorem exists_drop_of_isSuffix {i : ℕ} (hi : i ≤ ts.length) (h : rest <:+ ts.drop i) :
    ∃ pos, i ≤ pos ∧ pos ≤ ts.length ∧ rest = ts.drop pos := by
  have hle := h.length_le
  rw [List.length_drop] at hle
  rw [List.suffix_iff_eq_drop, List.drop_drop, List.length_drop] at h
  exact ⟨_, Nat.le_add_right i _, by omega, h⟩

/-- Only a closing parenthesis ends a sum. -/
theorem eq_closing_of_endsAt {t : Token} (h : (Part.rule .expr).EndsAt ts) (ht : ts.head? = some t) :
    t = .operator .closing := by
  obtain ⟨closed, hcloses⟩ := closes_skipClosing h
  cases hcloses with
  | closing => exact (Option.some.inj ht).symm
  | ending => cases ht

/-- A rule that succeeds has gone on, and a sum up to a closing parenthesis or the end. -/
theorem exists_pos_of_ok {depth i : ℕ} {p : Parsed} {m m' : Memory} (hi : i ≤ ts.length)
    (h : parse mode depth r (ts.drop i) m = (.ok p, m')) :
    ∃ pos, i < pos ∧ pos ≤ ts.length ∧ p.rest = ts.drop pos ∧
      (r = .expr → ∀ t, ts[pos]? = some t → t = .operator .closing) := by
  obtain ⟨t, ht, -, hend⟩ := parse_sound h
  obtain ⟨pos, hpos, hle, hrest⟩ := exists_drop_of_isSuffix hi ht.isSuffix
  refine ⟨pos, ?_, hle, hrest, ?_⟩
  · have hlt := ht.length_lt
    rw [hrest, List.length_drop, List.length_drop] at hlt
    omega
  · rintro rfl a ha
    rw [← List.head?_drop, ← hrest] at ha
    exact eq_closing_of_endsAt hend ha

/-- A rule that stops has not gone past the end, and says whether it has come there. -/
theorem exists_pos_of_failure {depth i : ℕ} {cause : GrammarError} {m : Memory} (hi : i ≤ ts.length)
    (h : (parse mode depth r (ts.drop i) m).1 = .error (.failure cause rest)) :
    ∃ pos, i ≤ pos ∧ pos ≤ ts.length ∧ rest = ts.drop pos ∧
      (cause.code = "3012" ↔ pos = ts.length) ∧
      (cause.code = "3011" ↔ ∃ k, ts[pos]? = some (.operator k) ∧ ¬ StartsOperand k) := by
  cases parse_explained mode depth r (List.suffix_refl (ts.drop i)) m _ h with
  | ending =>
    have hend : ts[ts.length]? = none := List.getElem?_eq_none le_rfl
    refine ⟨ts.length, hi, le_rfl, List.drop_length.symm, iff_of_true rfl rfl,
      iff_of_false (by decide) ?_⟩
    rintro ⟨k, hk, -⟩
    rw [hend] at hk
    cases hk
  | @unrecognized k us hk hsuffix =>
    obtain ⟨pos, hpos, hle, hrest⟩ := exists_drop_of_isSuffix hi hsuffix
    have hat : ts[pos]? = some (.operator k) := by
      rw [← List.head?_drop, ← hrest]
      rfl
    have hlt : pos < ts.length := (List.getElem?_eq_some_iff.1 hat).1
    exact ⟨pos, hpos, hle, hrest, iff_of_false (by decide) hlt.ne, iff_of_true rfl ⟨k, hat, hk⟩⟩

/-! The same by positions. -/

variable {span : ℤ} {i pos depth : ℕ} {p : Placed} {m m' : Memory} {cause : GrammarError}

theorem eq_of_drop_eq {us : List Token} {j : ℕ} (hi : i ≤ us.length) (hj : j ≤ us.length)
    (h : us.drop i = us.drop j) : i = j := by
  have hlength := congrArg List.length h
  rw [List.length_drop, List.length_drop] at hlength
  omega

theorem progress_of_parseAt (hi : i ≤ bound span ts)
    (h : parseAt mode span ts depth r i m = (.ok p, m')) :
    i < p.pos ∧ p.pos ≤ bound span ts ∧
      (r = .expr → ∀ t, token? span ts p.pos = some t → t = .operator .closing) := by
  rw [← length_range_eq] at hi ⊢
  have hlocated := parseAt_located mode span ts depth r i m hi
  rw [h] at hlocated
  generalize ho : parse mode depth r ((range span ts).drop i) m = o at hlocated
  cases hlocated with
  | @ok v pos _ hle =>
    obtain ⟨pos', hlt, hle', hrest, hclosing⟩ := exists_pos_of_ok hi ho
    obtain rfl := eq_of_drop_eq hle hle' hrest
    simp only [token?_eq]
    exact ⟨hlt, hle, hclosing⟩

theorem position_of_failure (hi : i ≤ bound span ts)
    (h : (parseAt mode span ts depth r i m).1 = .error (.failure cause pos)) :
    i ≤ pos ∧ pos ≤ bound span ts ∧ (cause.code = "3012" ↔ pos = bound span ts) ∧
      (cause.code = "3011" ↔ ∃ k, token? span ts pos = some (.operator k) ∧ ¬ StartsOperand k) := by
  rw [← length_range_eq] at hi ⊢
  have hlocated := parseAt_located mode span ts depth r i m hi
  generalize ho : parse mode depth r ((range span ts).drop i) m = o,
    parseAt mode span ts depth r i m = o' at hlocated h
  cases hlocated with
  | @ok => cases h
  | abort => cases h
  | @failure cause pos _ hle =>
    cases h
    obtain ⟨pos', hpos, hle', hrest, hcodes⟩ := exists_pos_of_failure hi (congrArg Prod.fst ho)
    obtain rfl := eq_of_drop_eq hle hle' hrest
    simp only [token?_eq]
    exact ⟨hpos, hle, hcodes⟩

/-- The outcome with the position in place of the tokens that are left. -/
def place (span : ℤ) (ts : List Token) : Except Stop Parsed → Except Halt Placed
  | .ok p => .ok ⟨p.value, bound span ts - p.rest.length⟩
  | .error (.failure cause rest) => .error (.failure cause (bound span ts - rest.length))
  | .error (.abort e) => .error (.abort e)

theorem Located.eq_place {o : Except Stop Parsed × Memory} {o' : Except Halt Placed × Memory}
    (h : Located span ts o o') : o' = (place span ts o.1, o.2) := by
  have hpos {pos : ℕ} (hpos : pos ≤ (range span ts).length) :
      bound span ts - ((range span ts).drop pos).length = pos := by
    rw [List.length_drop, ← length_range_eq]
    omega
  cases h with
  | ok h => simp only [place, hpos h]
  | failure h => simp only [place, hpos h]
  | abort => rfl

theorem parseAt_comesTo (mode : Mode) (r : Rule) (hi : i ≤ bound span ts) (m : Memory) :
    ∃ x, ComesTo (.abort .nesting) (fun depth => parseAt mode span ts depth r i m) x := by
  obtain ⟨x, hx, ⟨room, henough⟩, hbefore⟩ := parse_converges mode r ((range span ts).drop i) m
  rw [← length_range_eq] at hi
  have hplace := fun depth => (parseAt_located mode span ts depth r i m hi).eq_place
  refine ⟨(place span ts x.1, x.2), fun h => hx ?_, ⟨room, fun depth hdepth => ?_⟩, fun depth => ?_⟩
  · rcases x with ⟨⟨_ | e⟩ | p, m⟩ <;> cases h
    rfl
  · exact (hplace depth).trans (congrArg (fun x => (place span ts x.1, x.2)) (henough depth hdepth))
  · rcases hbefore depth with h | h
    · exact .inl ((hplace depth).trans (congrArg (fun x => (place span ts x.1, x.2)) h))
    · exact .inr ((congrArg Prod.fst (hplace depth)).trans (congrArg (place span ts) h))

/-- A rule that starts somewhere among the tokens that count, and looks no further. With room enough it
comes to an outcome, which depends on none of the other tokens: from the same memory, the same with all
of them replaced or removed, and it leaves the same memory. Where it succeeds it has read a token at
least, and a sum has read all before a closing parenthesis or the end. Where it stops for what stands
there, it stops at the end, or at an operator that no operand starts with, and says which. -/
theorem parse_progress (mode : Mode) (span : ℤ) (ts : List Token) (r : Rule) (i : ℕ)
    (hi : i ≤ min span ts.length) :
    let bound := bound span ts
    bound = min span ts.length ∧
      (∀ m, ∃ x, ComesTo (.abort .nesting) (fun depth => parseAt mode span ts depth r i m) x) ∧
      (∀ us, us = [] ∨ span ≤ ts.length → ∀ depth,
        parseAt mode span (ts.take bound ++ us) depth r i = parseAt mode span ts depth r i) ∧
      (∀ depth m p m', parseAt mode span ts depth r i m = (.ok p, m') →
        i < p.pos ∧ p.pos ≤ bound ∧
          (r = .expr → ∀ t, token? span ts p.pos = some t → t = .operator .closing)) ∧
      ∀ depth m cause pos, (parseAt mode span ts depth r i m).1 = .error (.failure cause pos) →
        i ≤ pos ∧ pos ≤ bound ∧ (cause.code = "3012" ↔ pos = bound) ∧
          (cause.code = "3011" ↔ ∃ k, token? span ts pos = some (.operator k) ∧ ¬ StartsOperand k) := by
  intro bound
  have hbound : bound = min span ts.length := by
    simp only [bound, Grammar.bound]
    omega
  have hstart : i ≤ bound := by
    rw [← hbound] at hi
    exact_mod_cast hi
  exact ⟨hbound, parseAt_comesTo mode r hstart,
    fun us hus depth => congrFun₂ ((sameCounted_replace hus).parseAt mode depth) r i,
    fun depth m p m' h => progress_of_parseAt hstart h,
    fun depth m cause pos h => position_of_failure hstart h⟩

/-- Of 2 × ) 3 the first three tokens count: the sum stops at the parenthesis, whatever follows. -/
theorem parse_progress_closing :
    let two : Token := .literal ⟨"2", false, ""⟩
    let ts : List Token := [two, .operator (.binary .times), .operator .closing, two]
    let mode : Mode := ⟨false, 10000, Elementary.kernel⟩
    (0 : ℕ) ≤ min (3 : ℤ) ts.length ∧
      (parseAt mode 3 ts 9 .expr 0 Memory.empty).1 = .error (.failure .unrecognizedToken 2) ∧
      ∃ k, token? 3 ts 2 = some (.operator k) ∧ ¬ StartsOperand k := by
  intro two ts mode
  have hi : (0 : ℕ) ≤ min (3 : ℤ) ts.length := by decide
  have hparse : (parseAt mode 3 ts 9 .expr 0 Memory.empty).1 =
      .error (.failure .unrecognizedToken 2) := by cbv
  have hcode := ((parse_progress mode 3 ts .expr 0 hi).2.2.2.2 _ _ _ _ hparse).2.2.2
  exact ⟨hi, hparse, hcode.1 rfl⟩

end Reckoner.Grammar
