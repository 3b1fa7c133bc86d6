import Mathlib.Data.Nat.Bits
import Reckoner.Evaluation
import Reckoner.Proofs.Drawing
import Reckoner.Proofs.Parsing
/-!
Repeated squaring. A power takes a product for each binary digit of the exponent but the first, and one
more for each of these that is one; the calls that make it nest once deeper than that. Where there is
room for them the power is drawn, for every base and exponent, and where there is not none is, and an
evaluation that wants it fails (`power_of_room`, `evaluate_power_of_tooDeep`).
-/
namespace Reckoner

/-- How many binary digits are one. -/
def binaryOnes (n : ℕ) : ℕ := n.bits.count true

section

variable {n : ℕ}

theorem bitLength_eq_div_two (hn : n ≠ 0) : bitLength n = bitLength (n / 2) + 1 := by
  by_cases hone : n = 1
  · rw [hone]
    rfl
  · have hhalf : n / 2 ≠ 0 := by omega
    rw [bitLength, bitLength, if_neg hn, if_neg hhalf, Nat.log2_def n, if_pos (by omega)]

theorem binaryOnes_eq_div_two (n : ℕ) : binaryOnes n = binaryOnes (n / 2) + n % 2 := by
  obtain ⟨k, rfl | rfl⟩ := Nat.even_or_odd' n
  · have hhalf : 2 * k / 2 = k := by omega
    have hdigit : 2 * k % 2 = 0 := by omega
    rw [hhalf, hdigit]
    by_cases hk : k = 0
    · rw [hk]
      rfl
    · rw [binaryOnes, Nat.bit0_bits k hk, List.count_cons_of_ne (by decide)]
      rfl
  · have hhalf : (2 * k + 1) / 2 = k := by omega
    have hdigit : (2 * k + 1) % 2 = 1 := by omega
    rw [hhalf, hdigit, binaryOnes, Nat.bit1_bits, List.count_cons_self]
    rfl

theorem binaryOnes_pos (hn : n ≠ 0) : 0 < binaryOnes n := by
  induction n using Nat.strong_induction_on with
  | _ n ih =>
    rw [binaryOnes_eq_div_two]
    rcases Nat.mod_two_eq_zero_or_one n with heven | hodd
    · have hhalf := ih (n / 2) (by omega) (by omega)
      omega
    · omega

theorem bitLength_pred_of_odd (hodd : n % 2 = 1) (hone : n ≠ 1) : bitLength (n - 1) = bitLength n := by
  have hhalf : (n - 1) / 2 = n / 2 := by omega
  rw [bitLength_eq_div_two (n := n) (by omega), bitLength_eq_div_two (n := n - 1) (by omega), hhalf]

theorem binaryOnes_of_odd (hodd : n % 2 = 1) : binaryOnes n = binaryOnes (n - 1) + 1 := by
  have hhalf : (n - 1) / 2 = n / 2 := by omega
  have hdigit : (n - 1) % 2 = 0 := by omega
  rw [binaryOnes_eq_div_two n, binaryOnes_eq_div_two (n - 1), hhalf, hdigit, hodd]

theorem binaryOnes_of_even (heven : n % 2 = 0) : binaryOnes n = binaryOnes (n / 2) := by
  rw [binaryOnes_eq_div_two n, heven, Nat.add_zero]

end

namespace Reals

namespace Op

def isProduct {ι : Type} : Op ι → Bool
  | mul _ _ => true
  | _ => false

def isInverse {ι : Type} : Op ι → Bool
  | inverse _ => true
  | _ => false

theorem isInverse_eq_false {ι : Type} {op : Op ι} (h : op.isProduct = true) :
    op.isInverse = false := by
  cases op <;> first | rfl | cases h

end Op

namespace Graph

variable {g : Graph}

/-- The operations that an extension adds, in their order. -/
def Extension.added (x : Extension g) : List (Op ℕ) := x.graph.ops.toList.drop g.size

theorem added_push (op : Op ℕ) (h : ∀ c ∈ op.operands, c < g.size) : (g.push op h).added = [op] := by
  show (g.ops.push op).toList.drop g.ops.size = [op]
  rw [Array.toList_push, ← Array.length_toList, List.drop_left]

theorem added_stay (node : ℕ) (h : node < g.size) : (g.stay node h).added = [] := by
  show g.ops.toList.drop g.ops.size = []
  rw [← Array.length_toList, List.drop_length]

section

variable (x : Extension g)

theorem Extension.added_followedBy_push (op : Op ℕ) (h : ∀ c ∈ op.operands, c < x.graph.size) :
    (x.followedBy (x.graph.push op h)).added = x.added ++ [op] := by
  show (x.graph.ops.push op).toList.drop g.size = _
  rw [Array.toList_push, List.drop_append_of_le_length x.le_size]
  rfl

theorem Extension.added_followedBy_mul (a b : ℕ) (ha : a < x.graph.size) (hb : b < x.graph.size) :
    (x.followedBy (x.graph.binary .mul a b ha hb)).added = x.added ++ [.mul a b] :=
  x.added_followedBy_push _ _

theorem Extension.added_followedBy_inverse (a : ℕ) (ha : a < x.graph.size) :
    (x.followedBy (x.graph.unary .inverse a ha)).added = x.added ++ [.inverse a] :=
  x.added_followedBy_push _ _

end

theorem Extension.isProduct_of_mem_followedBy_mul {x : Extension g}
    (hx : ∀ op ∈ x.added, op.isProduct = true) (a b : ℕ) (ha : a < x.graph.size)
    (hb : b < x.graph.size) :
    ∀ op ∈ (x.followedBy (x.graph.binary .mul a b ha hb)).added, op.isProduct = true := by
  rw [added_followedBy_mul]
  intro op hop
  rcases List.mem_append.1 hop with hop | hop
  · exact hx op hop
  · rw [List.mem_singleton.1 hop]
    rfl

section

variable (base : ℕ) (h : base < g.size)

theorem isProduct_of_mem_natPower {n : ℕ} (hn : n ≠ 0) :
    ∀ op ∈ (g.natPower base h n).added, op.isProduct = true := by
  fun_induction g.natPower base h n with
  | case1 => exact absurd rfl hn
  | case2 =>
    rw [added_stay]
    intro op hop
    cases hop
  | case3 n _ hone hodd x ih =>
    exact Extension.isProduct_of_mem_followedBy_mul (ih (by omega)) x.node base _ _
  | case4 n _ hone heven x ih =>
    exact Extension.isProduct_of_mem_followedBy_mul (ih (by omega)) x.node x.node _ _

theorem length_added_natPower {n : ℕ} (hn : n ≠ 0) :
    (g.natPower base h n).added.length + 2 = bitLength n + binaryOnes n := by
  fun_induction g.natPower base h n with
  | case1 => exact absurd rfl hn
  | case2 =>
    rw [added_stay]
    decide
  | case3 n _ hone hodd x ih =>
    have hlength : x.added.length + 2 = bitLength n + binaryOnes (n - 1) := by
      rw [← bitLength_pred_of_odd hodd hone]
      exact ih (by omega)
    rw [Extension.added_followedBy_mul, List.length_append, List.length_singleton,
      binaryOnes_of_odd hodd]
    omega
  | case4 n hzero hone heven x ih =>
    have hlength : x.added.length + 2 = bitLength (n / 2) + binaryOnes (n / 2) := ih (by omega)
    rw [Extension.added_followedBy_mul, List.length_append, List.length_singleton,
      bitLength_eq_div_two hzero, binaryOnes_of_even (by omega)]
    omega

end

theorem powerDepth_of_le_one {n : ℕ} (hn : n ≤ 1) : powerDepth n = 1 := by
  rw [powerDepth, if_pos hn]

theorem powerDepth_pos (n : ℕ) : 0 < powerDepth n := by
  rw [powerDepth]
  split <;> omega

theorem powerDepth_add_one {n : ℕ} (hn : n ≠ 0) : powerDepth n + 1 = bitLength n + binaryOnes n := by
  fun_induction powerDepth n with
  | case1 n hle =>
    obtain rfl : n = 1 := by omega
    decide
  | case2 n hlt ih =>
    have hdepth := ih (by omega)
    rw [bitLength_eq_div_two hn, binaryOnes_eq_div_two n]
    omega

theorem powerDepth_of_odd {n : ℕ} (hodd : n % 2 = 1) (hone : n ≠ 1) :
    powerDepth n = powerDepth (n - 1) + 1 := by
  have hdepth := powerDepth_add_one (n := n) (by omega)
  have hdepth' := powerDepth_add_one (n := n - 1) (by omega)
  rw [bitLength_pred_of_odd hodd hone] at hdepth'
  rw [binaryOnes_of_odd hodd] at hdepth
  omega

theorem powerDepth_of_even {n : ℕ} (heven : n % 2 = 0) (hn : n ≠ 0) :
    powerDepth n = powerDepth (n / 2) + 1 := by
  have hdepth := powerDepth_add_one hn
  have hdepth' := powerDepth_add_one (n := n / 2) (by omega)
  rw [bitLength_eq_div_two hn, binaryOnes_of_even heven] at hdepth
  omega

theorem powerDepth_eq (n : ℕ) :
    powerDepth n = if n = 0 then 1 else bitLength n + binaryOnes n - 1 := by
  split
  · rename_i hn
    exact powerDepth_of_le_one (by omega)
  · rename_i hn
    have hdepth := powerDepth_add_one hn
    omega

theorem powerDepth_two_pow (k : ℕ) : powerDepth (2 ^ k) = k + 1 := by
  induction k with
  | zero => exact powerDepth_of_le_one (Nat.le_refl 1)
  | succ k ih =>
    have hhalf : 2 ^ (k + 1) / 2 = 2 ^ k := by omega
    rw [powerDepth_of_even (by omega) (by positivity), hhalf, ih]

/-- Adds the number one. -/
def one (g : Graph) : Extension g := g.push (.rational 1) (by simp [Op.operands])

/-- Adds the product of the node with itself. -/
def Extension.squared (x : Extension g) : Extension g :=
  x.followedBy (x.graph.binary .mul x.node x.node x.node_lt x.node_lt)

/-- Adds the product of the node with one that was there. -/
def Extension.times (x : Extension g) {base : ℕ} (h : base < g.size) : Extension g :=
  x.followedBy (x.graph.binary .mul x.node base x.node_lt (Nat.lt_of_lt_of_le h x.le_size))

section

variable (g : Graph) (base : ℕ) (h : base < g.size)

/-- `natPower` with room for so many calls inside each other. -/
def natPowerWithin : ℕ → ℕ → Option (Extension g)
  | 0, _ => none
  | room + 1, n =>
    if n = 0 then some g.one
    else if n = 1 then some (g.stay base h)
    else if n % 2 = 1 then (natPowerWithin room (n - 1)).map (·.times h)
    else (natPowerWithin room (n / 2)).map (·.squared)

/-- `power` with room for so many calls of `natPower` inside each other. -/
def powerWithin (room : ℕ) (n : ℤ) : Option (Extension g) :=
  (g.natPowerWithin base h room n.natAbs).map fun x =>
    if n < 0 then x.followedBy (x.graph.unary .inverse x.node x.node_lt) else x

variable {g base h}

theorem natPowerWithin_eq (room n : ℕ) :
    g.natPowerWithin base h room n =
      if powerDepth n ≤ room then some (g.natPower base h n) else none := by
  -- a call uses up as much room as its exponent's depth exceeds that of the call inside it
  induction room generalizing n with
  | zero =>
    have hpos := powerDepth_pos n
    rw [natPowerWithin, if_neg (by omega)]
  | succ room ih =>
    rw [natPowerWithin]
    fun_cases g.natPower base h n with
    | case1 hzero =>
      rw [if_pos hzero, powerDepth_of_le_one (by omega), if_pos (by omega)]
      rfl
    | case2 hzero hone =>
      rw [if_neg hzero, if_pos hone, powerDepth_of_le_one (by omega), if_pos (by omega)]
    | case3 hzero hone hodd x =>
      rw [if_neg hzero, if_neg hone, if_pos hodd, ih, Option.map_if, powerDepth_of_odd hodd hone]
      simp only [Nat.add_le_add_iff_right]
      rfl
    | case4 hzero hone heven x =>
      rw [if_neg hzero, if_neg hone, if_neg heven, ih, Option.map_if,
        powerDepth_of_even (by omega) hzero]
      simp only [Nat.add_le_add_iff_right]
      rfl

theorem powerWithin_eq (room : ℕ) (n : ℤ) :
    g.powerWithin base h room n =
      if powerDepth n.natAbs ≤ room then some (g.power base h n) else none := by
  rw [powerWithin, natPowerWithin_eq, Option.map_if]
  rfl

end

section

variable (base : ℕ) (h : base < g.size)

theorem added_natPower_zero : (g.natPower base h 0).added = [.rational 1] := by
  rw [natPower, if_pos rfl]
  exact added_push _ _

theorem countP_isProduct_natPower {n : ℕ} (hn : n ≠ 0) :
    (g.natPower base h n).added.countP Op.isProduct = (bitLength n - 1) + (binaryOnes n - 1) := by
  have hlength := length_added_natPower base h hn
  have hdigits := bitLength_pos hn
  have hones := binaryOnes_pos hn
  rw [List.countP_eq_length.2 (isProduct_of_mem_natPower base h hn)]
  omega

theorem countP_isInverse_natPower (n : ℕ) :
    (g.natPower base h n).added.countP Op.isInverse = 0 := by
  by_cases hn : n = 0
  · rw [hn, added_natPower_zero]
    rfl
  · rw [List.countP_eq_zero]
    intro op hop
    rw [Op.isInverse_eq_false (isProduct_of_mem_natPower base h hn op hop)]
    exact Bool.false_ne_true

theorem added_power (n : ℤ) :
    (g.power base h n).added = (g.natPower base h n.natAbs).added ++
      if n < 0 then [.inverse (g.natPower base h n.natAbs).node] else [] := by
  rw [power]
  split
  · exact Extension.added_followedBy_inverse _ _ _
  · rw [List.append_nil]

theorem power_one : g.power base h 1 = g.stay base h := by
  show g.natPower base h 1 = _
  rw [natPower]
  rfl

end

/-- The node of an extension is a power of a node that was there. Except for the zeroth power, which is
the number one, only products have been added, and an inverse if the exponent is negative. -/
structure Extension.IsPower (x : Extension g) (base : ℕ) (n : ℤ) : Prop where
  grows : g.Grows x.graph
  isDefined : x.graph.IsDefined x.node
  value : x.graph.value x.node = g.value base ^ n
  products : n ≠ 0 →
    x.added.countP Op.isProduct = (bitLength n.natAbs - 1) + (binaryOnes n.natAbs - 1)
  inverses : x.added.countP Op.isInverse = if n < 0 then 1 else 0
  others : n ≠ 0 → ∀ op ∈ x.added, op.isProduct = true ∨ op.isInverse = true
  one : n = 0 → x.added = [.rational 1]

theorem isPower_power {base : ℕ} (h : base < g.size) {n : ℤ} (hbase : g.IsDefined base)
    (hzero : n < 0 → g.value base ≠ 0) : (g.power base h n).IsPower base n where
  grows := (power_has base h n).grows
  isDefined := isRegular_zero.1 ((power_has base h n).isRegular 0 fun _ =>
    ⟨isRegular_zero.2 hbase, fun hn => ⟨hzero hn, abs_nonneg _⟩⟩)
  value := (power_has base h n).value
  products hn := by
    rw [added_power, List.countP_append, countP_isProduct_natPower base h (Int.natAbs_ne_zero.2 hn)]
    split <;> rfl
  inverses := by
    rw [added_power, List.countP_append, countP_isInverse_natPower]
    split <;> rfl
  others hn op hop := by
    rw [added_power] at hop
    rcases List.mem_append.1 hop with hop | hop
    · exact .inl (isProduct_of_mem_natPower base h (Int.natAbs_ne_zero.2 hn) op hop)
    · split at hop
      · rw [List.mem_singleton.1 hop]
        exact .inr rfl
      · cases hop
  one hn := by
    rw [added_power, hn, if_neg (lt_irrefl _), List.append_nil]
    exact added_natPower_zero base h

end Graph

namespace Draft

variable {d : Draft}

/-- Adds a power of the node. -/
def Continuation.power (x : Continuation d) (n : ℤ) : Continuation d :=
  x.andThen (x.draft.extend (x.draft.graph.power x.node x.node_lt n))

/-- An integer power of a formula is drawn as the power of its node, also the first, which adds
nothing. -/
theorem draw_intPower (t : Term) (n : ℤ) (d : Draft) : draw (t.intPower n) d = (draw t d).power n := by
  unfold Term.intPower
  split
  · rename_i hone
    rw [hone, Continuation.power, Graph.power_one]
    rfl
  · rfl

end Draft

end Reals

theorem Dual.power_of_unknown {limit n : ℤ} {x y : Dual} (room : ℕ)
    (hunknown : Exact.pow limit x.exact y.exact = .ok none) (hn : Exact.toInt? y.exact = some n) :
    x.power limit room y =
      if Reals.Graph.powerDepth n.natAbs ≤ room then .ok ⟨x.real.intPower n, none⟩
      else .error .nesting := by
  unfold power
  rw [hunknown, hn]
  by_cases hroom : Reals.Graph.powerDepth n.natAbs ≤ room
  · rw [if_pos hroom]
    exact if_neg (Nat.not_lt.2 hroom)
  · rw [if_neg hroom]
    exact if_pos (Nat.lt_of_not_le hroom)

/-- An integer power of a node of any graph, with room for so many calls inside each other. If that is
enough, it is returned and has the power of the node's number; if not, nothing is. An evaluation that
comes to an integer power hands on a formula that is drawn as this power, or fails for want of room.
Only the calls for powers are counted: where a product is made, inside the innermost of them, the
multiplication and the constructor of its node need up to two calls more. -/
theorem Reals.Graph.power_of_room {g : Graph} {base : ℕ} (h : base < g.size) (n : ℤ) (room : ℕ)
    (hbase : g.IsDefined base) (hzero : n < 0 → g.value base ≠ 0) :
    let depth := if n = 0 then 1 else bitLength n.natAbs + binaryOnes n.natAbs - 1
    g.powerWithin base h room n = (if depth ≤ room then some (g.power base h n) else none) ∧
      (g.power base h n).IsPower base n ∧
      ∀ (limit : ℤ) (x y : Dual), Exact.pow limit x.exact y.exact = .ok none →
        Exact.toInt? y.exact = some n →
        x.power limit room y =
            (if depth ≤ room then .ok ⟨x.real.intPower n, none⟩ else .error .nesting) ∧
          ∀ d : Draft, d.draw (x.real.intPower n) = (d.draw x.real).power n := by
  intro depth
  have hdepth : powerDepth n.natAbs = depth := by
    rw [powerDepth_eq]
    simp only [Int.natAbs_eq_zero, depth]
  refine ⟨?_, isPower_power h hbase hzero, fun limit x y hunknown hn => ⟨?_, fun d => ?_⟩⟩
  · rw [powerWithin_eq, hdepth]
  · rw [Dual.power_of_unknown room hunknown hn, hdepth]
  · exact Draft.draw_intPower x.real n d

/-- The power −6 of −π takes three products and an inverse, and four calls inside each other. -/
theorem Reals.Graph.power_of_room_negative :
    let x := empty.leaf .pi
    let y := x.followedBy (x.graph.unary .neg x.node x.node_lt)
    y.graph.IsDefined y.node ∧ y.graph.value y.node ≠ 0 ∧
      y.graph.powerWithin y.node y.node_lt 3 (-6) = none ∧
      ∃ z, y.graph.powerWithin y.node y.node_lt 4 (-6) = some z ∧
        z.graph.IsDefined z.node ∧ z.graph.value z.node = (-Real.pi) ^ (-6 : ℤ) ∧
        z.added.countP Op.isProduct = 3 ∧ z.added.countP Op.isInverse = 1 ∧
        (⟨.neg .pi, none⟩ : Dual).power 10000 4 (.ofRat (-6)) =
          .ok ⟨.power (.neg .pi) (-6), none⟩ := by
  intro x y
  have hx : x.Has Real.pi fun _ => True :=
    (push_has _ _).of_imp rfl fun _ _ => ⟨⟨trivial, trivial⟩, by simp [Op.operands]⟩
  have hy : y.Has (-Real.pi) fun _ => True := by
    apply hx.followedBy
    apply (push_has _ _).of_imp
    · exact congrArg _ hx.value
    · intro margin _
      exact ⟨⟨trivial, trivial⟩, by simpa [Op.operands] using hx.isRegular margin trivial⟩
  have hbase : y.graph.IsDefined y.node := isRegular_zero.1 (hy.isRegular 0 trivial)
  have hzero : y.graph.value y.node ≠ 0 := by
    rw [hy.value]
    exact neg_ne_zero.2 Real.pi_ne_zero
  obtain ⟨hnone, -⟩ := power_of_room y.node_lt (-6) 3 hbase fun _ => hzero
  obtain ⟨hsome, hpower, hevaluated⟩ := power_of_room y.node_lt (-6) 4 hbase fun _ => hzero
  refine ⟨hbase, hzero, hnone.trans (if_neg (by decide)), _, hsome.trans (if_pos (by decide)),
    hpower.isDefined, ?_, hpower.products (by decide), hpower.inverses, ?_⟩
  · rw [hpower.value, hy.value]
  · exact (hevaluated 10000 ⟨.neg .pi, none⟩ (.ofRat (-6)) rfl (by decide)).1.trans
      (if_pos (by decide))

open Reals (Recall)

namespace Grammar

variable {mode : Mode} {r r' : Rule} {ts mid rest : List Token} {s t : Tree} {x y : Dual} {n : ℤ}
  {limit : ℕ} {m m' m'' : Reals.Memory}

/-- A rule has not enough room here if rules nest to at most `limit`. -/
def RunsOut (mode : Mode) (r : Rule) (ts : List Token) (m : Reals.Memory) (limit : ℕ) : Prop :=
  ∀ depth ≤ limit, ∃ m', parse mode depth r ts m = (.error (.abort .nesting), m')

theorem RunsOut.around (h : RunsOut mode r ts m limit)
    (hphrase : ∀ depth m', parse mode depth r ts m = (.error (.abort .nesting), m') →
      phrase mode depth (parse mode depth) r' ts m = (.error (.abort .nesting), m')) :
    RunsOut mode r' ts m limit := by
  intro depth hdepth
  cases depth with
  | zero => exact ⟨m, rfl⟩
  | succ depth =>
    obtain ⟨m', h⟩ := h depth (Nat.le_of_succ_le hdepth)
    exact ⟨m', hphrase depth m' h⟩

theorem runsOut_power (hs : Derives (.rule .suffix) ts s (.operator (.binary .power) :: mid))
    (ht : Derives (.rule .signedFactor) mid t rest) (hend : (Part.rule .signedFactor).EndsAt rest)
    (hx : s.value mode m = (.ok x, m')) (hy : t.value mode m' = (.ok y, m''))
    (hunknown : Exact.pow mode.limit x.exact y.exact = .ok none)
    (hn : Exact.toInt? y.exact = some n) :
    RunsOut mode .factor ts m (Reals.Graph.powerDepth n.natAbs) := by
  intro depth hdepth
  -- where base or exponent is not read, that is for want of room too
  have hmeets : Meets False (parse mode depth .factor ts) (.ofExcept (.error .nesting)) rest m := by
    cases depth with
    | zero => exact .inr ⟨id, m, rfl⟩
    | succ depth =>
      have hpower : x.power mode.limit depth y = .error .nesting := by
        rw [Dual.power_of_unknown depth hunknown hn, if_neg (Nat.not_le.2 hdepth)]
      show Meets False (factor mode depth (parse mode depth) ts) _ _ _
      rw [factor_eq_raised]
      refine (hs.meets (Nat.le_refl 4) depth _ (Nat.le_refl _) m).start False.elim
        (f := raised mode depth (parse mode depth)) ?_
      refine (ht.meets hend depth _ (Nat.le_refl _) _).goOn False.elim
        (f := fun (v w : Dual) rest => conclude (.ofExcept (v.power mode.limit depth w)) rest)
        (.inr ⟨id, m'', ?_⟩)
      rw [Recall.bind_of_ok (Recall.mapError_eq_ok_iff.2 hx),
        Recall.bind_of_ok (Recall.mapError_eq_ok_iff.2 hy), hpower]
      rfl
  rcases hmeets with h | ⟨-, h⟩
  · exact ⟨m, h⟩
  · exact h

/-- A power whose exponent nests more deeply than anything may is too complex, whatever its base. -/
theorem evaluate_power_of_tooDeep
    (hs : Derives (.rule .suffix) ts s (.operator (.binary .power) :: mid))
    (ht : Derives (.rule .signedFactor) mid t []) (hx : s.value mode m = (.ok x, m'))
    (hy : t.value mode m' = (.ok y, m'')) (hunknown : Exact.pow mode.limit x.exact y.exact = .ok none)
    (hn : Exact.toInt? y.exact = some n) (hdeep : nestingLimit ≤ Reals.Graph.powerDepth n.natAbs) :
    (evaluate mode ts.length ts m).1 = .error (.arithmetic .tooComplex) := by
  have hsigned : RunsOut mode .signedFactor ts m (Reals.Graph.powerDepth n.natAbs) := by
    apply (runsOut_power hs ht (Nat.zero_le _) hx hy hunknown hn).around
    intro depth m' hfactor
    simp only [phrase, signedFactor, skipMinus_of_canStartFactor (hs.canStartFactor rfl)]
    exact hfactor
  have hterm : RunsOut mode .term ts m (Reals.Graph.powerDepth n.natAbs) :=
    hsigned.around fun depth m' hsigned => Recall.bind_of_error hsigned
  have hexpr : RunsOut mode .expr ts m (Reals.Graph.powerDepth n.natAbs) :=
    hterm.around fun depth m' hterm => Recall.bind_of_error hterm
  obtain ⟨m', hrun⟩ := hexpr nestingLimit hdeep
  refine (congrArg Prod.fst (evaluateWithin_length mode nestingLimit ts m)).trans ?_
  rw [hrun]
  rfl

end Grammar

/-- No power 2^2000 of π is returned: the calls for it are too many, and π^2^2000 is too complex. -/
theorem Arithmetic.evaluate_power_tooDeep :
    let x := Reals.Graph.empty.leaf .pi
    let e : Expression := [.operator (.constant .pi), .operator (.binary .power),
      .literal ⟨"2", false, ""⟩, .operator (.binary .power), .literal ⟨"2000", false, ""⟩]
    x.graph.IsDefined x.node ∧
      x.graph.powerWithin x.node x.node_lt Grammar.nestingLimit (2 ^ 2000) = none ∧
      (∀ m, (Arithmetic.evaluate ⟨10000, Elementary.kernel⟩ false true e m).1 =
        .error (.arithmetic .tooComplex)) ∧
      ArithmeticError.tooComplex.code = "3027" := by
  intro x e
  let mode : Grammar.Mode := ⟨false, 10000, Elementary.kernel⟩
  have hx : x.Has Real.pi fun _ => True :=
    (Reals.Graph.push_has _ _).of_imp rfl fun _ _ => ⟨⟨trivial, trivial⟩, by simp [Reals.Op.operands]⟩
  have hdeep : Grammar.nestingLimit < Reals.Graph.powerDepth (2 ^ 2000 : ℤ).natAbs := by
    have hdepth (k : ℕ) : Reals.Graph.powerDepth (2 ^ k : ℤ).natAbs = k + 1 := by
      rw [Int.natAbs_pow]
      exact Reals.Graph.powerDepth_two_pow k
    rw [hdepth]
    decide
  refine ⟨Reals.Graph.isRegular_zero.1 (hx.isRegular 0 trivial), ?_, ?_, rfl⟩
  · rw [Reals.Graph.powerWithin_eq, if_neg (Nat.not_le.2 hdeep)]
  · have hpower : Grammar.Derives (.rule .signedFactor)
        [.literal ⟨"2", false, ""⟩, .operator (.binary .power), .literal ⟨"2000", false, ""⟩]
        (.power (.number ⟨"2", false, ""⟩) (.number ⟨"2000", false, ""⟩)) [] :=
      .signedFactor (.power (.suffix .number .suffixesDone)
        (.signedFactor (.factor (.suffix .number .suffixesDone))))
    have hvalue : (Grammar.Tree.power (.number ⟨"2", false, ""⟩)
        (.number ⟨"2000", false, ""⟩)).value mode = return .ofRat (2 ^ 2000) := by
      have htwo : Grammar.literalValue ⟨"2", false, ""⟩ = .ok (.ofRat 2) := by decide +kernel
      have hthousands : Grammar.literalValue ⟨"2000", false, ""⟩ = .ok (.ofRat 2000) := by
        decide +kernel
      have hpower : (Dual.ofRat 2).raise 10000 (.ofRat 2000) = .ok (.ofRat (2 ^ 2000)) := by
        decide +kernel
      simp only [Grammar.Tree.value, htwo, hthousands, Except.mapError, Reals.Recall.ofExcept_ok,
        pure_bind, mode, hpower]
    intro m
    have hpi : (Grammar.Tree.constant .pi).value mode m = (.ok ⟨.pi, none⟩, m) := rfl
    exact Grammar.evaluate_power_of_tooDeep (.suffix .constant .suffixesDone) hpower hpi
      (congrFun hvalue m) rfl (by decide +kernel) (Nat.le_of_lt hdeep)

end Reckoner
