import Reckoner.Proofs.Denotation
import Reckoner.Proofs.NodeValue
/-!
Drawing a formula. Its node has the number that the formula denotes, although a kept number is drawn once
and a power by repeated squaring (`draw_draws`): nodes that are added change nothing of those that are
there.
-/
namespace Reckoner.Reals

namespace Graph

variable {g g' g'' : Graph} {margin : ℝ} {n : ℕ}

/-- `g'` has every node of `g`. -/
def Grows (g g' : Graph) : Prop := ∀ (n : ℕ) op, g.ops[n]? = some op → g'.ops[n]? = some op

namespace Grows

theorem refl (g : Graph) : g.Grows g := fun _ _ h => h

theorem trans (h : g.Grows g') (h' : g'.Grows g'') : g.Grows g'' :=
  fun n op hop => h' n op (h n op hop)

theorem push (g : Graph) (op : Op ℕ) (h : ∀ c ∈ op.operands, c < g.size) :
    g.Grows (g.push op h).graph := by
  intro n op' hop
  obtain ⟨hn, rfl⟩ := Array.getElem?_eq_some_iff.1 hop
  show (g.ops.push op)[n]? = some g.ops[n]
  rw [Array.getElem?_push_lt hn]

theorem getElem (h : g.Grows g') (hn : n < g.ops.size) :
    ∃ hn' : n < g'.ops.size, g'.ops[n] = g.ops[n] :=
  Array.getElem?_eq_some_iff.1 (h n _ (Array.getElem?_eq_getElem hn))

theorem lt_size (h : g.Grows g') (hn : n < g.size) : n < g'.size := (h.getElem hn).1

theorem value (h : g.Grows g') (hn : n < g.size) : g'.value n = g.value n := by
  induction n using Nat.strong_induction_on with
  | _ n ih =>
    obtain ⟨hn', hop⟩ := h.getElem hn
    rw [value_of_lt hn', value_of_lt hn, hop]
    apply Op.value_congr
    intro i hi
    have hlt := g.ordered n hn i hi
    exact ih i hlt (Nat.lt_trans hlt hn)

theorem isRegular (h : g.Grows g') (hn : n < g.size) :
    g'.IsRegular margin n ↔ g.IsRegular margin n := by
  induction n using Nat.strong_induction_on with
  | _ n ih =>
    obtain ⟨hn', hop⟩ := h.getElem hn
    have hbelow : ∀ i ∈ (g.ops[n]).operands, i < n := g.ordered n hn
    rw [isRegular_iff hn', isRegular_iff hn, hop,
      Op.isRegular_congr fun i hi => h.value (Nat.lt_trans (hbelow i hi) hn)]
    apply and_congr_right'
    apply forall₂_congr
    intro i hi
    exact ih i (hbelow i hi) (Nat.lt_trans (hbelow i hi) hn)

theorem isDefined (h : g.Grows g') (hn : n < g.size) : g'.IsDefined n ↔ g.IsDefined n := by
  rw [← isRegular_zero, ← isRegular_zero, h.isRegular hn]

/-- A graph has no fewer nodes than one that it has all nodes of. -/
theorem size_le (h : g.Grows g') : g.size ≤ g'.size := by
  by_contra hlt
  have hlast := h.lt_size (Nat.lt_of_not_le hlt)
  exact Nat.lt_irrefl _ hlast

end Grows

/-- The node of an extension has the value `r`, and is regular with a margin under the condition `p`. -/
structure Extension.Has (x : Extension g) (r : ℝ) (p : ℝ → Prop) : Prop where
  grows : g.Grows x.graph
  value : x.graph.value x.node = r
  isRegular : ∀ margin, p margin → x.graph.IsRegular margin x.node

theorem push_has (op : Op ℕ) (h : ∀ c ∈ op.operands, c < g.size) :
    (g.push op h).Has (op.value g.value) fun margin =>
      op.IsRegular margin g.value ∧ ∀ i ∈ op.operands, g.IsRegular margin i := by
  have hgrows := Grows.push g op h
  have hsize : g.size < (g.push op h).graph.ops.size := (g.push op h).node_lt
  have hop : (g.push op h).graph.ops[g.size] = op := Array.getElem_push_eq
  have hvalue : ∀ i ∈ op.operands, (g.push op h).graph.value i = g.value i :=
    fun i hi => hgrows.value (h i hi)
  constructor
  · exact hgrows
  · show (g.push op h).graph.value g.size = op.value g.value
    rw [value_of_lt hsize, hop]
    exact Op.value_congr hvalue
  · rintro margin ⟨hregular, hoperands⟩
    show (g.push op h).graph.IsRegular margin g.size
    rw [isRegular_iff hsize, hop]
    constructor
    · exact (Op.isRegular_congr hvalue).2 hregular
    · intro i hi
      exact (hgrows.isRegular (h i hi)).2 (hoperands i hi)

variable {r s : ℝ} {p q : ℝ → Prop}

theorem Extension.Has.followedBy {x : Extension g} (hx : x.Has r p) {y : Extension x.graph}
    (hy : y.Has s q) : (x.followedBy y).Has s q :=
  ⟨hx.grows.trans hy.grows, hy.value, hy.isRegular⟩

theorem Extension.Has.of_imp {x : Extension g} (hx : x.Has r p) (hr : r = s)
    (hp : ∀ margin, q margin → p margin) : x.Has s q :=
  ⟨hx.grows, hx.value.trans hr, fun margin hq => hx.isRegular margin (hp margin hq)⟩

theorem stay_has (hn : n < g.size) : (g.stay n hn).Has (g.value n) fun margin => g.IsRegular margin n :=
  ⟨.refl g, rfl, fun _ => id⟩

theorem push_mul_has {i j : ℕ} (h : ∀ c ∈ (Op.mul i j).operands, c < g.size) :
    (g.push (.mul i j) h).Has (g.value i * g.value j) fun margin =>
      g.IsRegular margin i ∧ g.IsRegular margin j := by
  apply (push_has _ h).of_imp rfl
  rintro margin ⟨hi, hj⟩
  simp [Op.IsRegular, Op.IsDefined, Op.operands, hi, hj]

/-- Each product is of powers that are drawn before it. -/
theorem natPower_has (base : ℕ) (h : base < g.size) (n : ℕ) :
    (g.natPower base h n).Has (g.value base ^ n) fun margin => n ≠ 0 → g.IsRegular margin base := by
  fun_induction g.natPower base h n with
  | case1 =>
    apply (push_has _ _).of_imp
    · simp [Op.value]
    · simp [Op.IsRegular, Op.IsDefined, Op.operands]
  | case2 =>
    apply (stay_has h).of_imp
    · rw [pow_one]
    · exact fun margin hbase => hbase one_ne_zero
  | case3 n hzero hone hodd x ih =>
    have hx : x.Has (g.value base ^ (n - 1)) fun margin => n - 1 ≠ 0 → g.IsRegular margin base := ih
    apply hx.followedBy
    apply (push_mul_has _).of_imp
    · rw [hx.value, hx.grows.value h, ← pow_succ]
      congr 1
      omega
    · intro margin hbase
      have hregular := hbase hzero
      exact ⟨hx.isRegular margin fun _ => hregular, (hx.grows.isRegular h).2 hregular⟩
  | case4 n hzero hone heven x ih =>
    have hx : x.Has (g.value base ^ (n / 2)) fun margin => n / 2 ≠ 0 → g.IsRegular margin base := ih
    apply hx.followedBy
    apply (push_mul_has _).of_imp
    · rw [hx.value, ← pow_add]
      congr 1
      omega
    · intro margin hbase
      have hregular := hx.isRegular margin fun _ => hbase hzero
      exact ⟨hregular, hregular⟩

theorem power_has (base : ℕ) (h : base < g.size) (n : ℤ) :
    (g.power base h n).Has (g.value base ^ n) fun margin => n ≠ 0 →
      g.IsRegular margin base ∧
        (n < 0 → g.value base ≠ 0 ∧ margin ≤ |g.value base ^ n.natAbs|) := by
  have hx := natPower_has base h n.natAbs
  rw [power]
  by_cases hneg : n < 0
  · rw [if_pos hneg]
    apply hx.followedBy
    apply (push_has _ _).of_imp
    · show (_ : ℝ)⁻¹ = _
      rw [hx.value, ← zpow_natCast, ← zpow_neg]
      congr 1
      omega
    · intro margin hbase
      obtain ⟨hregular, hpole⟩ := hbase (by omega)
      obtain ⟨hne, hmargin⟩ := hpole hneg
      simp only [Op.IsRegular, Op.IsDefined, Op.operands, List.mem_singleton, forall_eq]
      rw [hx.value]
      exact ⟨⟨pow_ne_zero _ hne, hmargin⟩, hx.isRegular margin fun _ => hregular⟩
  · rw [if_neg hneg]
    apply hx.of_imp
    · rw [← zpow_natCast]
      congr 1
      omega
    · intro margin hbase hn
      exact (hbase (by omega)).1

/-- A node has the number of a formula. -/
structure Shows (g : Graph) (n : ℕ) (t : Term) : Prop where
  lt_size : n < g.size
  value : g.value n = t.value
  isRegular : ∀ margin, t.IsRegular margin → g.IsRegular margin n

namespace Shows

variable {t : Term}

theorem grow (h : g.Shows n t) (hg : g.Grows g') : g'.Shows n t where
  lt_size := hg.lt_size h.lt_size
  value := (hg.value h.lt_size).trans h.value
  isRegular margin ht := (hg.isRegular h.lt_size).2 (h.isRegular margin ht)

theorem isDefined (h : g.Shows n t) (ht : t.IsDefined) : g.IsDefined n :=
  isRegular_zero.1 (h.isRegular 0 (Term.isRegular_zero.2 ht))

end Shows

end Graph

/-- The number that an identity stands for, given those of the names. -/
def Identity.term (names : ℕ → Term) : Identity → Term
  | .pi => .pi
  | .e => .e
  | .radiansPerDegree => Term.div .pi (.rational 180)
  | .degreesPerRadian => Term.div (.rational 180) .pi
  | .lnTen => .ln (.rational 10)
  | .hundredth => .inverse (.rational 100)
  | .name n => names n

/-- Whether one identity stands for one number throughout. -/
def Term.Consistent (names : ℕ → Term) : Term → Prop
  | .rational _ | .pi | .e => True
  | .add a b | .sub a b | .mul a b => a.Consistent names ∧ b.Consistent names
  | .neg a | .inverse a | .sqrt a | .ln a | .exp a | .sin a | .cos a | .tan a | .arcsin a
  | .arccos a | .arctan a | .square a | .power a _ => a.Consistent names
  | .named i a => i.term names = a ∧ a.Consistent names

namespace Draft

variable {names : ℕ → Term} {d : Draft} {t u v : Term}

/-- Every kept node has the number of its identity. -/
def Sound (names : ℕ → Term) (d : Draft) : Prop :=
  ∀ identity node, (identity, node) ∈ d.kept → d.graph.Shows node (identity.term names)

theorem sound_empty (names : ℕ → Term) : empty.Sound names := by
  intro identity node h
  cases h

namespace Continuation

/-- A continuation has drawn a formula. -/
structure Draws (names : ℕ → Term) (x : Continuation d) (t : Term) : Prop where
  grows : d.graph.Grows x.draft.graph
  sound : x.draft.Sound names
  shows : x.draft.graph.Shows x.node t

variable {x : Continuation d}

theorem Draws.congr (hx : x.Draws names t) (hvalue : t.value = u.value)
    (hregular : ∀ margin, u.IsRegular margin → t.IsRegular margin) : x.Draws names u :=
  ⟨hx.grows, hx.sound, hx.shows.lt_size, hx.shows.value.trans hvalue,
    fun margin hu => hx.shows.isRegular margin (hregular margin hu)⟩

theorem Draws.andThen (hx : x.Draws names t) {y : Continuation x.draft} (hy : y.Draws names u) :
    (x.andThen y).Draws names u :=
  ⟨hx.grows.trans hy.grows, hy.sound, hy.shows⟩

theorem Draws.keep {identity : Identity} (hx : x.Draws names (identity.term names)) :
    (x.keep identity).Draws names (identity.term names) := by
  refine ⟨hx.grows, fun identity' node h => ?_, hx.shows⟩
  rcases List.mem_cons.1 h with h | h
  · cases h
    exact hx.shows
  · exact hx.sound identity' node h

end Continuation

open Continuation (Draws)

theorem extend_draws (hd : d.Sound names) {y : Graph.Extension d.graph} {r : ℝ} {p : ℝ → Prop}
    (hy : y.Has r p) (hr : r = t.value) (hp : ∀ margin, t.IsRegular margin → p margin) :
    (d.extend y).Draws names t where
  grows := hy.grows
  sound identity node h := (hd identity node h).grow hy.grows
  shows := ⟨y.node_lt, hy.value.trans hr, fun margin ht => hy.isRegular margin (hp margin ht)⟩

theorem reuse_draws (hd : d.Sound names) (identity : Identity) {make : Unit → Continuation d}
    (hmake : (make ()).Draws names (identity.term names)) :
    (d.reuse identity make).Draws names (identity.term names) := by
  unfold reuse
  split
  · rename_i node hkept
    split
    · obtain ⟨l, r, hl, -⟩ := List.lookup_eq_some_iff.1 hkept
      exact ⟨.refl _, hd, hd identity node (by rw [hl]; simp)⟩
    · exact hmake.keep
  · exact hmake.keep

section

variable {x : Continuation d} (hx : x.Draws names t)

include hx

theorem Continuation.Draws.unary {op : ℕ → Op ℕ} {hop : (op x.node).operands = [x.node]}
    (hvalue : ∀ r : ℕ → ℝ, r x.node = t.value → (op x.node).value r = u.value)
    (hregular : ∀ (margin : ℝ) (r : ℕ → ℝ), r x.node = t.value → u.IsRegular margin →
      t.IsRegular margin ∧ (op x.node).IsRegular margin r) :
    (x.unary op hop).Draws names u := by
  apply hx.andThen
  apply extend_draws hx.sound (Graph.push_has _ _)
  · exact hvalue _ hx.shows.value
  · intro margin hu
    obtain ⟨ht, hr⟩ := hregular margin _ hx.shows.value hu
    rw [hop]
    simpa using ⟨hr, hx.shows.isRegular margin ht⟩

theorem Continuation.Draws.binary {op : ℕ → ℕ → Op ℕ} {y : Continuation x.draft}
    (hy : y.Draws names u) {hop : (op x.node y.node).operands = [x.node, y.node]}
    (hvalue : ∀ r : ℕ → ℝ, r x.node = t.value → r y.node = u.value →
      (op x.node y.node).value r = v.value)
    (hregular : ∀ (margin : ℝ) (r : ℕ → ℝ), v.IsRegular margin →
      t.IsRegular margin ∧ u.IsRegular margin ∧ (op x.node y.node).IsRegular margin r) :
    (x.binary op y hop).Draws names v := by
  have hx' := hx.shows.grow hy.grows
  apply (hx.andThen hy).andThen
  apply extend_draws hy.sound (Graph.push_has _ _)
  · exact hvalue _ hx'.value hy.shows.value
  · intro margin hv
    obtain ⟨ht, hu, hr⟩ := hregular margin y.draft.graph.value hv
    rw [hop]
    simpa using ⟨hr, hx'.isRegular margin ht, hy.shows.isRegular margin hu⟩

end

theorem draw_draws (ht : t.Consistent names) (hd : d.Sound names) : (draw t d).Draws names t := by
  induction t generalizing d with
  | rational q =>
    apply extend_draws hd (Graph.push_has _ _) rfl
    simp [Op.IsRegular, Op.IsDefined, Op.operands]
  | pi =>
    apply reuse_draws hd .pi
    apply extend_draws hd (Graph.push_has _ _) rfl
    simp [Op.IsRegular, Op.IsDefined, Op.operands]
  | e =>
    apply reuse_draws hd .e
    apply extend_draws hd (Graph.push_has _ _) rfl
    simp [Op.IsRegular, Op.IsDefined, Op.operands]
  | add a b iha ihb | sub a b iha ihb | mul a b iha ihb =>
    have hx := iha ht.1 hd
    apply hx.binary (ihb ht.2 hx.sound)
    · intro r ha hb
      simp [Op.value, Term.value, ha, hb]
    · intro margin r h
      exact ⟨h.1, h.2, trivial, trivial⟩
  | neg a ih | exp a ih | sin a ih | cos a ih | arctan a ih =>
    apply (ih ht hd).unary
    · intro r ha
      simp [Op.value, Term.value, ha]
    · intro margin r _ h
      exact ⟨h, trivial, trivial⟩
  | inverse a ih | sqrt a ih | ln a ih | arcsin a ih | arccos a ih =>
    apply (ih ht hd).unary
    · intro r ha
      simp [Op.value, Term.value, ha]
    · intro margin r ha h
      simpa [Op.IsRegular, Op.IsDefined, Term.IsRegular, ha] using h
  | tan a ih =>
    have hx := ih ht hd
    have hs : ((draw a d).unary .sin).Draws names (.sin a) := by
      apply hx.unary
      · intro r ha
        simp [Op.value, Term.value, ha]
      · intro margin r _ h
        exact ⟨h, trivial, trivial⟩
    -- the cosine is of the node that the sine was drawn from
    have ha := hx.shows.grow (Graph.Grows.push _ (.sin (draw a d).node) (by
      simpa [Op.operands] using (draw a d).node_lt))
    apply hs.binary (u := .inverse (.cos a))
    · apply Draws.unary (t := .cos a)
      · apply extend_draws hs.sound (Graph.push_has _ _)
        · exact congrArg Real.cos ha.value
        · intro margin h
          refine ⟨⟨trivial, trivial⟩, fun i hi => ?_⟩
          rw [List.mem_singleton.1 hi]
          exact ha.isRegular margin h
      · intro r hr
        simp [Op.value, Term.value, hr]
      · intro margin r hr h
        refine ⟨h.1, fun hzero => h.2.1 (hr.symm.trans hzero), ?_⟩
        exact h.2.2.trans_eq (congrArg abs hr.symm)
    · intro r hsin hcos
      simp [Op.value, hsin, hcos, Term.value, Real.tan_eq_sin_div_cos, div_eq_mul_inv]
    · intro margin r h
      exact ⟨h.1, h, trivial, trivial⟩
  | square a ih =>
    have hx := ih ht hd
    apply hx.andThen
    apply extend_draws hx.sound (Graph.push_has _ _)
    · simp [Op.value, Term.value, hx.shows.value]
    · intro margin h
      simpa [Op.IsRegular, Op.IsDefined, Op.operands] using hx.shows.isRegular margin h
  | power a n ih =>
    have hx := ih ht hd
    apply hx.andThen
    apply extend_draws hx.sound (Graph.power_has _ _ _)
    · rw [hx.shows.value]
      rfl
    · intro margin h hn
      obtain ⟨ha, hpole⟩ := h hn
      rw [hx.shows.value]
      exact ⟨hx.shows.isRegular margin ha, hpole⟩
  | named i a ih =>
    obtain ⟨rfl, ha⟩ := ht
    exact (reuse_draws hd i (ih ha hd)).congr rfl fun _ => id

end Draft

end Reckoner.Reals
