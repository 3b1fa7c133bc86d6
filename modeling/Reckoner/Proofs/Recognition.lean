import Reckoner.Proofs.TreeValue
/-!
Phrases are read as they are derived. Where a phrase can end before the token ahead, its rule reads it
to its end and fails only if its value does, or if rules nest deeper than there is room for
(`Derives.meets`).
-/
namespace Reckoner.Grammar

open Reals

/-- A value and the tokens after it, or its failure. -/
def conclude (x : Recall Failure Dual) (rest : List Token) : Outcome := do
  return ⟨← x.mapError .abort, rest⟩

/-- The outcome at a memory where a phrase has the value `x`: just that if there is enough room, and else
that or none for want of room. -/
def Meets (enough : Prop) (o : Outcome) (x : Recall Failure Dual) (rest : List Token) (m : Memory) :
    Prop :=
  o m = conclude x rest m ∨ ¬ enough ∧ ∃ m', o m = (.error (.abort .nesting), m')

theorem conclude_bind {α : Type} (x : Recall Failure α) (f : α → Recall Failure Dual)
    (rest : List Token) :
    conclude (x >>= f) rest = x.mapError .abort >>= fun v => conclude (f v) rest := by
  simp only [conclude, Recall.mapError_bind, bind_assoc]

namespace Meets

variable {enough enough' : Prop} {o : Outcome} {x : Recall Failure Dual} {mid rest : List Token}
  {m : Memory}

theorem of_eq (h : o = conclude x rest) : Meets enough o x rest m := .inl (congrFun h m)

theorem mono (h : Meets enough o x rest m) (hle : enough' → enough) : Meets enough' o x rest m := by
  rcases h with h | ⟨hroom, h⟩
  · exact .inl h
  · exact .inr ⟨fun h' => hroom (hle h'), h⟩

/-- Goes on after a phrase inside, with what is known before it. -/
theorem goOn {α : Type} {b : Recall Failure α} {f : α → Dual → List Token → Outcome}
    {y : Recall Failure Dual} (h : Meets enough o y mid (b m).2) (hle : enough' → enough)
    (hf : Meets enough' (do f (← b.mapError .abort) (← y.mapError .abort) mid) x rest m) :
    Meets enough' (do
      let v ← b.mapError .abort
      let w ← o
      f v w.value w.rest) x rest m := by
  unfold Meets at hf ⊢
  rcases hb : b m with ⟨e | v, m'⟩
  · have hfailed := Recall.mapError_eq_error_iff (f := Stop.abort).2 ⟨e, hb, rfl⟩
    rw [Recall.bind_of_error hfailed] at hf ⊢
    exact hf
  · rw [Recall.bind_of_ok (Recall.mapError_eq_ok_iff.2 hb)] at hf ⊢
    rw [hb] at h
    rcases h with h | ⟨hroom, m'', h⟩
    · rcases hy : y m' with ⟨e | w, m''⟩
      · have hfailed := Recall.mapError_eq_error_iff (f := Stop.abort).2 ⟨e, hy, rfl⟩
        rw [Recall.bind_of_error hfailed] at hf
        rw [Recall.bind_of_error (h.trans (Recall.bind_of_error hfailed))]
        exact hf
      · have hread := Recall.mapError_eq_ok_iff (f := Stop.abort).2 hy
        rw [Recall.bind_of_ok hread] at hf
        rw [Recall.bind_of_ok (h.trans (Recall.bind_of_ok hread))]
        exact hf
    · exact .inr ⟨fun h' => hroom (hle h'), m'', Recall.bind_of_error h⟩

/-- Goes on with the next operand of a repetition, whose value so far is then `f` of both. -/
theorem more {b y z : Recall Failure Dual} {f : Dual → Dual → Except Failure Dual}
    {loop : Dual → List Token → Outcome} (h : Meets enough o y mid (b m).2) (hle : enough' → enough)
    (hz : z = (do .ofExcept (f (← b) (← y))))
    (hrest : Meets enough' (do loop (← z.mapError .abort) mid) x rest m) :
    Meets enough' (do
      let v ← b.mapError .abort
      let w ← o
      loop (← orAbort (f v w.value)) w.rest) x rest m := by
  refine h.goOn (f := fun v w rest => do loop (← orAbort (f v w)) rest) hle ?_
  rw [hz] at hrest
  simpa only [Recall.mapError_bind, Recall.mapError_ofExcept, orAbort, bind_assoc] using hrest

/-- Goes on after the first phrase inside. -/
theorem start {f : Dual → List Token → Outcome} {y : Recall Failure Dual}
    (h : Meets enough o y mid m) (hle : enough' → enough)
    (hf : Meets enough' (do f (← y.mapError .abort) mid) x rest m) :
    Meets enough' (do
      let w ← o
      f w.value w.rest) x rest m :=
  h.goOn (b := pure ()) (f := fun _ => f) hle hf

end Meets

variable {mode : Mode} {depth count : Nat} {r : Rule} {p : Part} {ts mid rest : List Token}
  {x y t : Tree} {m : Memory}

/-- Reads a part where rules nest to at most `depth`, the rest of a repetition with the function that
reads it. -/
def Part.run (mode : Mode) (depth count : Nat) : Part → List Token → Outcome
  | .rule r, ts => parse mode depth r ts
  | .suffixes x, ts => do Grammar.suffixes mode (← (x.value mode).mapError .abort) ts
  | .products x, ts => do
    Grammar.products mode (parse mode depth) count (← (x.value mode).mapError .abort) ts
  | .sums x, ts => do
    Grammar.sums mode (parse mode depth) count (← (x.value mode).mapError .abort) ts

/-- How much deeper than a part the rule of sums stands. A repetition reads with the depth of what is
inside its rule. -/
def Part.above : Part → Nat
  | .rule r => r.level
  | .suffixes _ => Rule.suffix.level + 1
  | .products _ => Rule.term.level + 1
  | .sums _ => Rule.expr.level + 1

/-- The room for what has been read of a part. -/
def Part.room (mode : Mode) (m : Memory) : Part → Nat
  | .rule _ => 0
  | .suffixes x | .products x | .sums x => x.room mode m

theorem Derives.room_le (h : Derives p ts t rest) : p.room mode m ≤ t.room mode m := by
  induction h with
  | suffixesDone | productsDone | sumsDone => exact Nat.le_refl _
  | suffixesMore h ih => exact ih
  | times h h' ih ih' | dividedBy h h' ih ih' | beside h h' ih ih' | plus h h' ih ih'
  | minus h h' ih ih' => exact Nat.le_trans (Nat.le_max_left _ _) ih'
  | _ => exact Nat.zero_le _

/-- The room for the next operand of a repetition. -/
theorem room_of_max_le {a b c limit : Nat} (h : max a b ≤ c) (hc : c ≤ limit) : b ≤ limit :=
  Nat.le_trans (Nat.le_max_right a b) (Nat.le_trans h hc)

theorem skipMinus_of_canStartFactor (h : canStartFactor ts = true) :
    skipMinus ts = (false, ts) := by
  fun_cases skipMinus ts with
  | case1 rest => cases h
  | case2 => rfl

theorem Closes.skipClosing_eq {closed : Bool} (h : Closes mid closed rest) :
    skipClosing mid = rest := by
  cases h <;> rfl

theorem after?_power_eq_none (h : tightness ts ≤ 3) : after? (.binary .power) ts = none := by
  cases hafter : after? (.binary .power) ts with
  | none => rfl
  | some rest =>
    rw [after?_eq_some_iff.1 hafter] at h
    exact absurd h (Nat.not_succ_le_self 3)

theorem Meets.phrase
    (h : ∀ depth, Meets (t.room mode m ≤ depth + 1 + r.level)
      (phrase mode depth (parse mode depth) r ts) (t.value mode) rest m) (depth : Nat) :
    Meets (t.room mode m ≤ depth + r.level) (parse mode depth r ts) (t.value mode) rest m := by
  cases depth with
  | zero =>
    refine .inr ⟨fun hroom => ?_, m, rfl⟩
    have hsix := t.six_le_room mode m
    have hlevel : r.level ≤ 5 := by cases r <;> decide
    omega
  | succ depth => exact h depth

/-- A factor is read by the rule for factors with a sign too. -/
theorem Meets.signedFactor (hstart : canStartFactor ts = true)
    (h : ∀ depth, Meets (t.room mode m ≤ depth + Rule.factor.level) (parse mode depth .factor ts)
      (t.value mode) rest m) (depth : Nat) :
    Meets (t.room mode m ≤ depth + Rule.signedFactor.level) (parse mode depth .signedFactor ts)
      (t.value mode) rest m := by
  apply Meets.phrase (r := .signedFactor)
  intro depth
  have hread : Grammar.phrase mode depth (parse mode depth) .signedFactor ts =
      parse mode depth .factor ts := by
    simp only [Grammar.phrase, Grammar.signedFactor, skipMinus_of_canStartFactor hstart]
  rw [hread]
  exact (h depth).mono (fun hroom => Nat.le_trans hroom (by simp only [Rule.level]; omega))

/-- Reads the exponent of a base that has one. -/
def raised (mode : Mode) (depth : Nat) (sub : Rule → List Token → Outcome) (x : Dual)
    (rest : List Token) : Outcome :=
  match after? (.binary .power) rest with
  | some rest => do
    let exponent ← sub .signedFactor rest
    conclude (.ofExcept (x.power mode.limit depth exponent.value)) exponent.rest
  | none => return ⟨x, rest⟩

theorem raised_power (sub : Rule → List Token → Outcome) (x : Dual) (rest : List Token) :
    raised mode depth sub x (.operator (.binary .power) :: rest) = (do
      let exponent ← sub .signedFactor rest
      conclude (.ofExcept (x.power mode.limit depth exponent.value)) exponent.rest) :=
  rfl

theorem factor_eq_raised (sub : Rule → List Token → Outcome) (ts : List Token) :
    factor mode depth sub ts = (do
      let base ← sub .suffix ts
      raised mode depth sub base.value base.rest) :=
  factor_eq mode depth sub ts

theorem meets_power (s t : Tree) (rest : List Token) (m : Memory) :
    Meets ((Tree.power s t).room mode m ≤ depth + 1 + Rule.factor.level) (do
      let v ← (s.value mode).mapError .abort
      let w ← (t.value mode).mapError .abort
      conclude (.ofExcept (v.power mode.limit depth w)) rest) ((Tree.power s t).value mode) rest m := by
  unfold Meets
  rw [Tree.value, Tree.room, conclude_bind]
  rcases hs : s.value mode m with ⟨e | v, m'⟩
  · have hfailed := Recall.mapError_eq_error_iff (f := Stop.abort).2 ⟨e, hs, rfl⟩
    exact .inl ((Recall.bind_of_error hfailed).trans (Recall.bind_of_error hfailed).symm)
  · have hread := Recall.mapError_eq_ok_iff (f := Stop.abort).2 hs
    have hafter : s.after mode m = m' := congrArg Prod.snd hs
    rw [Recall.bind_of_ok hread, Recall.bind_of_ok hread, hafter, conclude_bind]
    rcases ht : t.value mode m' with ⟨e | w, m''⟩
    · have hfailed := Recall.mapError_eq_error_iff (f := Stop.abort).2 ⟨e, ht, rfl⟩
      exact .inl ((Recall.bind_of_error hfailed).trans (Recall.bind_of_error hfailed).symm)
    · have hread := Recall.mapError_eq_ok_iff (f := Stop.abort).2 ht
      rw [Recall.bind_of_ok hread, Recall.bind_of_ok hread]
      rcases v.power_eq mode.limit depth w with heq | ⟨hdepth, heq⟩
      · exact .inl (by rw [heq])
      · refine .inr ⟨fun hroom => ?_, m'', by rw [heq]; rfl⟩
        simp only [Rule.level] at hroom
        omega

section

variable (sub : Rule → List Token → Outcome) (v : Dual)

theorem suffixes_done (h : tightness ts ≤ 4) : suffixes mode v ts = pure ⟨v, ts⟩ := by
  fun_cases suffixes mode v ts with
  | case1 op rest => exact absurd h (Nat.not_succ_le_self 4)
  | case2 => rfl

theorem products_done (h : tightness ts ≤ 1) : products mode sub count v ts = pure ⟨v, ts⟩ := by
  fun_cases products mode sub count v ts with
  | case3 _ _ _ _ hkey | case4 _ _ _ _ _ hkey =>
    rw [isKey_iff.1 hkey] at h
    exact absurd h (Nat.not_succ_le_self 1)
  | case5 _ _ _ _ _ _ hstart =>
    rw [tightness_of_canStartFactor hstart] at h
    exact absurd h (Nat.not_succ_le_self 1)
  | _ => rfl

theorem products_beside (h : canStartFactor ts = true) :
    products mode sub (count + 1) v ts = (do
      let y ← sub .signedFactor ts
      products mode sub count (v.mul mode.limit y.value) y.rest) := by
  cases ts with
  | nil => cases h
  | cons a ts =>
    have htimes : ¬ a.isKey (.binary .times) := by
      intro hkey
      rw [isKey_iff.1 hkey] at h
      cases h
    have hover : ¬ a.isKey (.binary .over) := by
      intro hkey
      rw [isKey_iff.1 hkey] at h
      cases h
    rw [products, if_neg htimes, if_neg hover, if_pos h]

theorem sums_done (h : tightness ts ≤ 0) : sums mode sub count v ts = pure ⟨v, ts⟩ := by
  fun_cases sums mode sub count v ts with
  | case3 _ _ _ _ hkey | case4 _ _ _ _ _ hkey =>
    rw [isKey_iff.1 hkey] at h
    exact absurd h (Nat.not_succ_le_self 0)
  | _ => rfl

end

/-- A part that can end here is read to its end. -/
theorem Derives.meets (h : Derives p ts t rest) (hend : p.EndsAt rest) (depth count : Nat)
    (hcount : ts.length ≤ count) (m : Memory) :
    Meets (t.room mode m ≤ depth + p.above) (p.run mode depth count ts) (t.value mode) rest m := by
  induction h generalizing depth count m with
  | number => exact Meets.phrase (r := .unary) (fun depth => .of_eq rfl) depth
  | collapsed => exact Meets.phrase (r := .unary) (fun depth => .of_eq rfl) depth
  | @constant c ts =>
    refine Meets.phrase (r := .unary) (fun depth => .of_eq ?_) depth
    cases c <;> rfl
  | @root ts rest t h ih =>
    apply Meets.phrase (r := .unary)
    intro depth
    have hread : phrase mode depth (parse mode depth) .unary (.operator .root :: ts) = (do
        let arg ← parse mode depth .unary ts
        return ⟨← orFail arg.value.sqrt, arg.rest⟩) := by
      simp only [phrase, unary, skipMinus_of_canStartFactor (h.canStartFactor rfl)]
      rfl
    rw [hread, Tree.value]
    refine (ih hend depth _ (Nat.le_refl _) m).start (fun hroom => ?_)
      (f := fun v rest => do return ⟨← orFail v.sqrt, rest⟩) (.of_eq (by rw [conclude_bind]; rfl))
    simp only [Tree.room, Part.above] at hroom ⊢
    omega
  | @rootMinus ts rest t h ih =>
    apply Meets.phrase (r := .unary)
    intro depth
    rw [Tree.value]
    refine (ih hend depth _ (Nat.le_refl _) m).start (fun hroom => ?_)
      (f := fun v rest => do return ⟨← orFail v.neg.sqrt, rest⟩) (.of_eq (by rw [conclude_bind]; rfl))
    simp only [Tree.room, Part.above] at hroom ⊢
    omega
  | group h hc ih =>
    apply Meets.phrase (r := .unary)
    intro depth
    refine (ih hc.tightness_le depth _ (Nat.le_refl _) m).start (fun hroom => ?_)
      (f := fun v rest => return ⟨v, skipClosing rest⟩) ?_
    · simp only [Tree.room, Part.above, Rule.level] at hroom ⊢
      omega
    · rw [hc.skipClosing_eq]
      exact .inl rfl
  | @call f _ _ _ _ _ h hc ih =>
    apply Meets.phrase (r := .unary)
    intro depth
    rw [Tree.value]
    refine (ih hc.tightness_le depth _ (Nat.le_refl _) m).start (fun hroom => ?_)
      (f := fun v rest => do return ⟨← orFail (v.apply mode.degrees f), skipClosing rest⟩) ?_
    · simp only [Tree.room, Part.above, Rule.level] at hroom ⊢
      omega
    · rw [hc.skipClosing_eq]
      exact .of_eq (by rw [conclude_bind]; rfl)
  | suffix h h' ih ih' =>
    apply Meets.phrase (r := .suffix)
    intro depth
    refine (ih (tightness_le _) depth _ (Nat.le_refl _) m).start (fun hroom => ?_)
      (f := suffixes mode) ((ih' hend depth _ (Nat.le_refl _) m).mono id)
    exact Nat.le_trans h'.room_le hroom
  | @suffixesDone x ts =>
    rw [Part.run]
    refine .of_eq (congrArg ((x.value mode).mapError Stop.abort >>= ·) (funext fun v => ?_))
    exact suffixes_done v hend
  | @suffixesMore x t op ts rest h ih =>
    have hrun : (Part.suffixes x).run mode depth count (.operator (.suffix op) :: ts) =
        (Part.suffixes (.suffix op x)).run mode depth count ts := by
      simp only [Part.run, Tree.value, Recall.mapError_bind, bind_assoc, suffixes, applySuffix_eq]
    rw [hrun]
    exact ih hend depth count (Nat.le_of_succ_le hcount) m
  | factor h ih =>
    apply Meets.phrase (r := .factor)
    intro depth
    simp only [phrase, factor_eq_raised]
    refine (ih (Nat.le_succ_of_le hend) depth _ (Nat.le_refl _) m).start (fun hroom => ?_)
      (f := raised mode depth (parse mode depth)) ?_
    · simp only [Part.above, Rule.level] at hroom ⊢
      omega
    · unfold raised
      rw [after?_power_eq_none hend]
      exact .inl rfl
  | @power ts mid rest s t h h' ih ih' =>
    apply Meets.phrase (r := .factor)
    intro depth
    simp only [phrase, factor_eq_raised]
    refine (ih (Nat.le_refl 4) depth _ (Nat.le_refl _) m).start (fun hroom => ?_)
      (f := raised mode depth (parse mode depth)) ?_
    · simp only [Tree.room, Part.above, Rule.level] at hroom ⊢
      omega
    · simp only [raised_power]
      refine (ih' (tightness_le_two hend) depth _ (Nat.le_refl _) _).goOn (fun hroom => ?_)
        (f := fun (v w : Dual) rest => conclude (.ofExcept (v.power mode.limit depth w)) rest)
        (meets_power s t rest m)
      simp only [Tree.room, Tree.after, Part.above, Rule.level] at hroom ⊢
      omega
  | signedFactor h ih =>
    exact Meets.signedFactor (h.canStartFactor rfl)
      (fun depth => ih (Nat.le_succ_of_le hend) depth _ (Nat.le_refl _) m) depth
  | opposite h ih =>
    apply Meets.phrase (r := .signedFactor)
    intro depth
    rw [Tree.value]
    refine (ih (Nat.le_succ_of_le hend) depth _ (Nat.le_refl _) m).start (fun hroom => ?_)
      (f := fun v rest => return ⟨v.neg, rest⟩) ?_
    · simp only [Tree.room, Part.above, Rule.level] at hroom ⊢
      omega
    · rw [Meets, conclude_bind]
      exact .inl rfl
  | @term ts mid rest x t h h' ih ih' =>
    apply Meets.phrase (r := .term)
    intro depth
    refine (ih (h'.tightness_products hend) depth _ (Nat.le_refl _) m).start (fun hroom => ?_)
      (f := products mode (parse mode depth) ts.length)
      ((ih' hend depth _ (Nat.le_of_lt h.length_lt) m).mono id)
    exact Nat.le_trans h'.room_le hroom
  | @productsDone x ts =>
    refine .of_eq (congrArg ((x.value mode).mapError Stop.abort >>= ·) (funext fun v => ?_))
    exact products_done (parse mode depth) v hend
  | @times ts mid rest x y t h h' ih ih' =>
    obtain ⟨count, rfl⟩ := Nat.exists_eq_add_one.2 (Nat.zero_lt_of_lt hcount)
    have hmid := ih' hend depth count (Nat.le_of_lt_succ (Nat.lt_trans h.length_lt hcount)) m
    exact (ih (h'.tightness_products hend) depth _ (Nat.le_refl _) _).more
      (f := fun v w => .ok (v.mul mode.limit w)) (room_of_max_le h'.room_le) rfl hmid
  | @dividedBy ts mid rest x y t h h' ih ih' =>
    obtain ⟨count, rfl⟩ := Nat.exists_eq_add_one.2 (Nat.zero_lt_of_lt hcount)
    have hmid := ih' hend depth count (Nat.le_of_lt_succ (Nat.lt_trans h.length_lt hcount)) m
    exact (ih (h'.tightness_products hend) depth _ (Nat.le_refl _) _).more
      (f := fun v w => (v.div mode.limit w).mapError .arithmetic) (room_of_max_le h'.room_le) rfl hmid
  | @beside ts mid rest x y t h h' ih ih' =>
    have hstart := h.canStartFactor rfl
    have hlength := Nat.lt_of_lt_of_le h.length_lt hcount
    obtain ⟨count, rfl⟩ := Nat.exists_eq_add_one.2 (Nat.zero_lt_of_lt hlength)
    have hmid := ih' hend depth count (Nat.le_of_lt_succ hlength) m
    -- the rule for factors with a sign reads this one, as it has none
    have hfactor := Meets.signedFactor hstart (fun depth =>
      ih (Nat.le_succ_of_le (h'.tightness_products hend)) depth _ (Nat.le_refl _)
        (x.after mode m)) depth
    simp only [Part.run, products_beside _ _ hstart]
    exact hfactor.more (f := fun v w => .ok (v.mul mode.limit w)) (room_of_max_le h'.room_le) rfl hmid
  | @expr ts mid rest x t h h' ih ih' =>
    apply Meets.phrase (r := .expr)
    intro depth
    refine (ih (h'.tightness_sums hend) depth _ (Nat.le_refl _) m).start (fun hroom => ?_)
      (f := sums mode (parse mode depth) ts.length)
      ((ih' hend depth _ (Nat.le_of_lt h.length_lt) m).mono id)
    exact Nat.le_trans h'.room_le hroom
  | @sumsDone x ts =>
    refine .of_eq (congrArg ((x.value mode).mapError Stop.abort >>= ·) (funext fun v => ?_))
    exact sums_done (parse mode depth) v hend
  | @plus ts mid rest x y t h h' ih ih' =>
    obtain ⟨count, rfl⟩ := Nat.exists_eq_add_one.2 (Nat.zero_lt_of_lt hcount)
    have hmid := ih' hend depth count (Nat.le_of_lt_succ (Nat.lt_trans h.length_lt hcount)) m
    exact (ih (h'.tightness_sums hend) depth _ (Nat.le_refl _) _).more
      (f := fun v w => .ok (v.add mode.limit w)) (room_of_max_le h'.room_le) rfl hmid
  | @minus ts mid rest x y t h h' ih ih' =>
    obtain ⟨count, rfl⟩ := Nat.exists_eq_add_one.2 (Nat.zero_lt_of_lt hcount)
    have hmid := ih' hend depth count (Nat.le_of_lt_succ (Nat.lt_trans h.length_lt hcount)) m
    exact (ih (h'.tightness_sums hend) depth _ (Nat.le_refl _) _).more
      (f := fun v w => .ok (v.sub mode.limit w)) (room_of_max_le h'.room_le) rfl hmid

end Reckoner.Grammar
