import Reckoner.Proofs.Carrying
import Reckoner.Proofs.Reloading
/-!
What is saved is what is restored: `loads_dumps` says that an expression comes back from its bytes
with everything in it, but for the names of its values, and that two of its tokens share a value
exactly when they come back as one token. It must have its values again where it is read, which not
every expression has that had them once (`loads_dumps_unsettled`).
-/
namespace Reckoner

open Reals

section

variable (σ τ : Identity → Nat)

theorem Reals.Identity.rename_rename (i : Identity) :
    (i.rename σ).rename τ = i.rename fun i => τ (i.rename σ) := by
  cases i <;> rfl

theorem Reals.Term.rename_rename (t : Term) :
    (t.rename σ).rename τ = t.rename fun i => τ (i.rename σ) := by
  induction t with
  | rational _ | pi | e => rfl
  | add _ _ iha ihb | sub _ _ iha ihb | mul _ _ iha ihb => simp only [rename, iha, ihb]
  | named i a ih => simp only [rename, ih, i.rename_rename]
  | _ => simp_all only [rename]

theorem Codec.valueIdentity_rename (name : Nat) (x : Dual) :
    valueIdentity (σ (valueIdentity name x)) (x.rename σ) = (valueIdentity name x).rename σ := by
  have hid : (x.rename σ).real.identity? = x.real.identity?.map (Identity.rename σ) :=
    x.real.identity?_rename σ
  unfold valueIdentity
  rw [hid]
  cases x.real.identity? <;> rfl

theorem Dual.rename_rename (x : Dual) :
    (x.rename σ).rename τ = x.rename fun i => τ (i.rename σ) :=
  congrArg (Dual.mk · x.exact) (x.real.rename_rename σ τ)

mutual

theorem Token.rename_rename : ∀ t : Token,
    (t.rename σ).rename τ = t.rename fun i => τ (i.rename σ)
  | .literal _ | .operator _ => rfl
  | .collapsed name value source context short => by
    simp only [Token.rename, Codec.valueIdentity_rename, Expression.rename_rename source,
      Dual.rename_rename]

theorem Expression.rename_rename : ∀ e : Expression,
    (e.rename σ).rename τ = e.rename fun i => τ (i.rename σ)
  | [] => rfl
  | t :: e => by
    simp only [Expression.rename, Token.rename_rename t, Expression.rename_rename e]

end

mutual

theorem Token.within_rename : ∀ t : Token, (t.rename σ).within = t.within.map (Token.rename σ)
  | .literal _ | .operator _ => rfl
  | .collapsed _ _ source _ _ => Expression.within_rename source

theorem Expression.within_rename : ∀ e : Expression,
    (e.rename σ).within = e.within.map (Token.rename σ)
  | [] => rfl
  | t :: e => by
    simp only [Expression.rename, Expression.within, Token.within_rename t,
      Expression.within_rename e, List.map_cons, List.map_append]

end

/-- Each occurrence of a token with what becomes of it where an expression is changed token by token. -/
theorem Expression.zip_within_of_map {e e' : Expression} {f : Token → Token}
    (h : e'.within = e.within.map f) : e.within.zip e'.within = e.within.map fun t => (t, f t) := by
  rw [h]
  have hzip := List.zip_map' (l := e.within) (f := id) (g := f)
  rwa [List.map_id] at hzip

theorem Token.name?_rename (t : Token) : (t.rename σ).name? = t.identity?.map σ := by
  cases t <;> rfl

end

/-- The expression without the names of its values. -/
def Expression.anonymous (e : Expression) : Expression := e.rename fun _ => 0

theorem Expression.anonymous_rename (σ : Identity → Nat) (e : Expression) :
    (e.rename σ).anonymous = e.anonymous :=
  e.rename_rename σ _

/-- Whether two tokens are one and the same collapsed token. -/
def Token.IsSame (s t : Token) : Prop := ∃ n, s.name? = some n ∧ t.name? = some n

theorem Token.isSame_rename_iff {σ : Identity → Nat} (hσ : σ.Injective) (s t : Token) :
    (s.rename σ).IsSame (t.rename σ) ↔ s.SharesValue t := by
  unfold IsSame SharesValue
  rw [name?_rename, name?_rename]
  constructor
  · rintro ⟨n, hs, ht⟩
    obtain ⟨i, hi, rfl⟩ := Option.map_eq_some_iff.1 hs
    obtain ⟨j, hj, hji⟩ := Option.map_eq_some_iff.1 ht
    exact ⟨i, hi, hσ hji ▸ hj⟩
  · rintro ⟨i, hs, ht⟩
    exact ⟨σ i, by simp [hs], by simp [ht]⟩

namespace Codec

variable {a : Arithmetic} {names : ℕ → Term} {e : Expression}

theorem le_newNames (e : Expression) (first : ℕ) (i : Identity) : first ≤ newNames e first i :=
  Nat.le_add_right _ _

/-- The bytes of an expression, and what a reader with free names from `first` on makes of them. -/
theorem exists_decodes_dumps (hk : a.kernel.Accurate) (hs : Savable a names e)
    (hr : Reproducible a names e) (hf : Fits readingLimit e) {first : ℕ} {names₀ : ℕ → Term}
    {m : Memory} (hm : m.SoundBelow first names₀) :
    ∃ data known m', dumps e = .ok data ∧
      Decodes (readExpression a (readingLimit + 1)) data ⟨Known.empty, first, m⟩
        (e.rename (newNames e first)) ⟨known, first + (e.finish []).length, m'⟩ := by
  obtain ⟨kept, hkept, hσ⟩ := exists_renames
    (fun n m h => Identity.name.inj (numbering_injective first (e.finish []) h))
    (fun n => le_newNames e first (.name n)) names names₀
  have hcarries : Carries e (newNames e first) first kept []
      (writeExpression (246 + (readingLimit + 1)) e) (readExpression a (readingLimit + 1))
      (e.rename (newNames e first)) [] (e.finish []) :=
    carries_expression hk hσ hs hf 246 readingLimit (fun t ht => Expression.mem_within_of_mem ht)
      hf.length hf.nesting hr (fun t ht i hi => List.not_mem_nil) (List.prefix_refl _)
  obtain ⟨data, w, known, m', hwrites, hdecodes, -⟩ :=
    hcarries _ _ m (Linked.empty e _) (hm kept hkept)
  refine ⟨data, known, m', ?_, hdecodes⟩
  have hlimit : writingLimit = 246 + (readingLimit + 1) := rfl
  rw [dumps, hlimit]
  exact hwrites.encode

/-- An expression that can be saved, and whose values come out again where it is read, comes back from
its bytes, whatever follows them, as it was but for the names of its values; tokens that share a value,
and only these, come back as one token. So it is whatever has been evaluated before, and from the
first free name on. -/
theorem loads_dumps (hk : a.kernel.Accurate) (hs : Savable a names e) (hr : Reproducible a names e)
    (hf : Fits readingLimit e) :
    ∃ data, dumps e = .ok data ∧ ∀ first names₀ m trailing, m.SoundBelow first names₀ →
      ∃ e' first' m', loads a first m (data ++ trailing) = (.ok e', first', m') ∧
        e'.anonymous = e.anonymous ∧
        (∀ p ∈ e.within.zip e'.within, ∀ q ∈ e.within.zip e'.within,
          p.1.SharesValue q.1 ↔ p.2.IsSame q.2) ∧
        ∀ s ∈ e'.within, ∀ t ∈ e'.within, s.IsSame t → s = t := by
  obtain ⟨data, -, -, hdata, -⟩ := exists_decodes_dumps hk hs hr hf (Memory.soundBelow_empty 0 names)
  refine ⟨data, hdata, fun first names₀ m trailing hm => ?_⟩
  obtain ⟨data', known, m', hdata', hdecodes⟩ := exists_decodes_dumps hk hs hr hf hm
  obtain rfl : data = data' := Except.ok.inj (hdata.symm.trans hdata')
  have hσ := numbering_injective first (e.finish [])
  refine ⟨_, _, m', hdecodes.decode trailing, e.anonymous_rename _, ?_, ?_⟩
  · intro p hp q hq
    rw [Expression.zip_within_of_map (Expression.within_rename _ e)] at hp hq
    obtain ⟨s, -, rfl⟩ := List.mem_map.1 hp
    obtain ⟨t, -, rfl⟩ := List.mem_map.1 hq
    exact (Token.isSame_rename_iff hσ s t).symm
  · intro s hs' t ht' hsame
    rw [Expression.within_rename, List.mem_map] at hs' ht'
    obtain ⟨s, hs', rfl⟩ := hs'
    obtain ⟨t, ht', rfl⟩ := ht'
    rw [hs.shared s hs' t ht' ((Token.isSame_rename_iff hσ s t).1 hsame)]

/-- The token of a sum. -/
def three : Token :=
  .collapsed 0 ((Dual.ofRat 3).keptAs 0)
    [.literal ⟨"1", false, ""⟩, .operator (.binary .plus), .literal ⟨"2", true, "0"⟩] ⟨false, 3⟩ "3"

theorem reproducibleToken_three {a : Arithmetic} {names : ℕ → Term} {room : ℕ} (h : 6 ≤ room) :
    ReproducibleToken a names room three := by
  have htwo : Grammar.Derives (.rule .term) [.literal ⟨"2", true, "0"⟩]
      (.number ⟨"2", true, "0"⟩) [] :=
    .term (.signedFactor (.factor (.suffix .number .suffixesDone))) .productsDone
  have hsum : Grammar.IsExpression
      [.literal ⟨"1", false, ""⟩, .operator (.binary .plus), .literal ⟨"2", true, "0"⟩]
      (.sum (.number ⟨"1", false, ""⟩) (.number ⟨"2", true, "0"⟩)) :=
    .expr (.term (.signedFactor (.factor (.suffix .number .suffixesDone))) .productsDone)
      (.plus htwo .sumsDone)
  exact ⟨Grammar.steady_of_not_mem (by simp), _, hsum, fun _ _ => h⟩

/-- The token of a product of one token with itself. -/
def nine : Token :=
  .collapsed 1 ((Dual.ofRat 9).keptAs 1) [three, .operator (.binary .times), three] ⟨true, 3⟩ "9"

def nested : Expression := [nine, .operator (.binary .minus), three]

def nestedNames (n : ℕ) : Term := if n = 0 then .rational 3 else .rational 9

theorem composedToken_three : ComposedToken ⟨10000, Kernel.ideal⟩ nestedNames three :=
  ⟨⟨rfl, trivial⟩, rfl, Memory.empty, Dual.ofRat 3, Memory.sound_empty _, by cbv, rfl⟩

theorem mem_nested : ∀ t ∈ nested.within, t = nine ∨ t = three ∨ (∃ k, t = .operator k) ∨
    t = .literal ⟨"1", false, ""⟩ ∨ t = .literal ⟨"2", true, "0"⟩ := by
  have hthree : three.within =
      [.literal ⟨"1", false, ""⟩, .operator (.binary .plus), .literal ⟨"2", true, "0"⟩] := rfl
  have hnine : nine.within =
      three :: three.within ++ .operator (.binary .times) :: three :: three.within := rfl
  have hwithin : nested.within =
      nine :: nine.within ++ .operator (.binary .minus) :: three :: three.within := rfl
  simp [hwithin, hnine, hthree]

theorem savable_nested : Savable ⟨10000, Kernel.ideal⟩ nestedNames nested where
  composed t ht := by
    rcases mem_nested t ht with rfl | rfl | ⟨k, rfl⟩ | rfl | rfl
    · exact ⟨⟨rfl, trivial⟩, rfl, Memory.empty, Dual.ofRat 9, Memory.sound_empty _, by cbv, rfl⟩
    · exact composedToken_three
    · exact trivial
    · constructor <;> simp
    · constructor <;> simp
  shared := by
    rintro s hs t ht ⟨i, hi, hj⟩
    rcases mem_nested _ hs with rfl | rfl | ⟨k, rfl⟩ | rfl | rfl <;>
      rcases mem_nested _ ht with rfl | rfl | ⟨k, rfl⟩ | rfl | rfl <;> cases hi <;>
      first | rfl | (cases hj)
  apart := by
    rintro t ht s hs ⟨i, hi, hj⟩
    rcases mem_nested _ ht with rfl | rfl | ⟨k, rfl⟩ | rfl | rfl <;> cases hi
    · simp only [nine, three, Token.within, Expression.within, List.nil_append, List.append_nil,
        List.cons_append, List.mem_cons, List.not_mem_nil, or_false] at hs
      rcases hs with rfl | rfl | rfl | rfl | rfl | rfl | rfl | rfl | rfl <;> cases hj
    · simp only [three, Token.within, Expression.within, List.nil_append, List.mem_cons,
        List.not_mem_nil, or_false] at hs
      rcases hs with rfl | rfl | rfl <;> cases hj

theorem reproducible_nested : Reproducible ⟨10000, Kernel.ideal⟩ nestedNames nested := by
  intro k t hk
  have hdeep : 6 ≤ evaluationRoom (readingLimit - k) := by
    have hle : t.nesting + k ≤ 2 := hk.nesting_le
    unfold evaluationRoom readingLimit
    omega
  rcases mem_nested t hk.mem_within with rfl | rfl | ⟨k, rfl⟩ | rfl | rfl
  · have hthree : Grammar.Derives (.rule .signedFactor) [three]
        (.collapsed ((Dual.ofRat 3).keptAs 0)) [] :=
      .signedFactor (.factor (.suffix .collapsed .suffixesDone))
    have hproduct : Grammar.IsExpression [three, .operator (.binary .times), three]
        (.product true (.collapsed ((Dual.ofRat 3).keptAs 0))
          (.collapsed ((Dual.ofRat 3).keptAs 0))) :=
      .expr (.term (.signedFactor (.factor (.suffix .collapsed .suffixesDone)))
        (.times hthree .productsDone)) .sumsDone
    exact ⟨Grammar.steady_of_not_mem (by simp [three]), _, hproduct, fun _ _ => hdeep⟩
  · exact reproducibleToken_three hdeep
  · exact trivial
  · exact trivial
  · exact trivial

theorem loads_dumps_nested :
    Kernel.ideal.Accurate ∧ Savable ⟨10000, Kernel.ideal⟩ nestedNames nested ∧
      Reproducible ⟨10000, Kernel.ideal⟩ nestedNames nested ∧ Fits readingLimit nested ∧
      Memory.empty.SoundBelow 0 nestedNames ∧
      ∃ data, dumps nested = .ok data ∧ ∀ trailing, ∃ e' first' m',
        loads ⟨10000, Kernel.ideal⟩ 0 Memory.empty (data ++ trailing) = (.ok e', first', m') ∧
        e'.anonymous = nested.anonymous ∧
        (∀ p ∈ nested.within.zip e'.within, ∀ q ∈ nested.within.zip e'.within,
          p.1.SharesValue q.1 ↔ p.2.IsSame q.2) ∧
        ∀ s ∈ e'.within, ∀ t ∈ e'.within, s.IsSame t → s = t := by
  have hf : Fits readingLimit nested := ⟨by decide, by decide, by decide, by decide⟩
  have hempty := Memory.soundBelow_empty 0 nestedNames
  obtain ⟨data, hdata, hloads⟩ :=
    loads_dumps Kernel.ideal_accurate savable_nested reproducible_nested hf
  exact ⟨Kernel.ideal_accurate, savable_nested, reproducible_nested, hf, hempty, data, hdata,
    fun trailing => hloads 0 nestedNames Memory.empty trailing hempty⟩

/-- A value that does not come out again. After the product has been evaluated, its token can be saved,
and what was saved cannot be read. -/
theorem loads_dumps_unsettled :
    let a : Arithmetic := ⟨10000, Elementary.kernel⟩
    ∃ names m, Savable a names [unsettled 0] ∧ Fits readingLimit [unsettled 0] ∧
      m = (a.evaluateIn ⟨false, Grammar.Unsettled.tokens.length⟩ Grammar.Unsettled.tokens
        Memory.empty).2 ∧
      ∃ data, dumps [unsettled 0] = .ok data ∧ ∀ first trailing,
        (loads a first m (data ++ trailing)).1 =
          .error (.format (.unevaluable "Factorial of non-integer")) := by
  intro a
  obtain ⟨m, hfirst, -, hagain⟩ := loads_unsettled
  have hwithin : Expression.within [unsettled 0] = unsettled 0 :: Grammar.Unsettled.tokens := rfl
  have hplain : ∀ t ∈ Grammar.Unsettled.tokens, t.identity? = none := by
    intro t ht
    have h := plain_unsettled t ht
    cases t with
    | collapsed => exact h.elim
    | _ => rfl
  have hs : Savable a (fun _ => .rational 6) [unsettled 0] := by
    refine ⟨fun t ht => ?_, ?_, ?_⟩
    · rw [hwithin, List.mem_cons] at ht
      rcases ht with rfl | ht
      · exact ⟨⟨rfl, trivial⟩, rfl, _, _, Memory.sound_empty _, congrArg Prod.fst hfirst, rfl⟩
      · have h := plain_unsettled t ht
        cases t with
        | literal l => exact h.1
        | operator k => trivial
        | collapsed => exact h.elim
    · rintro s hs t ht ⟨i, hi, hj⟩
      rw [hwithin, List.mem_cons] at hs ht
      rcases hs with rfl | hs
      · rcases ht with rfl | ht
        · rfl
        · cases (hplain t ht).symm.trans hj
      · cases (hplain s hs).symm.trans hi
    · rintro t ht s hs ⟨i, hi, hj⟩
      rw [hwithin, List.mem_cons] at ht
      rcases ht with rfl | ht
      · cases (hplain s hs).symm.trans hj
      · cases (hplain t ht).symm.trans hi
  have hf : Fits readingLimit [unsettled 0] := ⟨by decide, by decide, by decide, by decide⟩
  exact ⟨_, m, hs, hf, (congrArg Prod.snd hfirst).symm, unsettledBytes,
    dumps_collapsedPlain plain_unsettled (by decide) (by decide) 0 _ _, hagain⟩

end Codec

end Reckoner
