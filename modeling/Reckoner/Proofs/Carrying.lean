import Reckoner.Proofs.Completion
import Reckoner.Proofs.Renaming
import Reckoner.Proofs.TokenBytes
/-!
Saving and restoring expressions with sharing. The writer numbers a value before the expression inside
it, the reader knows it only after that; between the two the value is open. `Linked` relates what
the writer has numbered to what the reader knows at each point of the stream, and one token's
bytes carry it over that token.
-/
namespace Reckoner

open Reals

namespace Codec

/-- What the writer has numbered and what the reader knows, at a point of the stream of `e` at which
the values `opened` are being written and the values `done` have been. -/
structure Linked (e : Expression) (σ : Identity → Nat) (opened done : List Identity)
    (w : Written Identity) (known : Known Token) : Prop extends Counted e w where
  written : ∀ i ∈ w.values, i ∈ done ∨ i ∈ opened
  found : ∀ t ∈ e.within, ∀ i ∈ done, t.identity? = some i →
    ∃ j : Nat, w.index? i = some j ∧ known.find? j = some (t.rename σ)
  indexed : ∀ k t, known.find? k = some t → ∃ i ∈ done, ∃ j : Nat, w.index? i = some j ∧ k = j

namespace Linked

variable {a : Arithmetic} {names : ℕ → Term} {e : Expression} {σ : Identity → Nat}
  {opened done : List Identity} {w : Written Identity} {known : Known Token} {i : Identity} {t : Token}

theorem empty (e : Expression) (σ : Identity → Nat) :
    Linked e σ [] [] Written.empty Known.empty where
  toCounted := Counted.empty e
  written i hi := by cases hi
  found t ht i hi := by cases hi
  indexed k t h := by cases h

theorem notMem_done (h : Linked e σ opened done w known) (ht : t ∈ e.within)
    (hi : t.identity? = some i) (hw : w.index? i = none) : i ∉ done := by
  intro hd
  obtain ⟨j, hj, -⟩ := h.found t ht i hd hi
  simp [hw] at hj

/-- A value that is numbered now is open. -/
theorem open_value (h : Linked e σ opened done w known) (ht : t ∈ e.within)
    (hi : t.identity? = some i) (hw : w.index? i = none) :
    Linked e σ (i :: opened) done (w.register i) known := by
  have hkeep {i' : Identity} {j : Nat} (hj : w.index? i' = some j) :
      (w.register i).index? i' = some j := by
    rw [Written.index?_register_of_ne, hj]
    rintro rfl
    simp [hw] at hj
  refine ⟨h.register (Expression.mem_identities.2 ⟨t, ht, hi⟩) hw, ?_, ?_, ?_⟩
  · intro i' hi'
    rcases List.mem_cons.1 hi' with rfl | hi'
    · exact .inr List.mem_cons_self
    · exact (h.written i' hi').imp_right (List.mem_cons_of_mem _)
  · intro t' ht' i' hi' hid
    obtain ⟨j, hj, hfind⟩ := h.found t' ht' i' hi' hid
    exact ⟨j, hkeep hj, hfind⟩
  · intro k t' hk
    obtain ⟨i', hi', j, hj, hkj⟩ := h.indexed k t' hk
    exact ⟨i', hi', j, hkeep hj, hkj⟩

/-- A value whose expression has been read is known. -/
theorem close_value (h : Linked e σ (i :: opened) done w known) (hs : Savable a names e)
    (ht : t ∈ e.within) (hi : t.identity? = some i) (hd : i ∉ done) {k : Nat}
    (hk : w.index? i = some k) :
    Linked e σ opened (done ++ [i]) w (known.register k (t.rename σ)) := by
  refine ⟨h.toCounted, ?_, ?_, ?_⟩
  · intro i' hi'
    rcases h.written i' hi' with hi' | hi'
    · exact .inl (List.mem_append_left _ hi')
    · rcases List.mem_cons.1 hi' with rfl | hi'
      · exact .inl (List.mem_append_right _ List.mem_cons_self)
      · exact .inr hi'
  · intro t' ht' i' hi' hid
    rcases List.mem_append.1 hi' with hi' | hi'
    · obtain ⟨j, hj, hfind⟩ := h.found t' ht' i' hi' hid
      refine ⟨j, hj, ?_⟩
      rw [Known.find?_register, if_neg, hfind]
      intro hjk
      obtain rfl : j = k := Int.ofNat.inj hjk
      exact hd (Written.index?_injective hj hk ▸ hi')
    · obtain rfl := List.mem_singleton.1 hi'
      obtain rfl := hs.shared t ht t' ht' ⟨i', hi, hid⟩
      exact ⟨k, hk, by rw [Known.find?_register, if_pos rfl]⟩
  · intro k' t' hk'
    rw [Known.find?_register] at hk'
    split at hk'
    · rename_i hkk
      exact ⟨i, List.mem_append_right _ List.mem_cons_self, k, hk, hkk⟩
    · obtain ⟨i', hi', j, hj, hkj⟩ := h.indexed k' t' hk'
      exact ⟨i', List.mem_append_left _ hi', j, hj, hkj⟩

/-- A new number has nothing under it yet. -/
theorem find?_count (h : Linked e σ opened done w known) : known.find? (w.count + 1 : Nat) = none := by
  cases hk : known.find? (w.count + 1 : Nat) with
  | none => rfl
  | some t =>
    obtain ⟨i, -, j, hj, hjk⟩ := h.indexed _ t hk
    have hle := Written.index?_le hj
    obtain rfl : w.count + 1 = j := Int.ofNat.inj hjk
    omega

end Linked

/-- Writing a part of `e` and reading it back, wherever the values `done` are known and `opened` are
being written, and from every memory in which names stand for `kept`: the reader makes `y` of the part
and then knows the values `done'`, and the memory is still sound. -/
def Carries (e : Expression) (σ : Identity → Nat) (first : Nat) (kept : ℕ → Term)
    (opened : List Identity) {α : Type} (x : Writer (List UInt8)) (d : Decoder α) (y : α)
    (done done' : List Identity) : Prop :=
  ∀ w known m, Linked e σ opened done w known → m.Sound kept → ∃ data w' known' m',
    Writes x w data w' ∧
    Decodes d data ⟨known, first + done.length, m⟩ y ⟨known', first + done'.length, m'⟩ ∧
    Linked e σ opened done' w' known' ∧ m'.Sound kept ∧
    ∀ i j, w.index? i = some j → w'.index? i = some j

section

variable {e : Expression} {σ : Identity → Nat} {first : Nat} {kept : ℕ → Term}
  {opened done done' done'' : List Identity} {α β : Type}

theorem Carries.append {x x' : Writer (List UInt8)} {d : Decoder α} {d' : α → Decoder β} {y : α}
    {z : β} (h : Carries e σ first kept opened x d y done done')
    (h' : Carries e σ first kept opened x' (d' y) z done' done'') :
    Carries e σ first kept opened (do return (← x) ++ (← x')) (d >>= d') z done done'' := by
  intro w known m hlink hm
  obtain ⟨data, w', known', m', hw, hd, hlink', hm', hkeep⟩ := h w known m hlink hm
  obtain ⟨data', w'', known'', m'', hw', hd', hlink'', hm'', hkeep'⟩ :=
    h' w' known' m' hlink' hm'
  exact ⟨data ++ data', w'', known'', m'', hw.bind (hw'.bind (writes_pure ..)), hd.bind hd', hlink'',
    hm'', fun i j hj => hkeep' i j (hkeep i j hj)⟩

theorem carries_field {x : Except Failure (List UInt8)} {r : Reader α} {data : List UInt8} {y : α}
    (hx : x = .ok data) (hr : Yields r data y) :
    Carries e σ first kept opened (liftExcept x) (field r) y done done :=
  fun w known m hlink hm => ⟨data, w, known, m, writes_field hx w, decodes_field hr _, hlink, hm,
    fun _ _ h => h⟩

/-- A part in which no value is saved. -/
theorem carries_plain {x : Writer (List UInt8)} {d : Decoder α} {data : List UInt8} {y : α}
    (hx : ∀ w, Writes x w data w) (hd : ∀ s, Decodes d data s y s) :
    Carries e σ first kept opened x d y done done :=
  fun w known m hlink hm => ⟨data, w, known, m, hx w, hd _, hlink, hm, fun _ _ h => h⟩

end

section

variable (a : Arithmetic) (e : Expression) (first : Nat)

/-- The new names of an expression's values. -/
abbrev newNames : Identity → Nat := numbering first (e.finish [])

variable {a e first} {limit room : Nat} {names kept : ℕ → Term} {opened done : List Identity}

theorem keptAs_rename (σ : Identity → Nat) (name : Nat) (x : Dual) :
    (x.rename σ).keptAs (σ (valueIdentity name (x.keptAs name))) = (x.keptAs name).rename σ := by
  have hid : (x.rename σ).real.identity? = x.real.identity?.map (Identity.rename σ) :=
    x.real.identity?_rename σ
  unfold Dual.keptAs
  cases h : x.real.identity? with
  | none =>
    rw [hid, h]
    rfl
  | some i =>
    rw [hid, h]
    rfl

theorem notMem_finish (hs : Savable a names e) {name : Nat} {value : Dual} {source : Expression}
    {context : Context} {short : String} {done : List Identity}
    (ht : .collapsed name value source context short ∈ e.within)
    (hdone : valueIdentity name value ∉ done) : valueIdentity name value ∉ source.finish done := by
  intro hmem
  rcases Expression.mem_finish hmem with hmem | ⟨s, hsource, hsid⟩
  · exact hdone hmem
  · exact hs.apart _ ht s hsource ⟨_, rfl, hsid⟩

/-- A value that becomes known now goes by the next name. -/
theorem newNames_eq (hs : Savable a names e) {name : Nat} {value : Dual} {source : Expression}
    {context : Context} {short : String} {done : List Identity}
    (ht : .collapsed name value source context short ∈ e.within)
    (hdone : valueIdentity name value ∉ done)
    (hinitial : (Token.collapsed name value source context short).finish done <+: e.finish []) :
    newNames e first (valueIdentity name value) = first + (source.finish done).length := by
  rw [Token.finish, if_neg hdone] at hinitial
  exact numbering_of_initial hinitial (notMem_finish hs ht hdone)

/-- What a reader makes of a token, which has the context of its expression, is the token under a new
name. -/
theorem rename_newToken {σ : Identity → Nat} {name : Nat} {x : Dual} {source : Expression}
    {context : Context} {short : String} (hspan : context.span = source.length) :
    (Token.collapsed name (x.keptAs name) source context short).rename σ =
      .collapsed (σ (valueIdentity name (x.keptAs name)))
        ((x.rename σ).keptAs (σ (valueIdentity name (x.keptAs name)))) (source.rename σ)
        ⟨context.degrees, (source.rename σ).length⟩ short := by
  rw [keptAs_rename, Expression.length_rename, ← hspan]
  rfl

/-- The value of the expression inside a token comes out again under new names. -/
theorem exists_renamed_value (hk : a.kernel.Accurate) (hσ : Renames (newNames e first) names kept)
    (hc : Composed a names e) {name : Nat} {value : Dual} {source : Expression} {context : Context}
    {short : String} (ht : .collapsed name value source context short ∈ e.within)
    (hr : ReproducibleToken a names room (.collapsed name value source context short)) {m : Memory}
    (hm : m.Sound kept) :
    ∃ (x : Dual) (m' : Memory), value = x.keptAs name ∧ m'.Sound kept ∧
      Grammar.evaluateWithin (a.mode context.degrees) room source.length
        (source.rename (newNames e first)) m = (.ok (x.rename (newNames e first)), m') := by
  obtain ⟨m₀, x, hm₀, hvalue, hx⟩ := (hc _ ht).exists_evaluateWithin hr
  have hmem : ∀ t ∈ source, t.Consistent names := fun t hsource =>
    (hc t (Expression.within_trans ht (Expression.mem_within_of_mem hsource))).consistent
  have hsteady : Grammar.Steady (a.mode context.degrees) names (Grammar.range source.length source) := by
    have hall : Grammar.range source.length source = source := List.take_length
    rw [hall]
    exact hr.1
  obtain ⟨m', hm', hx'⟩ :=
    Grammar.evaluateWithin_rename hk hσ hm₀ hm hmem (Grammar.sameRenamed_rename _ _) hsteady hx
  exact ⟨x, m', hvalue, hm', hx'⟩

/-- A collapsed token whose expression can be carried. Where its value is numbered already, it must be
known, since no open value occurs in it. -/
theorem carries_collapsed (hk : a.kernel.Accurate) (hσ : Renames (newNames e first) names kept)
    (hs : Savable a names e) (hf : Fits limit e) {name : Nat} {value : Dual}
    {source : Expression} {context : Context} {short : String}
    (ht : .collapsed name value source context short ∈ e.within)
    (hr : ReproducibleToken a names room (.collapsed name value source context short))
    (hopened : valueIdentity name value ∉ opened)
    (hinitial : (Token.collapsed name value source context short).finish done <+: e.finish [])
    (write : Expression → Writer (List UInt8)) (read : Decoder Expression)
    (hinner : source.finish done <+: e.finish [] →
      Carries e (newNames e first) first kept (valueIdentity name value :: opened) (write source) read
        (source.rename (newNames e first)) done (source.finish done)) :
    Carries e (newNames e first) first kept opened
      (writeToken write (.collapsed name value source context short)) (readToken a room read)
      ((Token.collapsed name value source context short).rename (newNames e first)) done
      ((Token.collapsed name value source context short).finish done) := by
  intro w known m hlink hm
  cases hw : w.index? (valueIdentity name value) with
  | some j =>
    have hmem : valueIdentity name value ∈ w.values := by
      by_contra hmem
      rw [Written.index?_eq_none_iff.2 hmem] at hw
      cases hw
    have hdone := (hlink.written _ hmem).resolve_right hopened
    obtain ⟨j', hj', hfind⟩ := hlink.found _ ht _ hdone rfl
    obtain rfl : j = j' := Option.some.inj (hw.symm.trans hj')
    have hj := Nat.lt_of_le_of_lt (Written.index?_le hw) (hlink.count_lt hf.values)
    rw [Token.finish, if_pos hdone]
    exact ⟨_, w, known, m, writes_reference hw hj, decodes_reference hj hfind, hlink, hm,
      fun _ _ h => h⟩
  | none =>
    have hdone := hlink.notMem_done ht rfl hw
    have hsource : source.finish done <+: e.finish [] := by
      rw [Token.finish, if_neg hdone] at hinitial
      exact (List.prefix_append _ _).trans hinitial
    obtain ⟨data, w', known', m', hwrite, hread, hlink', hm', hkeep⟩ :=
      hinner hsource _ known m (hlink.open_value ht rfl hw) hm
    have hindex := hkeep _ _ (Written.index?_register_self w (valueIdentity name value))
    have hcount : w.count + 1 < 0x80000000 :=
      (hlink.open_value ht rfl hw).count_lt hf.values
    obtain ⟨-, hspan, -⟩ := hs.composed _ ht
    obtain ⟨x, m'', rfl, hm'', hvalue⟩ := exists_renamed_value hk hσ hs.composed ht hr hm'
    have hnew : newNames e first (valueIdentity name (x.keptAs name)) =
        first + (source.finish done).length := newNames_eq hs ht hdone hinitial
    have hnotdone : valueIdentity name (x.keptAs name) ∉ source.finish done :=
      notMem_finish hs ht hdone
    have hclosed := hlink'.close_value hs ht rfl hnotdone hindex
    rw [← Expression.length_rename (newNames e first)] at hvalue
    rw [rename_newToken hspan, hnew] at hclosed ⊢
    rw [Token.finish, if_neg hdone]
    refine ⟨_, w', _, m'', writes_collapsed hw hcount hwrite (hf.tokens _ ht).2, ?_, hclosed, hm'', ?_⟩
    · have hread' := decodes_collapsed hcount hlink.find?_count hread hvalue (hf.tokens _ ht).2
      rwa [List.length_append, List.length_singleton, ← Nat.add_assoc]
    · intro i j hj
      refine hkeep i j ?_
      rwa [Written.index?_register_of_ne]
      rintro rfl
      simp [hw] at hj

theorem carries_tokens {σ : Identity → Nat} {one : Token → Writer (List UInt8)} {d : Decoder Token}
    (ts read : List Token) {done : List Identity}
    (hone : ∀ t ∈ ts, ∀ done, t.finish done <+: e.finish [] →
      Carries e σ first kept opened (one t) d (t.rename σ) done (t.finish done))
    (hinitial : Expression.finish done ts <+: e.finish []) :
    Carries e σ first kept opened (writeTokens one ts) (readTokens d ts.length read)
      (read.reverse ++ Expression.rename σ ts) done (Expression.finish done ts) := by
  induction ts generalizing read done with
  | nil =>
    simp only [Expression.rename, List.append_nil]
    exact carries_plain (fun w => writes_pure w []) fun s => decodes_pure s _
  | cons t ts ih =>
    have hhead := hone t List.mem_cons_self done
      ((Expression.prefix_finish ts _).trans hinitial)
    have htail := ih (t.rename σ :: read) (fun t ht => hone t (List.mem_cons_of_mem _ ht)) hinitial
    simp only [List.reverse_cons, List.append_assoc, List.singleton_append] at htail
    exact hhead.append htail

/-- An expression, given that its tokens can be carried. -/
theorem carries_counted {σ : Identity → Nat} {k depth : Nat} {source : Expression}
    (hlength : source.length < 0x80000000)
    (hone : ∀ t ∈ source, ∀ done, t.finish done <+: e.finish [] →
      Carries e σ first kept opened (writeToken (writeExpression (k + depth)) t)
        (readToken a (evaluationRoom depth) (readExpression a depth)) (t.rename σ) done
        (t.finish done))
    (hinitial : source.finish done <+: e.finish []) :
    Carries e σ first kept opened (writeExpression (k + (depth + 1)) source)
      (readExpression a (depth + 1)) (source.rename σ) done (source.finish done) := by
  have hfield := intField_natCast hlength
  have hcount : Carries e σ first kept opened (liftExcept (intField source.length)) (field readInt)
      (source.length : Int) done done := carries_field hfield (yields_readInt hfield)
  refine hcount.append ?_
  have hnat : ¬ (source.length : Int) < 0 := by omega
  simp only [if_neg hnat, Int.toNat_natCast]
  exact carries_tokens source [] hone hinitial

/-- A token inside `e`, given that the expression inside it can be carried. -/
theorem carries_token (hk : a.kernel.Accurate) (hσ : Renames (newNames e first) names kept)
    (hs : Savable a names e) (hf : Fits limit e) {t : Token} (ht : t ∈ e.within)
    (hr : ReproducibleToken a names room t) (hopened : ∀ i, t.identity? = some i → i ∉ opened)
    (hinitial : t.finish done <+: e.finish [])
    (write : Expression → Writer (List UInt8)) (read : Decoder Expression)
    (hinner : ∀ {name value} {source : Expression} {context short},
      t = .collapsed name value source context short → source.finish done <+: e.finish [] →
      Carries e (newNames e first) first kept (valueIdentity name value :: opened) (write source) read
        (source.rename (newNames e first)) done (source.finish done)) :
    Carries e (newNames e first) first kept opened (writeToken write t) (readToken a room read)
      (t.rename (newNames e first)) done (t.finish done) := by
  cases t with
  | literal l =>
    have hwell : l.WellFormed := hs.composed _ ht
    have hfits := hf.tokens _ ht
    exact carries_plain (writes_literal hfits) (decodes_literal hwell hfits)
  | operator k => exact carries_plain (writes_operator k) (decodes_operator k)
  | collapsed name value source context short =>
    exact carries_collapsed hk hσ hs hf ht hr (hopened _ rfl) hinitial write read (hinner rfl)

/-- An expression inside `e` in which no value occurs that is being written. -/
theorem carries_expression (hk : a.kernel.Accurate) (hσ : Renames (newNames e first) names kept)
    (hs : Savable a names e) (hf : Fits limit e) (k depth : Nat)
    {source : Expression} (hwithin : ∀ t ∈ source, t ∈ e.within)
    (hlength : source.length < 0x80000000) (hnesting : source.nesting ≤ depth)
    (hr : ∀ k t, source.OccursAt k t → ReproducibleToken a names (evaluationRoom (depth - k)) t)
    (hopened : ∀ t ∈ source.within, ∀ i, t.identity? = some i → i ∉ opened)
    (hinitial : source.finish done <+: e.finish []) :
    Carries e (newNames e first) first kept opened (writeExpression (k + (depth + 1)) source)
      (readExpression a (depth + 1)) (source.rename (newNames e first)) done
      (source.finish done) := by
  induction depth generalizing source opened done with
  | zero =>
    refine carries_counted hlength (fun t ht done hinitial => ?_) hinitial
    refine carries_token hk hσ hs hf (hwithin t ht) (hr 0 t ht)
      (hopened t (Expression.mem_within_of_mem ht)) hinitial _ _ ?_
    rintro name value source context short rfl -
    have hle := Expression.nesting_le_of_mem ht
    simp only [Token.nesting] at hle
    omega
  | succ depth ih =>
    refine carries_counted hlength (fun t ht done hinitial => ?_) hinitial
    refine carries_token hk hσ hs hf (hwithin t ht) (hr 0 t ht)
      (hopened t (Expression.mem_within_of_mem ht)) hinitial _ _ ?_
    rintro name value source' context short rfl hinitial
    have ht' := hwithin _ ht
    have hle := Expression.nesting_le_of_mem ht
    simp only [Token.nesting] at hle
    refine ih (fun s hs => ?_) (hf.tokens _ ht').1 (by omega) (fun j s hj => ?_)
      (fun s hs' i hi => ?_) hinitial
    · exact Expression.within_trans ht' (Expression.mem_within_of_mem hs)
    · have hdeep := hr (j + 1) s ⟨_, ht, hj⟩
      rwa [Nat.add_sub_add_right] at hdeep
    · have hout := hopened s (Expression.within_trans (Expression.mem_within_of_mem ht) hs') i hi
      rw [List.mem_cons, not_or]
      refine ⟨?_, hout⟩
      rintro rfl
      exact hs.apart _ ht' s hs' ⟨_, rfl, hi⟩

end

end Codec

end Reckoner
