import Reckoner.Proofs.TokenBytes
/-!
How many bytes an expression has. `Expression.size` counts those of the tokens where all of each is
written; a reference in place of a token saves some of them.
-/
namespace Reckoner

open Reals

mutual

/-- How many bytes a token has where all of it is written. -/
def Token.size : Token → Nat
  | .literal l => 1 + ((2 + l.whole.utf8ByteSize) + 1 + (2 + l.fraction.utf8ByteSize))
  | .operator _ => 1 + 4
  | .collapsed _ _ source _ short =>
    1 + (4 + (4 + Expression.size source) + 1 + (2 + short.utf8ByteSize))

/-- How many bytes the tokens of an expression have where all of each is written. -/
def Expression.size : Expression → Nat
  | [] => 0
  | t :: ts => t.size + Expression.size ts

end

namespace Codec

/-- Whether one of some tokens has a value that is numbered already, or has its value inside itself. -/
def Repeats (w : Written Identity) (ts : List Token) : Prop :=
  (∃ t ∈ ts, ∃ i ∈ w.values, t.identity? = some i) ∨ ∃ t ∈ ts, ∃ s ∈ t.within, t.SharesValue s

theorem Repeats.of_append {w w' : Written Identity} {ts us : List Token} (h : Repeats w (ts ++ us))
    (hsub : w.values ⊆ w'.values) : Repeats w ts ∨ Repeats w' us := by
  rcases h with ⟨t, ht, i, hi, hid⟩ | ⟨t, ht, hs⟩
  · rcases List.mem_append.1 ht with ht | ht
    · exact .inl (.inl ⟨t, ht, i, hi, hid⟩)
    · exact .inr (.inl ⟨t, ht, i, hsub hi, hid⟩)
  · rcases List.mem_append.1 ht with ht | ht
    · exact .inl (.inr ⟨t, ht, hs⟩)
    · exact .inr (.inr ⟨t, ht, hs⟩)

/-- A part of `e` can be written, in at most `size` bytes, and in fewer if one of its tokens at any
depth, `ts`, repeats a value. -/
def Spends (e : Expression) (x : Writer (List UInt8)) (size : Nat) (ts : List Token) : Prop :=
  ∀ w, Counted e w → ∃ data w', Writes x w data w' ∧ Counted e w' ∧ w.values ⊆ w'.values ∧
    data.length ≤ size ∧ (Repeats w ts → data.length < size)

variable {e : Expression} {x y : Writer (List UInt8)} {size size' limit : Nat} {ts us : List Token}

theorem Spends.append (h : Spends e x size ts) (h' : Spends e y size' us) :
    Spends e (do return (← x) ++ (← y)) (size + size') (ts ++ us) := by
  intro w hw
  obtain ⟨data, w', hwrites, hw', hsub, hle, hlt⟩ := h w hw
  obtain ⟨data', w'', hwrites', hw'', hsub', hle', hlt'⟩ := h' w' hw'
  refine ⟨data ++ data', w'', hwrites.bind (hwrites'.bind (writes_pure ..)), hw'',
    List.Subset.trans hsub hsub', ?_, fun hrepeats => ?_⟩
  · rw [List.length_append]
    omega
  · rw [List.length_append]
    rcases hrepeats.of_append hsub with hrepeats | hrepeats
    · have := hlt hrepeats
      omega
    · have := hlt' hrepeats
      omega

/-- A part without collapsed tokens. -/
theorem spends_plain {data : List UInt8} (hx : ∀ w, Writes x w data w) (hsize : data.length = size)
    (hts : ∀ t ∈ ts, t.identity? = none) : Spends e x size ts := by
  refine fun w hw => ⟨data, w, hx w, hw, fun _ h => h, hsize.le, fun hrepeats => ?_⟩
  rcases hrepeats with ⟨t, ht, i, -, hid⟩ | ⟨t, ht, s, -, i, hid, -⟩
  · rw [hts t ht] at hid
    cases hid
  · rw [hts t ht] at hid
    cases hid

/-- A collapsed token, whose value is either new or repeated. -/
theorem spends_collapsed (hf : Fits limit e) {name : Nat} {value : Dual} {source : Expression}
    {context : Context} {short : String}
    (ht : .collapsed name value source context short ∈ e.within)
    {write : Expression → Writer (List UInt8)}
    (hinner : Spends e (write source) (4 + source.size) source.within) :
    Spends e (writeToken write (.collapsed name value source context short))
      (Token.collapsed name value source context short).size
      (.collapsed name value source context short :: source.within) := by
  intro w hw
  have hid : valueIdentity name value ∈ e.identities := Expression.mem_identities.2 ⟨_, ht, rfl⟩
  cases hindex : w.index? (valueIdentity name value) with
  | some j =>
    have hj := Nat.lt_of_le_of_lt (Written.index?_le hindex) (hw.count_lt hf.values)
    refine ⟨_, w, writes_reference hindex hj, hw, fun _ h => h, ?_, fun _ => ?_⟩
    · simp only [referenceBytes, Token.size, List.length_append, length_bytesOf, length_intBytes]
      omega
    · simp only [referenceBytes, Token.size, List.length_append, length_bytesOf, length_intBytes]
      omega
  | none =>
    have hw₁ := hw.register hid hindex
    have hcount : w.count + 1 < 0x80000000 := hw₁.count_lt hf.values
    obtain ⟨data, w', hwrites, hw', hsub, hle, hlt⟩ := hinner _ hw₁
    have hsize : (collapsedBytes (w.count + 1) data context.degrees short).length =
        1 + (4 + data.length + 1 + (2 + short.utf8ByteSize)) := by
      simp only [collapsedBytes, boolField, List.length_append, length_bytesOf, length_intBytes,
        length_textBytes, List.length_singleton]
    refine ⟨_, w', writes_collapsed hindex hcount hwrites (hf.tokens _ ht).2, hw',
      List.Subset.trans (List.subset_cons_self _ _) hsub, ?_, fun hrepeats => ?_⟩
    · rw [hsize, Token.size]
      omega
    · have hinside : Repeats (w.register (valueIdentity name value)) source.within := by
        rcases hrepeats with ⟨t, hmem, i, hi, hti⟩ | ⟨t, hmem, s, hs, hts⟩
        · rcases List.mem_cons.1 hmem with rfl | hmem
          · obtain rfl := Option.some.inj hti
            exact absurd hi (Written.index?_eq_none_iff.1 hindex)
          · exact .inl ⟨t, hmem, i, List.mem_cons_of_mem _ hi, hti⟩
        · rcases List.mem_cons.1 hmem with rfl | hmem
          · obtain ⟨i, hti, hsi⟩ := hts
            obtain rfl := Option.some.inj hti
            exact .inl ⟨s, hs, _, List.mem_cons_self, hsi⟩
          · exact .inr ⟨t, hmem, s, hs, hts⟩
      have := hlt hinside
      rw [hsize, Token.size]
      omega

theorem spends_tokens {one : Token → Writer (List UInt8)} {ts : List Token}
    (hone : ∀ t ∈ ts, Spends e (one t) t.size (t :: t.within)) :
    Spends e (writeTokens one ts) (Expression.size ts) (Expression.within ts) := by
  induction ts with
  | nil => exact spends_plain (fun w => writes_pure w []) rfl fun t ht => by cases ht
  | cons t ts ih =>
    exact (hone t List.mem_cons_self).append (ih fun t ht => hone t (List.mem_cons_of_mem _ ht))

/-- An expression inside `e`: it can be written, whatever has been numbered. -/
theorem spends_expression (hf : Fits limit e) (depth : Nat)
    {source : Expression} (hwithin : ∀ t ∈ source, t ∈ e.within)
    (hlength : source.length < 0x80000000) (hnesting : source.nesting < depth) :
    Spends e (writeExpression depth source) (4 + source.size) source.within := by
  induction depth generalizing source with
  | zero => cases hnesting
  | succ depth ih =>
    have hcount : Spends e (liftExcept (intField source.length)) 4 [] :=
      spends_plain (fun w => writes_field (intField_natCast hlength) w) (length_intBytes _)
        fun t ht => by cases ht
    refine hcount.append (spends_tokens fun t ht => ?_)
    have ht' := hwithin t ht
    cases t with
    | literal l =>
      refine spends_plain (writes_literal (hf.tokens _ ht')) ?_ ?_
      · simp only [literalBytes, boolField, Token.size, List.length_append, length_bytesOf,
          length_textBytes, List.length_singleton]
      · simp [Token.within, Token.identity?]
    | operator k =>
      refine spends_plain (writes_operator k) ?_ ?_
      · simp only [operatorBytes, Token.size, List.length_append, length_bytesOf, length_intBytes]
      · simp [Token.within, Token.identity?]
    | collapsed name value inside context short =>
      have hle := Expression.nesting_le_of_mem ht
      simp only [Token.nesting] at hle
      refine spends_collapsed hf ht' (ih (fun s hs => ?_) (hf.tokens _ ht').1 (by omega))
      exact Expression.within_trans ht' (Expression.mem_within_of_mem hs)

/-- Every expression within the limits can be saved; where a value occurs inside itself, some of the
bytes of the expression are missing. -/
theorem exists_dumps_length (hf : Fits readingLimit e) :
    ∃ data, dumps e = .ok data ∧ (¬ e.Apart → data.length < 4 + e.size) := by
  have hnesting : e.nesting < writingLimit := Nat.lt_of_le_of_lt hf.nesting (by decide)
  obtain ⟨data, w, hwrites, -, -, -, hlt⟩ :=
    spends_expression hf writingLimit (fun t ht => Expression.mem_within_of_mem ht) hf.length
      hnesting _ (Counted.empty e)
  refine ⟨data, hwrites.encode, fun hapart => hlt (.inr ?_)⟩
  simpa [Expression.Apart] using hapart

end Codec

end Reckoner
