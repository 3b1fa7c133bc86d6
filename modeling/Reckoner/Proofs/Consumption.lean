import Reckoner.Proofs.Outcome
import Reckoner.Proofs.Size
/-!
How many bytes are taken to read an expression. A reader that succeeds has taken the bytes of what it
read off the stream; while no value is known there is nothing to refer to, so that a thread of
collapsed tokens takes as many bytes as it has (`exhausts_readExpression`).
-/
namespace Reckoner.Codec

open Reals

variable {α β : Type}

/-! Fields. -/

theorem take_eq_ok {count : Nat} {s s' : Stream} {data : List UInt8}
    (h : take count s = (.ok data, s')) :
    data.length = count ∧ s.remaining = data ++ s'.remaining := by
  unfold take at h
  split at h
  · cases h
  · cases h
  · dsimp only at h
    split at h
    · cases h
    · rename_i hlength
      cases h
      refine ⟨?_, (List.take_append_drop count s.remaining).symm⟩
      rw [List.length_take] at hlength ⊢
      omega

theorem length_take {count : Nat} {s s' : Stream} {data : List UInt8}
    (h : take count s = (.ok data, s')) : s.remaining.length = count + s'.remaining.length := by
  obtain ⟨hlength, hremaining⟩ := take_eq_ok h
  rw [hremaining, List.length_append, hlength]

theorem readText_eq_ok {s s' : Stream} {x : String} (h : readText s = (.ok x, s')) :
    ∃ length s₁, take 2 s = (.ok length, s₁) ∧ take (numberOf length) s₁ = (.ok (utf8 x), s') := by
  obtain ⟨length, s₁, hlength, h⟩ := run_bind_eq_ok_iff.1 h
  obtain ⟨data, s₂, hdata, h⟩ := run_bind_eq_ok_iff.1 h
  cases hx : String.fromUTF8? ⟨data.toArray⟩ with
  | none =>
    simp only [hx] at h
    cases h
  | some y =>
    simp only [hx] at h
    cases h
    rw [eq_utf8_of_fromUTF8? hx] at hdata
    exact ⟨length, s₁, hlength, hdata⟩

theorem length_readByte {s s' : Stream} {n : Nat} (h : readByte s = (.ok n, s')) :
    s.remaining.length = 1 + s'.remaining.length := by
  obtain ⟨data, s₁, hdata, h⟩ := run_bind_eq_ok_iff.1 h
  cases h
  exact length_take hdata

theorem length_readBool {s s' : Stream} {b : Bool} (h : readBool s = (.ok b, s')) :
    s.remaining.length = 1 + s'.remaining.length := by
  obtain ⟨n, s₁, hn, h⟩ := run_bind_eq_ok_iff.1 h
  cases h
  exact length_readByte hn

theorem length_readInt {s s' : Stream} {n : Int} (h : readInt s = (.ok n, s')) :
    s.remaining.length = 4 + s'.remaining.length := by
  obtain ⟨data, s₁, hdata, h⟩ := run_bind_eq_ok_iff.1 h
  cases h
  exact length_take hdata

theorem length_readText {s s' : Stream} {x : String} (h : readText s = (.ok x, s')) :
    s.remaining.length = 2 + x.utf8ByteSize + s'.remaining.length := by
  obtain ⟨length, s₁, hlength, hdata⟩ := readText_eq_ok h
  have hcount := (take_eq_ok hdata).1
  rw [length_take hlength, length_take hdata, ← hcount, length_utf8, Nat.add_assoc]

theorem field_eq_ok {r : Reader α} {p p' : Progress} {x : α} (h : field r p = (.ok x, p')) :
    ∃ stream, r p.stream = (.ok x, stream) ∧ p' = { p with stream } := by
  unfold field at h
  split at h
  · rename_i y stream hr
    cases h
    exact ⟨stream, hr, rfl⟩
  · cases h

theorem recalling_eq_ok {q : Recall Failure α} {p p' : Progress} {x : α}
    (h : recalling q p = (.ok x, p')) :
    ∃ memory, q p.memory = (.ok x, memory) ∧ p' = { p with memory } := by
  obtain ⟨hx, rfl⟩ := Prod.mk.inj h
  exact ⟨_, Prod.ext hx rfl, rfl⟩

theorem decode_eq_ok {d : Decoder α} {names names' : Nat} {m m' : Memory} {data : List UInt8} {x : α}
    (h : decode d names m data = (.ok x, names', m')) :
    ∃ p, d ⟨Stream.ofBytes data, Known.empty, names, m⟩ = (.ok x, p) := by
  unfold decode at h
  rcases hd : d ⟨Stream.ofBytes data, Known.empty, names, m⟩ with ⟨result, p⟩
  rw [hd] at h
  exact ⟨p, congrArg (·, p) (Prod.mk.inj h).1⟩

/-! Tokens. -/

/-- How many bytes are ahead. -/
def Progress.left (p : Progress) : Nat := p.stream.remaining.length

/-- Nothing but collapsed tokens is known. -/
def Progress.Sound (p : Progress) : Prop := ∀ k t, p.known.find? k = some t → t.identity? ≠ none

variable {a : Arithmetic} {room : Nat} {inner : Decoder Expression} {p p' : Progress} {t : Token}

theorem readLiteral_eq_ok (h : readLiteral p = (.ok t, p')) :
    ∃ whole s₁ point s₂ fraction s₃, readText p.stream = (.ok whole, s₁) ∧
      readBool s₁ = (.ok point, s₂) ∧ readText s₂ = (.ok fraction, s₃) ∧
      isDigits whole = true ∧ isDigits fraction = true ∧ t = .literal ⟨whole, point, fraction⟩ ∧
      p' = { p with stream := s₃ } := by
  obtain ⟨whole, p₁, hwhole, h⟩ := run_bind_eq_ok_iff.1 h
  obtain ⟨point, p₂, hpoint, h⟩ := run_bind_eq_ok_iff.1 h
  obtain ⟨fraction, p₃, hfraction, h⟩ := run_bind_eq_ok_iff.1 h
  obtain ⟨s₁, hs₁, rfl⟩ := field_eq_ok hwhole
  obtain ⟨s₂, hs₂, rfl⟩ := field_eq_ok hpoint
  obtain ⟨s₃, hs₃, rfl⟩ := field_eq_ok hfraction
  split at h
  · rename_i hdigits
    cases h
    rw [Bool.and_eq_true] at hdigits
    exact ⟨whole, s₁, point, s₂, fraction, s₃, hs₁, hs₂, hs₃, hdigits.1, hdigits.2, rfl, rfl⟩
  · cases h

theorem readLiteral_spends (h : readLiteral p = (.ok t, p')) :
    p'.known = p.known ∧ t.identity? = none ∧ 1 + p.left = t.size + p'.left := by
  obtain ⟨whole, s₁, point, s₂, fraction, s₃, hs₁, hs₂, hs₃, -, -, rfl, rfl⟩ := readLiteral_eq_ok h
  have h₁ := length_readText hs₁
  have h₂ := length_readBool hs₂
  have h₃ := length_readText hs₃
  refine ⟨rfl, rfl, ?_⟩
  simp only [Progress.left, Token.size] at *
  omega

theorem readOperator_spends (h : readOperator p = (.ok t, p')) :
    p'.known = p.known ∧ t.identity? = none ∧ 1 + p.left = t.size + p'.left := by
  obtain ⟨n, p₁, hn, h⟩ := run_bind_eq_ok_iff.1 h
  obtain ⟨s₁, hs₁, rfl⟩ := field_eq_ok hn
  have h₁ := length_readInt hs₁
  cases hk : Key.ofNumber? n with
  | none =>
    simp only [hk] at h
    cases h
  | some k =>
    simp only [hk] at h
    cases h
    refine ⟨rfl, rfl, ?_⟩
    simp only [Progress.left, Token.size] at *
    omega

/-- A collapsed token is a known one, or its expression has been read and it is known from now on. -/
theorem readCollapsed_eq_ok (h : readCollapsed a room inner p = (.ok t, p')) :
    (∃ index, p.known.find? index = some t ∧ p'.known = p.known) ∨
    ∃ index p₁ source p₂ name value context short,
      p₁.known = p.known ∧ p.left = 4 + p₁.left ∧ inner p₁ = (.ok source, p₂) ∧
      t = .collapsed name value source context short ∧ p'.known = p₂.known.register index t ∧
      p₂.left = 1 + (2 + short.utf8ByteSize) + p'.left := by
  obtain ⟨index, p₁, hindex, h⟩ := run_bind_eq_ok_iff.1 h
  obtain ⟨s₁, hs₁, rfl⟩ := field_eq_ok hindex
  have h₁ := length_readInt hs₁
  obtain ⟨_, _, hget, h⟩ := run_bind_eq_ok_iff.1 h
  cases hget
  cases hfind : p.known.find? index with
  | some token =>
    simp only [hfind] at h
    cases h
    exact .inl ⟨index, hfind, rfl⟩
  | none =>
    simp only [hfind] at h
    obtain ⟨source, p₂, hsource, h⟩ := run_bind_eq_ok_iff.1 h
    obtain ⟨degrees, p₃, hdegrees, h⟩ := run_bind_eq_ok_iff.1 h
    obtain ⟨value, p₄, hvalue, h⟩ := run_bind_eq_ok_iff.1 h
    obtain ⟨short, p₅, hshort, h⟩ := run_bind_eq_ok_iff.1 h
    obtain ⟨s₃, hs₃, rfl⟩ := field_eq_ok hdegrees
    obtain ⟨s₅, hs₅, rfl⟩ := field_eq_ok hshort
    obtain ⟨m, -, rfl⟩ := recalling_eq_ok hvalue
    cases h
    have h₃ := length_readBool hs₃
    have h₅ := length_readText hs₅
    refine .inr ⟨index, { p with stream := s₁ }, source, p₂, _, _, _, short, rfl, h₁, hsource, rfl,
      rfl, ?_⟩
    simp only [Progress.left] at *
    omega

theorem readToken_eq_ok (h : readToken a room inner p = (.ok t, p')) :
    ∃ p₁, p₁.known = p.known ∧ p.left = 1 + p₁.left ∧
      (readLiteral p₁ = (.ok t, p') ∨ readOperator p₁ = (.ok t, p') ∨
        readCollapsed a room inner p₁ = (.ok t, p')) := by
  obtain ⟨tag, p₁, htag, h⟩ := run_bind_eq_ok_iff.1 h
  obtain ⟨s₁, hs₁, rfl⟩ := field_eq_ok htag
  refine ⟨{ p with stream := s₁ }, rfl, length_readByte hs₁, ?_⟩
  split at h
  · exact .inl h
  · split at h
    · exact .inr (.inl h)
    · split at h
      · exact .inr (.inr h)
      · cases h

/-- Reading takes at least the bytes of a thread, where no value is known yet. -/
def Exhausts (inner : Decoder Expression) : Prop :=
  ∀ p e p', inner p = (.ok e, p') → p.Sound →
    p'.Sound ∧ (p.known = Known.empty → e.Threaded → p.left = 4 + e.size + p'.left)

theorem sound_register {k : Int} (h : p.Sound) (hk : p'.known = p.known.register k t)
    (ht : t.identity? ≠ none) : p'.Sound := by
  intro k' t' hfind
  rw [hk, Known.find?_register] at hfind
  split at hfind
  · exact Option.some.inj hfind ▸ ht
  · exact h k' t' hfind

theorem exhausts_token (hinner : Exhausts inner) (h : readToken a room inner p = (.ok t, p'))
    (hp : p.Sound) :
    p'.Sound ∧ ((t.identity? = none ∨ p.known = Known.empty ∧ t.Threaded) →
      p.left = t.size + p'.left) := by
  obtain ⟨p₁, hknown, hleft, h⟩ := readToken_eq_ok h
  have hp₁ : p₁.Sound := fun k t hk => hp k t (hknown ▸ hk)
  have hplain : p'.known = p₁.known ∧ t.identity? = none ∧ 1 + p₁.left = t.size + p'.left →
      p'.Sound ∧ ((t.identity? = none ∨ p.known = Known.empty ∧ t.Threaded) →
        p.left = t.size + p'.left) := by
    rintro ⟨hknown', -, hsize⟩
    exact ⟨fun k t hk => hp₁ k t (hknown' ▸ hk), fun _ => by omega⟩
  rcases h with h | h | h
  · exact hplain (readLiteral_spends h)
  · exact hplain (readOperator_spends h)
  · rcases readCollapsed_eq_ok h with ⟨index, hfind, hknown'⟩ |
      ⟨index, p₂, source, p₃, name, value, context, short, hknown₂, hleft₂, hsource, rfl,
        hknown', hleft'⟩
    · refine ⟨fun k t hk => hp₁ k t (hknown' ▸ hk), fun hcase => ?_⟩
      rcases hcase with hid | ⟨hempty, -⟩
      · exact absurd hid (hp₁ index t hfind)
      · rw [hknown, hempty] at hfind
        cases hfind
    · obtain ⟨hp₃, hsize⟩ := hinner _ _ _ hsource fun k t hk => hp₁ k t (hknown₂ ▸ hk)
      refine ⟨sound_register hp₃ hknown' (by simp [Token.identity?]), fun hcase => ?_⟩
      rcases hcase with hid | ⟨hempty, hthreaded⟩
      · cases hid
      · have := hsize (by rw [hknown₂, hknown, hempty]) hthreaded
        simp only [Token.size]
        omega

theorem exhausts_tokens (hinner : Exhausts inner) {count : Nat} {read : List Token}
    {e : Expression} (h : readTokens (readToken a room inner) count read p = (.ok e, p')) (hp : p.Sound) :
    ∃ ts, e = read.reverse ++ ts ∧ p'.Sound ∧
      ((∀ t ∈ ts, t.identity? = none) → p.left = Expression.size ts + p'.left) := by
  induction count generalizing read p with
  | zero =>
    cases h
    exact ⟨[], (List.append_nil _).symm, hp, fun _ => (Nat.zero_add _).symm⟩
  | succ count ih =>
    obtain ⟨t, p₁, ht, h⟩ := run_bind_eq_ok_iff.1 h
    obtain ⟨hp₁, hsize⟩ := exhausts_token hinner ht hp
    obtain ⟨ts, rfl, hp', hsize'⟩ := ih h hp₁
    refine ⟨t :: ts, by simp, hp', fun hplain => ?_⟩
    have h₁ := hsize (.inl (hplain t List.mem_cons_self))
    have h₂ := hsize' fun s hs => hplain s (List.mem_cons_of_mem _ hs)
    simp only [Expression.size]
    omega

theorem exhausts_readExpression (a : Arithmetic) (depth : Nat) :
    Exhausts (readExpression a depth) := by
  induction depth with
  | zero =>
    intro p e p' h
    cases h
  | succ depth ih =>
    intro p e p' h hp
    obtain ⟨count, p₁, hcount, h⟩ := run_bind_eq_ok_iff.1 h
    obtain ⟨s₁, hs₁, rfl⟩ := field_eq_ok hcount
    have h₁ : p.left = 4 + _ := length_readInt hs₁
    split at h
    · cases h
    · -- the first token meets no known value, and no later one is collapsed
      cases hn : count.toNat with
      | zero =>
        rw [hn] at h
        cases h
        exact ⟨hp, fun _ _ => h₁⟩
      | succ n =>
        rw [hn] at h
        obtain ⟨t, p₂, ht, h⟩ := run_bind_eq_ok_iff.1 h
        obtain ⟨hp₂, hsize⟩ := exhausts_token ih ht hp
        obtain ⟨ts, rfl, hp', hsize'⟩ := exhausts_tokens ih h hp₂
        refine ⟨hp', fun hempty hthreaded => ?_⟩
        have h₂ := hsize (.inr ⟨hempty, hthreaded.1⟩)
        have h₃ := hsize' hthreaded.2
        simp only [List.reverse_singleton, List.singleton_append, Expression.size,
          Progress.left] at *
        omega

end Reckoner.Codec
