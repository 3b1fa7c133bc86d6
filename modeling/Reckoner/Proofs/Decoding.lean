import Reckoner.Proofs.Failures
import Reckoner.Proofs.Restore
/-!
What decoding can fail for. Whatever the bytes are, they are read as an expression or refused, as not in
the format or as holding a number that cannot be converted: its characters pass for digits, but one of
them has no place value, or there are too many (`Refusal`). A calculator that refuses keeps its state.
-/
namespace Reckoner.Codec

open Reals

variable {α β : Type}

/-! Bytes that have been read. -/

theorem numberOf_cons (b : UInt8) (data : List UInt8) :
    numberOf (b :: data) = b.toNat * 256 ^ data.length + numberOf data := by
  have hfoldl : ∀ (data : List UInt8) (n : Nat), data.foldl (fun n b => n * 256 + b.toNat) n =
      n * 256 ^ data.length + numberOf data := by
    intro data
    induction data with
    | nil => simp [numberOf]
    | cons b data ih =>
      intro n
      simp only [numberOf, List.foldl_cons, List.length_cons] at ih ⊢
      rw [ih, ih (0 * 256 + b.toNat), Nat.pow_succ]
      ring
  rw [numberOf, List.foldl_cons, hfoldl]
  simp

theorem numberOf_lt (data : List UInt8) : numberOf data < 256 ^ data.length := by
  induction data with
  | nil => simp [numberOf]
  | cons b data ih =>
    have hb := b.toNat_lt
    rw [numberOf_cons, List.length_cons, Nat.pow_succ]
    nlinarith

/-- Only the last bytes of a number count. -/
theorem bytesOf_add_numberOf (n : Nat) (data : List UInt8) :
    bytesOf data.length (n * 256 ^ data.length + numberOf data) = data := by
  induction data generalizing n with
  | nil => simp [bytesOf]
  | cons b data ih =>
    have hsplit : n * 256 ^ (data.length + 1) + numberOf (b :: data) =
        (n * 256 + b.toNat) * 256 ^ data.length + numberOf data := by
      rw [numberOf_cons, Nat.pow_succ]
      ring
    rw [List.length_cons, bytesOf_succ, hsplit, ih, Nat.shiftRight_eq_div_pow, Nat.pow_mul,
      Nat.add_comm, Nat.add_mul_div_right _ _ (by positivity),
      Nat.div_eq_of_lt (numberOf_lt data), Nat.zero_add]
    simp

theorem bytesOf_numberOf (data : List UInt8) : bytesOf data.length (numberOf data) = data := by
  have h := bytesOf_add_numberOf 0 data
  rwa [Nat.zero_mul, Nat.zero_add] at h

theorem remaining_readText {s s' : Stream} {x : String} (h : readText s = (.ok x, s')) :
    s.remaining = textBytes x ++ s'.remaining := by
  obtain ⟨length, s₁, hlength, hdata⟩ := readText_eq_ok h
  obtain ⟨hcount, hremaining⟩ := take_eq_ok hlength
  obtain ⟨hsize, hremaining'⟩ := take_eq_ok hdata
  have hbytes := bytesOf_numberOf length
  rw [hcount] at hbytes
  rw [hremaining, hremaining', textBytes, hsize, hbytes, List.append_assoc]

theorem remaining_readBool {s s' : Stream} {b : Bool} (h : readBool s = (.ok b, s')) :
    ∃ byte : UInt8, (b = true ↔ byte ≠ 0) ∧ s.remaining = byte :: s'.remaining := by
  obtain ⟨n, s₁, hn, h⟩ := run_bind_eq_ok_iff.1 h
  obtain ⟨data, s₂, hdata, hn⟩ := run_bind_eq_ok_iff.1 hn
  cases hn
  cases h
  obtain ⟨hlength, hremaining⟩ := take_eq_ok hdata
  obtain ⟨byte, rfl⟩ := List.length_eq_one_iff.1 hlength
  refine ⟨byte, ?_, hremaining⟩
  simp [numberOf, ← UInt8.toNat_inj]

/-- The fields of a number stand together somewhere in the data. -/
def Holds (data : List UInt8) (l : Literal) : Prop :=
  ∃ before after, ∃ point : UInt8, (l.point = true ↔ point ≠ 0) ∧
    data = before ++ (textBytes l.whole ++ point :: textBytes l.fraction) ++ after

/-- What data are refused for: they are not in the format, or a number in them has nothing but digits of
some kind and still cannot be converted. -/
def Refusal (data : List UInt8) (e : Failure) : Prop :=
  (∃ cause, e = .format cause) ∨
    ∃ cause l, e = .numeral cause ∧ Holds data l ∧ isDigits l.whole ∧ isDigits l.fraction ∧
      ¬ l.Convertible

/-- What a reader of some data keeps to: the bytes ahead are the last ones of the data, and nothing but
collapsed tokens is known. -/
structure Progress.Within (data : List UInt8) (p : Progress) : Prop where
  ahead : p.stream.remaining <:+ data
  known : p.Sound

/-- A decoder that finds such things only in the data, or refuses them. -/
structure Finds (data : List UInt8) (d : Decoder α) (found : α → Prop) : Prop where
  ok : ∀ {p x p'}, p.Within data → d p = (.ok x, p') → p'.Within data ∧ found x
  error : ∀ {p e p'}, p.Within data → d p = (.error e, p') → Refusal data e

variable {data : List UInt8} {found : α → Prop} {a : Arithmetic} {room : Nat}
  {inner : Decoder Expression}

namespace Finds

theorem bind {d : Decoder α} {f : α → Decoder β} {found' : β → Prop} (hd : Finds data d found)
    (hf : ∀ x, found x → Finds data (f x) found') : Finds data (d >>= f) found' := by
  constructor
  · intro p y p' hp h
    obtain ⟨x, p₁, hx, h⟩ := run_bind_eq_ok_iff.1 h
    obtain ⟨hp₁, hfound⟩ := hd.ok hp hx
    exact (hf x hfound).ok hp₁ h
  · intro p e p' hp h
    rcases run_bind_eq_error_iff.1 h with h | ⟨x, p₁, hx, h⟩
    · exact hd.error hp h
    · obtain ⟨hp₁, hfound⟩ := hd.ok hp hx
      exact (hf x hfound).error hp₁ h

theorem pure {x : α} (hx : found x) : Finds data (pure x) found := by
  constructor
  · intro p y p' hp h
    cases h
    exact ⟨hp, hx⟩
  · intro p e p' hp h
    cases h

theorem format (cause : FormatError) : Finds data (throw (.format cause) : Decoder α) found := by
  constructor
  · intro p x p' hp h
    cases h
  · intro p e p' hp h
    cases h
    exact .inl ⟨cause, rfl⟩

theorem field {r : Reader α}
    (hr : ∀ x s s', r s = (.ok x, s') → s'.remaining <:+ s.remaining) :
    Finds data (field r) fun _ => True := by
  constructor
  · intro p x p' hp h
    obtain ⟨s, hs, rfl⟩ := field_eq_ok h
    exact ⟨⟨List.IsSuffix.trans (hr _ _ _ hs) hp.ahead, hp.known⟩, trivial⟩
  · intro p e p' hp h
    unfold Codec.field at h
    split at h <;> cases h
    exact .inl ⟨_, rfl⟩

theorem byte : Finds data (Codec.field readByte) fun _ => True := by
  apply field
  intro n s s' h
  obtain ⟨bytes, s₁, hbytes, h⟩ := run_bind_eq_ok_iff.1 h
  cases h
  exact ⟨bytes, (take_eq_ok hbytes).2.symm⟩

theorem bool : Finds data (Codec.field readBool) fun _ => True := by
  apply field
  intro b s s' h
  obtain ⟨byte, -, hs⟩ := remaining_readBool h
  exact ⟨[byte], hs.symm⟩

theorem int : Finds data (Codec.field readInt) fun _ => True := by
  apply field
  intro n s s' h
  obtain ⟨bytes, s₁, hbytes, h⟩ := run_bind_eq_ok_iff.1 h
  cases h
  exact ⟨bytes, (take_eq_ok hbytes).2.symm⟩

theorem text : Finds data (Codec.field readText) fun _ => True := by
  apply field
  intro x s s' h
  exact ⟨textBytes x, (remaining_readText h).symm⟩

end Finds

/-- A token whose number, if it is one, is held by the data. -/
def FoundToken (data : List UInt8) (t : Token) : Prop :=
  ∀ l, t = .literal l → Holds data l ∧ isDigits l.whole ∧ isDigits l.fraction

/-- The three fields of a number follow each other. -/
theorem found_of_readLiteral {p p' : Progress} {t : Token} (hp : p.Within data)
    (h : readLiteral p = (.ok t, p')) : p'.Within data ∧ FoundToken data t := by
  obtain ⟨whole, s₁, point, s₂, fraction, s₃, hs₁, hs₂, hs₃, hwhole, hfraction, rfl, rfl⟩ :=
    readLiteral_eq_ok h
  have h₁ := remaining_readText hs₁
  obtain ⟨byte, hbyte, h₂⟩ := remaining_readBool hs₂
  have h₃ := remaining_readText hs₃
  obtain ⟨before, hbefore⟩ := hp.ahead
  have hdata : data =
      before ++ (textBytes whole ++ byte :: textBytes fraction) ++ s₃.remaining := by
    rw [← hbefore, h₁, h₂, h₃]
    simp
  constructor
  · exact ⟨⟨before ++ (textBytes whole ++ byte :: textBytes fraction), hdata.symm⟩, hp.known⟩
  · intro l hl
    cases hl
    exact ⟨⟨before, s₃.remaining, byte, hbyte, hdata⟩, hwhole, hfraction⟩

theorem finds_literal : Finds data readLiteral (FoundToken data) := by
  constructor
  · intro p t p' hp h
    exact found_of_readLiteral hp h
  · have hrefuses : Finds data readLiteral fun _ => True := by
      apply Finds.text.bind
      intro whole _
      apply Finds.bool.bind
      intro point _
      apply Finds.text.bind
      intro fraction _
      split
      · exact .pure trivial
      · exact .format _
    intro p e p' hp h
    exact hrefuses.error hp h

theorem finds_operator : Finds data readOperator (FoundToken data) := by
  apply Finds.int.bind
  intro n _
  cases Key.ofNumber? n with
  | none => exact .format _
  | some k =>
    apply Finds.pure
    intro l hl
    cases hl

/-- An expression whose numbers are held by the data. -/
def FoundExpression (data : List UInt8) (e : Expression) : Prop := ∀ t ∈ e, FoundToken data t

/-- An expression from the data is evaluated, or refused. -/
theorem finds_value {context : Context} {source : Expression} (hsource : FoundExpression data source) :
    Finds data (recalling (savedValue a room context source)) fun _ => True := by
  constructor
  · intro p x p' hp h
    obtain ⟨m, -, rfl⟩ := recalling_eq_ok h
    exact ⟨⟨hp.ahead, hp.known⟩, trivial⟩
  · intro p e p' hp h
    obtain ⟨cause, hcause, rfl⟩ := mapError_eq_error_iff.1 (Prod.mk.inj h).1
    rcases Grammar.evaluateWithin_error hcause with ⟨cause, rfl⟩ | ⟨cause, rfl⟩ |
      ⟨cause, l, rfl, hl, hnot⟩
    · exact .inl ⟨_, rfl⟩
    · exact .inl ⟨_, rfl⟩
    · obtain ⟨hholds, hwhole, hfraction⟩ := hsource _ (List.mem_of_mem_take hl) l rfl
      exact .inr ⟨cause, l, rfl, hholds, hwhole, hfraction, hnot⟩

theorem finds_newCollapsed {value : Dual} {source : Expression} {context : Context} {short : String} :
    Finds data (newCollapsed value source context short) fun t => t.identity? ≠ none := by
  constructor
  · intro p t p' hp h
    cases h
    constructor
    · exact ⟨hp.ahead, hp.known⟩
    · simp [Token.identity?]
  · intro p e p' hp h
    cases h

theorem finds_get : Finds data (get : Decoder Progress) (Progress.Within data) := by
  constructor
  · intro p x p' hp h
    cases h
    exact ⟨hp, hp⟩
  · intro p e p' hp h
    cases h

theorem finds_register {t : Token} (ht : t.identity? ≠ none) (index : Int) :
    Finds data (modify fun p => { p with known := p.known.register index t } : Decoder Unit)
      fun _ => True := by
  constructor
  · intro p x p' hp h
    cases h
    exact ⟨⟨hp.ahead, sound_register hp.known rfl ht⟩, trivial⟩
  · intro p e p' hp h
    cases h

theorem foundToken_of_identity? {t : Token} (ht : t.identity? ≠ none) : FoundToken data t := by
  rintro l rfl
  exact absurd rfl ht

theorem finds_collapsed (hinner : Finds data inner (FoundExpression data)) :
    Finds data (readCollapsed a room inner) (FoundToken data) := by
  apply Finds.int.bind
  intro index _
  apply finds_get.bind
  intro p hp
  cases hfind : p.known.find? index with
  | some t =>
    apply Finds.pure
    exact foundToken_of_identity? (hp.known index t hfind)
  | none =>
    apply hinner.bind
    intro source hsource
    apply Finds.bool.bind
    intro degrees _
    apply (finds_value hsource).bind
    intro value _
    apply Finds.text.bind
    intro short _
    apply finds_newCollapsed.bind
    intro t ht
    apply (finds_register ht index).bind
    intro _ _
    exact .pure (foundToken_of_identity? ht)

theorem finds_token (hinner : Finds data inner (FoundExpression data)) :
    Finds data (readToken a room inner) (FoundToken data) := by
  apply Finds.byte.bind
  intro tag _
  by_cases hliteral : tag = literalTag
  · rw [if_pos hliteral]
    exact finds_literal
  · rw [if_neg hliteral]
    by_cases hoperator : tag = operatorTag
    · rw [if_pos hoperator]
      exact finds_operator
    · rw [if_neg hoperator]
      by_cases hcollapsed : tag = collapsedTag
      · rw [if_pos hcollapsed]
        exact finds_collapsed hinner
      · rw [if_neg hcollapsed]
        exact .format _

theorem finds_tokens {one : Decoder Token} (hone : Finds data one (FoundToken data)) (count : Nat)
    {read : List Token} (hread : FoundExpression data read) :
    Finds data (readTokens one count read) (FoundExpression data) := by
  induction count generalizing read with
  | zero =>
    apply Finds.pure
    intro t ht
    exact hread t (List.mem_reverse.1 ht)
  | succ count ih =>
    apply hone.bind
    intro t ht
    apply ih
    exact List.forall_mem_cons.2 ⟨ht, hread⟩

theorem finds_expression (a : Arithmetic) (data : List UInt8) (depth : Nat) :
    Finds data (readExpression a depth) (FoundExpression data) := by
  induction depth with
  | zero => exact .format _
  | succ depth ih =>
    apply Finds.int.bind
    intro count _
    split
    · exact .format _
    · apply finds_tokens (finds_token ih)
      intro t ht
      cases ht

/-- What is decoded from the start of some data, or why it is not. -/
theorem refusal_of_decode {d : Decoder α} (hd : Finds data d found) {names : Nat} {m : Memory}
    {e : Failure} (h : (decode d names m data).1 = .error e) : Refusal data e := by
  rcases hrun : d ⟨Stream.ofBytes data, Known.empty, names, m⟩ with ⟨result, p⟩
  have hresult : result = .error e := by
    rw [← h, decode, hrun]
  have hstart : Progress.Within data ⟨Stream.ofBytes data, Known.empty, names, m⟩ := by
    constructor
    · exact List.suffix_refl data
    · intro index t ht
      cases ht
  exact hd.error hstart (hresult ▸ hrun)

theorem refusal_of_loads {a : Arithmetic} {names : Nat} {m : Memory} {e : Failure}
    (h : (loads a names m data).1 = .error e) : Refusal data e :=
  refusal_of_decode (finds_expression a data _) h

theorem refusal_of_loadsState {a : Arithmetic} {names : Nat} {m : Memory} {e : Failure}
    (h : (loadsState a names m data).1 = .error e) : Refusal data e := by
  refine refusal_of_decode (?_ : Finds data _ fun _ => True) h
  apply Finds.bool.bind
  intro degrees _
  apply (finds_expression a data _).bind
  intro source _
  exact .pure trivial

end Reckoner.Codec

namespace Reckoner.Calculator

open Reals

/-- Every string of bytes is read as an expression or refused, and a calculator has its state restored
from it or refuses it; one that refuses keeps everything but the next free name and what is kept of the
numbers evaluated. -/
theorem loads_or_refusal (a : Arithmetic) (names : Nat) (m : Memory) (data : List UInt8)
    (c : Calculator) :
    ((∃ e, (Codec.loads a names m data).1 = .ok e) ∨
      ∃ e, (Codec.loads a names m data).1 = .error e ∧ Codec.Refusal data e) ∧
    ((c.restore a data).1 = .ok () ∨
      ∃ e names' m', c.restore a data = (.error e, { c with names := names', memory := m' }) ∧
        Codec.Refusal data e) := by
  constructor
  · rcases hloads : (Codec.loads a names m data).1 with e | expression
    · exact .inr ⟨e, rfl, Codec.refusal_of_loads hloads⟩
    · exact .inl ⟨expression, rfl⟩
  · unfold restore
    rcases hloads : Codec.loadsState a c.names c.memory data with
      ⟨e | ⟨degrees, expression⟩, names', m'⟩
    · exact .inr ⟨e, names', m', rfl, Codec.refusal_of_loadsState (congrArg Prod.fst hloads)⟩
    · exact .inl rfl

/-- A superscript two passes for a digit, but has no place value. -/
theorem loads_superscript :
    let data : List UInt8 :=
      [0, 0, 0, 1, 2, 0, 0, 0, 1, 0, 0, 0, 1, 0, 0, 2, 0xc2, 0xb2, 0, 0, 0, 0, 0, 0]
    (Codec.loads shippedArithmetic 0 Memory.empty data).1 = .error (.numeral .malformed) ∧
      (fresh.restore shippedArithmetic (1 :: data)).1 = .error (.numeral .malformed) ∧
      ¬ ((∃ e, (Codec.loads shippedArithmetic 0 Memory.empty data).1 = .ok e) ∨
        ∃ cause, (Codec.loads shippedArithmetic 0 Memory.empty data).1 = .error (.format cause)) := by
  intro data
  have hloads : (Codec.loads shippedArithmetic 0 Memory.empty data).1 =
      .error (.numeral .malformed) := by cbv
  refine ⟨hloads, by cbv, ?_⟩
  rw [hloads]
  rintro (⟨e, h⟩ | ⟨cause, h⟩) <;> cases h

end Reckoner.Calculator
