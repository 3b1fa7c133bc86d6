import Reckoner.Proofs.Decoding
/-!
Which bytes are read as which tokens. A step that succeeds takes some bytes ahead: of these it needs
every one, and what follows them it does not look at (`Takes`). `Encodes` says so of a sequence of
tokens, with what is known before and after and with the value that each new collapsed token gets, and
whatever tokens are read are encoded by the bytes taken (`exists_encodes`).
-/
namespace Reckoner.Codec

open Reals

variable {α β : Type} {d : Decoder α} {s s' s'' : Knowledge} {data data' : List UInt8} {x : α} {y : β}

/-- A decoder takes exactly these bytes, whatever follows them, and finds that something is missing if
it is given fewer. -/
structure Takes (d : Decoder α) (data : List UInt8) (s : Knowledge) (x : α) (s' : Knowledge) :
    Prop where
  decodes : Decodes d data s x s'
  starves : ∀ m < data.length, ∀ position, ∃ p,
    d (s.over ⟨.sound, data.take m, position⟩) = (.error (.format .truncated), p)

namespace Takes

theorem bind {f : α → Decoder β} (hd : Takes d data s x s') (hf : Takes (f x) data' s' y s'') :
    Takes (d >>= f) (data ++ data') s y s'' where
  decodes := hd.decodes.bind hf.decodes
  starves m hm position := by
    rw [List.length_append] at hm
    rcases lt_or_ge m data.length with hlt | hge
    · -- the cut is within the bytes of the first step
      obtain ⟨p, hp⟩ := hd.starves m hlt position
      rw [List.take_append_of_le_length hlt.le]
      exact ⟨p, run_bind_eq_error_iff.2 (.inl hp)⟩
    · obtain ⟨p, hp⟩ := hf.starves (m - data.length) (by omega) (position + data.length)
      rw [List.take_append, List.take_of_length_le hge]
      exact ⟨p, run_bind_eq_error_iff.2 (.inr ⟨x, _, hd.decodes _ position, hp⟩)⟩

theorem of_nil (h : Decodes d [] s x s') : Takes d [] s x s' :=
  ⟨h, fun m hm => absurd hm (Nat.not_lt_zero m)⟩

theorem pure (s : Knowledge) (x : α) : Takes (Pure.pure x) [] s x s := of_nil (decodes_pure s x)

/-- What is left to do after the last byte. -/
theorem done {f : α → Decoder β} (hd : Takes d data s x s') (hf : Decodes (f x) [] s' y s'') :
    Takes (d >>= f) data s y s'' := by
  have h := hd.bind (of_nil hf)
  rwa [List.append_nil] at h

/-- What there is to do before the first byte. -/
theorem start {f : α → Decoder β} (hd : Decodes d [] s x s') (hf : Takes (f x) data s' y s'') :
    Takes (d >>= f) data s y s'' :=
  (of_nil hd).bind hf

theorem get {f : Progress → Decoder α} (h : ∀ stream, Takes (f (s.over stream)) data s x s') :
    Takes (MonadState.get >>= f) data s x s' :=
  ⟨decodes_get fun stream => (h stream).decodes, fun m hm position =>
    (h ⟨.sound, data.take m, position⟩).starves m hm position⟩

/-- The bytes that are taken are enough, and every one of them is needed. -/
theorem decode {names : ℕ} {memory : Memory} (h : Takes d data ⟨Known.empty, names, memory⟩ x s') :
    (∀ rest, Codec.decode d names memory (data ++ rest) = (.ok x, s'.names, s'.memory)) ∧
      ∀ m < data.length,
        (Codec.decode d names memory (data.take m)).1 = .error (.format .truncated) := by
  refine ⟨h.decodes.decode, fun m hm => ?_⟩
  obtain ⟨p, hp⟩ := h.starves m hm 0
  exact congrArg Prod.fst hp

end Takes

/-- Whatever a decoder succeeds with, it takes from the bytes ahead, and nothing else that is known
plays a part. -/
structure Plain (d : Decoder α) : Prop where
  taken : ∀ {remaining position} {s : Knowledge} {x p},
    d (s.over ⟨.sound, remaining, position⟩) = (.ok x, p) →
      ∃ data rest, remaining = data ++ rest ∧ (∀ s, Takes d data s x s) ∧
        p = s.over ⟨.sound, rest, position + data.length⟩

namespace Plain

theorem of_taken
    (h : ∀ {remaining position} {s : Knowledge} {x p},
      d (s.over ⟨.sound, remaining, position⟩) = (.ok x, p) →
        ∃ data rest, remaining = data ++ rest ∧ ∀ s, Takes d data s x s) : Plain d := by
  constructor
  intro remaining position s x p hd
  obtain ⟨data, rest, rfl, htakes⟩ := h hd
  exact ⟨data, rest, rfl, htakes,
    (Prod.mk.inj (hd.symm.trans ((htakes s).decodes rest position))).2⟩

theorem bind {f : α → Decoder β} (hd : Plain d) (hf : ∀ x, Plain (f x)) : Plain (d >>= f) := by
  apply of_taken
  intro remaining position s y p h
  obtain ⟨x, p₁, hx, hy⟩ := run_bind_eq_ok_iff.1 h
  obtain ⟨data, rest, rfl, htakes, rfl⟩ := hd.taken hx
  obtain ⟨data', rest', rfl, htakes', -⟩ := (hf x).taken hy
  exact ⟨data ++ data', rest', (List.append_assoc ..).symm, fun s => (htakes s).bind (htakes' s)⟩

theorem pure (x : α) : Plain (Pure.pure x : Decoder α) := by
  apply of_taken
  intro remaining position s y p h
  cases h
  exact ⟨[], remaining, rfl, fun s => .pure s x⟩

theorem throw (e : Failure) : Plain (throw e : Decoder α) := by
  apply of_taken
  intro remaining position s y p h
  cases h

end Plain

/-! Fields. -/

theorem field_bind (r : Reader α) (f : α → Reader β) :
    field (r >>= f) = field r >>= fun x => field (f x) := by
  funext p
  simp only [field, Bind.bind, ExceptT.bind, ExceptT.mk, StateT.bind]
  rcases r p.stream with ⟨e | x, stream⟩ <;> rfl

theorem plain_field_bind {r : Reader α} {f : α → Reader β} (hr : Plain (field r))
    (hf : ∀ x, Plain (field (f x))) : Plain (field (r >>= f)) := by
  rw [field_bind]
  exact hr.bind hf

theorem plain_take (count : ℕ) : Plain (field (take count)) := by
  apply Plain.of_taken
  intro remaining position s data p h
  obtain ⟨stream, hdata, -⟩ := field_eq_ok h
  obtain ⟨hlength, hremaining⟩ := take_eq_ok hdata
  refine ⟨data, stream.remaining, hremaining, fun s =>
    ⟨decodes_field (yields_take hlength) s, fun m hm position => ?_⟩⟩
  have hshort : ((data.take m).take count).length < count := by
    simp only [List.length_take]
    omega
  have htake : take count ⟨.sound, data.take m, position⟩ = (.error .truncated, _) := if_pos hshort
  simp only [field, Knowledge.over, htake]
  exact ⟨_, rfl⟩

theorem plain_pure (x : α) : Plain (field (pure x)) := Plain.pure x

theorem plain_byte : Plain (field readByte) := plain_field_bind (plain_take 1) fun _ => plain_pure _

theorem plain_bool : Plain (field readBool) := plain_field_bind plain_byte fun _ => plain_pure _

theorem plain_int : Plain (field readInt) := plain_field_bind (plain_take 4) fun _ => plain_pure _

/-- The length of a text comes first, so that a cut inside a character is found before it is decoded. -/
theorem plain_text : Plain (field readText) := by
  refine plain_field_bind (plain_take 2) fun length => ?_
  refine plain_field_bind (plain_take (numberOf length)) fun data => ?_
  cases String.fromUTF8? ⟨data.toArray⟩ with
  | some s => exact plain_pure s
  | none => exact Plain.throw (.format .invalidText)

theorem plain_literal : Plain readLiteral := by
  refine plain_text.bind fun whole => plain_bool.bind fun point => plain_text.bind fun fraction => ?_
  split
  · exact .pure _
  · exact .throw _

theorem plain_operator : Plain readOperator := by
  refine plain_int.bind fun number => ?_
  cases Key.ofNumber? number with
  | some k => exact .pure _
  | none => exact .throw _

/-! Tokens. -/

/-- The bytes are those of a field, and `x` is in it. -/
def InField (r : Reader α) (data : List UInt8) (x : α) : Prop := ∀ s, Takes (field r) data s x s

/-- The bytes encode these tokens, in which collapsed ones nest to at most `depth`: a number or an
operator, a collapsed token that is known by its index, or one that is new, with the expression inside
it. -/
inductive Encodes (a : Arithmetic) : ℕ → List UInt8 → Knowledge → List Token → Knowledge → Prop where
  | nil {depth : ℕ} {s : Knowledge} : Encodes a depth [] s [] s
  | plain {depth : ℕ} {data rest : List UInt8} {s s' : Knowledge} {t : Token} {ts : List Token}
      (hid : t.identity? = none)
      (ht : ∀ (room : ℕ) (inner : Decoder Expression) (s : Knowledge),
        Takes (readToken a room inner) data s t s)
      (h : Encodes a depth rest s ts s') : Encodes a depth (data ++ rest) s (t :: ts) s'
  | reference {depth : ℕ} {tag data rest : List UInt8} {index : ℤ} {s s' : Knowledge} {t : Token}
      {ts : List Token} (htag : InField readByte tag collapsedTag)
      (hindex : InField readInt data index) (ht : s.known.find? index = some t)
      (h : Encodes a depth rest s ts s') :
      Encodes a depth (tag ++ data ++ rest) s (t :: ts) s'
  | collapsed {depth : ℕ} {tag data count inside unit text rest : List UInt8} {index : ℤ}
      {source : Expression} {degrees : Bool} {short : String} {x : Dual} {memory : Memory}
      {s s₁ s' : Knowledge} {ts : List Token}
      (htag : InField readByte tag collapsedTag) (hindex : InField readInt data index)
      (hnew : s.known.find? index = none) (hcount : InField readInt count (source.length : ℤ))
      (hsource : Encodes a depth inside s source s₁) (hunit : InField readBool unit degrees)
      (hvalue : Grammar.evaluateWithin (a.mode degrees) (evaluationRoom (depth + 1)) source.length
        source s₁.memory = (.ok x, memory))
      (hshort : InField readText text short)
      (h : Encodes a (depth + 1) rest
        ⟨s₁.known.register index
          (.collapsed s₁.names (x.keptAs s₁.names) source ⟨degrees, source.length⟩ short),
          s₁.names + 1, memory⟩ ts s') :
      Encodes a (depth + 1) (tag ++ (data ++ (count ++ inside ++ (unit ++ text))) ++ rest) s
        (.collapsed s₁.names (x.keptAs s₁.names) source ⟨degrees, source.length⟩ short :: ts) s'

variable {a : Arithmetic} {room depth count : ℕ} {inner : Decoder Expression}
  {tag inside unit text : List UInt8} {index : ℤ} {source : Expression} {degrees : Bool} {short : String}
  {memory : Memory} {t : Token} {ts read : List Token} {s₁ : Knowledge} {v : Dual}

theorem takes_literal (htag : InField readByte tag literalTag) (h : Takes readLiteral data s t s) :
    Takes (readToken a room inner) (tag ++ data) s t s :=
  (htag s).bind h

theorem takes_operator (htag : InField readByte tag operatorTag) (h : Takes readOperator data s t s) :
    Takes (readToken a room inner) (tag ++ data) s t s :=
  (htag s).bind h

theorem takes_reference (htag : InField readByte tag collapsedTag) (hindex : InField readInt data index)
    (ht : s.known.find? index = some t) :
    Takes (readToken a room inner) (tag ++ data) s t s := by
  refine (htag s).bind ((hindex s).done (decodes_get fun stream => ?_))
  simp only [Knowledge.over, ht]
  exact decodes_pure s t

theorem takes_collapsed (htag : InField readByte tag collapsedTag) (hindex : InField readInt data index)
    (hnew : s.known.find? index = none) (hsource : Takes inner inside s source s₁)
    (hunit : InField readBool unit degrees)
    (hvalue : Grammar.evaluateWithin (a.mode degrees) room source.length source s₁.memory =
      (.ok v, memory))
    (hshort : InField readText text short) :
    Takes (readToken a room inner) (tag ++ (data ++ (inside ++ (unit ++ text)))) s
      (.collapsed s₁.names (v.keptAs s₁.names) source ⟨degrees, source.length⟩ short)
      ⟨s₁.known.register index
        (.collapsed s₁.names (v.keptAs s₁.names) source ⟨degrees, source.length⟩ short),
        s₁.names + 1, memory⟩ := by
  have hsaved : savedValue a room ⟨degrees, source.length⟩ source s₁.memory = (.ok v, memory) :=
    savedValue_eq_ok hvalue
  refine (htag s).bind ((hindex s).bind (.get fun stream => ?_))
  simp only [Knowledge.over, hnew]
  refine hsource.bind ((hunit s₁).bind (.start (decodes_recalling hsaved) ((hshort _).done ?_)))
  exact fun _ _ => rfl

/-- Reads an expression after its number of tokens. -/
theorem takes_expression {bytes : List UInt8} (hcount : InField readInt bytes (source.length : ℤ))
    (h : Takes
      (readTokens (readToken a (evaluationRoom depth) (readExpression a depth)) source.length []) data s
      source s') :
    Takes (readExpression a (depth + 1)) (bytes ++ data) s source s' := by
  refine (hcount s).bind ?_
  have hnat : ¬ (source.length : ℤ) < 0 := by omega
  simp only [if_neg hnat, Int.toNat_natCast]
  exact h

theorem takes_cons {one : Decoder Token} {rest : List UInt8} (ht : Takes one data s t s₁)
    (hts : Takes (readTokens one count (t :: read)) rest s₁ ((t :: read).reverse ++ ts) s') :
    Takes (readTokens one (count + 1) read) (data ++ rest) s (read.reverse ++ t :: ts) s' := by
  rw [List.reverse_cons, List.append_assoc] at hts
  exact ht.bind hts

/-- Tokens are read from the bytes that encode them. -/
theorem Encodes.takes (h : Encodes a depth data s ts s') (read : List Token) :
    Takes (readTokens (readToken a (evaluationRoom depth) (readExpression a depth)) ts.length read) data
      s (read.reverse ++ ts) s' := by
  induction h generalizing read with
  | nil =>
    rw [List.append_nil]
    exact .pure _ _
  | plain _ ht _ ih => exact takes_cons (ht _ _ _) (ih _)
  | reference htag hindex ht _ ih => exact takes_cons (takes_reference htag hindex ht) (ih _)
  | collapsed htag hindex hnew hcount _ hunit hvalue hshort _ ihsource ih =>
    have hsource := takes_expression hcount (ihsource [])
    exact takes_cons (takes_collapsed htag hindex hnew hsource hunit hvalue hshort) (ih _)

/-! What is read is encoded. -/

/-- The bytes encode this token where it stands before others. -/
def EncodesHead (a : Arithmetic) (depth : ℕ) (data : List UInt8) (s : Knowledge) (t : Token)
    (s₁ : Knowledge) : Prop :=
  ∀ {bytes ts s'}, Encodes a depth bytes s₁ ts s' → Encodes a depth (data ++ bytes) s (t :: ts) s'

/-- The expressions that are read inside tokens are encoded, with their number of tokens. -/
def ReadsEncoded (a : Arithmetic) (depth : ℕ) (inner : Decoder Expression) : Prop :=
  ∀ {remaining position} {s : Knowledge} {source p},
    inner (s.over ⟨.sound, remaining, position⟩) = (.ok source, p) →
      ∃ depth' count data rest s', depth = depth' + 1 ∧ remaining = count ++ data ++ rest ∧
        InField readInt count (source.length : ℤ) ∧ Encodes a depth' data s source s' ∧
        p = s'.over ⟨.sound, rest, position + (count ++ data).length⟩

variable {remaining rest : List UInt8} {position : ℕ} {p : Progress}

theorem exists_encodesHead_collapsed (hinner : ReadsEncoded a depth inner)
    (htag : InField readByte tag collapsedTag)
    (h : readCollapsed a (evaluationRoom depth) inner (s.over ⟨.sound, remaining, position⟩) =
      (.ok t, p)) :
    ∃ data rest s₁, remaining = data ++ rest ∧
      p = s₁.over ⟨.sound, rest, position + data.length⟩ ∧ EncodesHead a depth (tag ++ data) s t s₁ := by
  obtain ⟨index, p₁, hindex, h⟩ := run_bind_eq_ok_iff.1 h
  obtain ⟨bytes, rest, rfl, hindexField, rfl⟩ := plain_int.taken hindex
  obtain ⟨_, _, hget, h⟩ := run_bind_eq_ok_iff.1 h
  cases hget
  cases hfind : s.known.find? index with
  | some token =>
    simp only [Knowledge.over, hfind] at h
    cases h
    exact ⟨bytes, rest, s, rfl, rfl, .reference htag hindexField hfind⟩
  | none =>
    simp only [Knowledge.over, hfind] at h
    obtain ⟨source, p₂, hsource, h⟩ := run_bind_eq_ok_iff.1 h
    obtain ⟨depth', count, inside, rest, s₁, rfl, rfl, hcount, hencodes, rfl⟩ := hinner hsource
    obtain ⟨degrees, p₃, hdegrees, h⟩ := run_bind_eq_ok_iff.1 h
    obtain ⟨unit, rest, rfl, hunit, rfl⟩ := plain_bool.taken hdegrees
    obtain ⟨value, p₄, hvalue, h⟩ := run_bind_eq_ok_iff.1 h
    obtain ⟨memory, hsaved, rfl⟩ := recalling_eq_ok hvalue
    obtain ⟨short, p₅, hshort, h⟩ := run_bind_eq_ok_iff.1 h
    obtain ⟨text, rest, rfl, htext, rfl⟩ := plain_text.taken (s := ⟨s₁.known, s₁.names, memory⟩) hshort
    cases h
    refine ⟨bytes ++ (count ++ inside ++ (unit ++ text)), rest, _, by simp, ?_, fun htail =>
      .collapsed htag hindexField hfind hcount hencodes hunit (Recall.mapError_eq_ok_iff.1 hsaved)
        htext htail⟩
    simp [Knowledge.over, Nat.add_assoc]

theorem exists_encodesHead (hinner : ReadsEncoded a depth inner)
    (h : readToken a (evaluationRoom depth) inner (s.over ⟨.sound, remaining, position⟩) =
      (.ok t, p)) :
    ∃ data rest s₁, remaining = data ++ rest ∧
      p = s₁.over ⟨.sound, rest, position + data.length⟩ ∧ EncodesHead a depth data s t s₁ := by
  obtain ⟨byte, p₁, hbyte, h⟩ := run_bind_eq_ok_iff.1 h
  obtain ⟨tag, rest, rfl, htag, rfl⟩ := plain_byte.taken hbyte
  by_cases hliteral : byte = literalTag
  · subst hliteral
    have hid := (readLiteral_spends h).2.1
    obtain ⟨data, rest, rfl, htakes, rfl⟩ := plain_literal.taken h
    exact ⟨tag ++ data, rest, s, by simp, by simp [Nat.add_assoc],
      .plain hid fun _ _ s => takes_literal htag (htakes s)⟩
  · rw [if_neg hliteral] at h
    by_cases hoperator : byte = operatorTag
    · subst hoperator
      have hid := (readOperator_spends h).2.1
      obtain ⟨data, rest, rfl, htakes, rfl⟩ := plain_operator.taken h
      exact ⟨tag ++ data, rest, s, by simp, by simp [Nat.add_assoc],
        .plain hid fun _ _ s => takes_operator htag (htakes s)⟩
    · rw [if_neg hoperator] at h
      by_cases hcollapsed : byte = collapsedTag
      · subst hcollapsed
        obtain ⟨data, rest, s₁, rfl, rfl, hhead⟩ := exists_encodesHead_collapsed hinner htag h
        exact ⟨tag ++ data, rest, s₁, by simp, by simp [Nat.add_assoc], hhead⟩
      · rw [if_neg hcollapsed] at h
        cases h

theorem exists_encodes (hinner : ReadsEncoded a depth inner) {e : Expression}
    (h : readTokens (readToken a (evaluationRoom depth) inner) count read
      (s.over ⟨.sound, remaining, position⟩) = (.ok e, p)) :
    ∃ ts data rest s', e = read.reverse ++ ts ∧ ts.length = count ∧ remaining = data ++ rest ∧
      p = s'.over ⟨.sound, rest, position + data.length⟩ ∧ Encodes a depth data s ts s' := by
  induction count generalizing read remaining position s with
  | zero =>
    cases h
    exact ⟨[], [], remaining, s, by simp, rfl, rfl, rfl, .nil⟩
  | succ count ih =>
    obtain ⟨t, p₁, ht, h⟩ := run_bind_eq_ok_iff.1 h
    obtain ⟨data, rest, s₁, rfl, rfl, hhead⟩ := exists_encodesHead hinner ht
    obtain ⟨ts, bytes, rest, s', rfl, rfl, rfl, rfl, htail⟩ := ih h
    exact ⟨t :: ts, data ++ bytes, rest, s', by simp, rfl, by simp, by simp [Nat.add_assoc],
      hhead htail⟩

theorem readsEncoded (a : Arithmetic) (depth : ℕ) : ReadsEncoded a depth (readExpression a depth) := by
  induction depth with
  | zero =>
    intro remaining position s source p h
    cases h
  | succ depth ih =>
    intro remaining position s source p h
    obtain ⟨n, p₁, hn, h⟩ := run_bind_eq_ok_iff.1 h
    obtain ⟨count, rest, rfl, hcount, rfl⟩ := plain_int.taken hn
    split at h
    · cases h
    · rename_i hnat
      obtain ⟨ts, data, rest, s', hts, hlength, rfl, rfl, hencodes⟩ := exists_encodes ih h
      obtain rfl : source = ts := hts
      refine ⟨depth, count, data, rest, s', rfl, by simp, ?_, hencodes, by simp [Nat.add_assoc]⟩
      have hn : (source.length : ℤ) = n := by omega
      rwa [hn]

/-! Whole expressions and states. -/

/-- The bytes encode the tokens of an expression, after their number. -/
def EncodesExpression (a : Arithmetic) (data : List UInt8) (s : Knowledge) (e : Expression)
    (s' : Knowledge) : Prop :=
  ∃ count bytes, data = count ++ bytes ∧ InField readInt count (e.length : ℤ) ∧
    Encodes a readingLimit bytes s e s'

theorem EncodesExpression.takes {e : Expression} (h : EncodesExpression a data s e s') :
    Takes (readExpression a (readingLimit + 1)) data s e s' := by
  obtain ⟨count, bytes, rfl, hcount, hencodes⟩ := h
  exact takes_expression hcount (hencodes.takes [])

/-- An expression that is read is encoded by the bytes that are taken. -/
theorem exists_encodesExpression {e : Expression}
    (h : readExpression a (readingLimit + 1) (s.over ⟨.sound, remaining, position⟩) = (.ok e, p)) :
    ∃ data rest s', remaining = data ++ rest ∧ EncodesExpression a data s e s' ∧
      p = s'.over ⟨.sound, rest, position + data.length⟩ := by
  obtain ⟨depth, count, data, rest, s', hdepth, rfl, hcount, hencodes, rfl⟩ :=
    readsEncoded a (readingLimit + 1) h
  obtain rfl : readingLimit = depth := Nat.succ.inj hdepth
  exact ⟨count ++ data, rest, s', rfl, ⟨count, data, rfl, hcount, hencodes⟩, rfl⟩

/-- Reads a unit of angles and an expression. -/
def readState (a : Arithmetic) : Decoder (Bool × Expression) := do
  let degrees ← field readBool
  let e ← readExpression a (readingLimit + 1)
  return (degrees, e)

theorem loadsState_eq (a : Arithmetic) (names : ℕ) (m : Memory) (data : List UInt8) :
    loadsState a names m data = decode (readState a) names m data := rfl

/-- The bytes encode a unit of angles and then an expression. -/
def EncodesState (a : Arithmetic) (data : List UInt8) (s : Knowledge) (state : Bool × Expression)
    (s' : Knowledge) : Prop :=
  ∃ unit bytes, data = unit ++ bytes ∧ InField readBool unit state.1 ∧
    EncodesExpression a bytes s state.2 s'

theorem EncodesState.takes {state : Bool × Expression} (h : EncodesState a data s state s') :
    Takes (readState a) data s state s' := by
  obtain ⟨unit, bytes, rfl, hunit, hencodes⟩ := h
  exact (hunit s).bind (hencodes.takes.done (decodes_pure s' state))

theorem exists_encodesState {state : Bool × Expression}
    (h : readState a (s.over ⟨.sound, remaining, position⟩) = (.ok state, p)) :
    ∃ data rest s', remaining = data ++ rest ∧ EncodesState a data s state s' ∧
      p = s'.over ⟨.sound, rest, position + data.length⟩ := by
  obtain ⟨degrees, p₁, hdegrees, h⟩ := run_bind_eq_ok_iff.1 h
  obtain ⟨unit, rest, rfl, hunit, rfl⟩ := plain_bool.taken hdegrees
  obtain ⟨e, p₂, he, h⟩ := run_bind_eq_ok_iff.1 h
  obtain ⟨data, rest, s', rfl, hencodes, rfl⟩ := exists_encodesExpression he
  cases h
  exact ⟨unit ++ data, rest, s', by simp, ⟨unit, data, rfl, hunit, hencodes⟩, by simp [Nat.add_assoc]⟩

/-- How many bytes are taken off the start of some data. -/
def consumed (d : Decoder α) (names : ℕ) (m : Memory) (data : List UInt8) : ℕ :=
  (d ⟨Stream.ofBytes data, Known.empty, names, m⟩).2.stream.position

/-- What a pass makes of some data, it makes of the bytes at their start that it takes. -/
theorem exists_of_decode {names names' : ℕ} {m m' : Memory}
    {encodes : List UInt8 → Knowledge → α → Knowledge → Prop}
    (hd : ∀ {remaining position} {s : Knowledge} {x p},
      d (s.over ⟨.sound, remaining, position⟩) = (.ok x, p) → ∃ data rest s', remaining = data ++ rest ∧
        encodes data s x s' ∧ p = s'.over ⟨.sound, rest, position + data.length⟩)
    (h : decode d names m data = (.ok x, names', m')) :
    ∃ taken rest s', data = taken ++ rest ∧ taken.length = consumed d names m data ∧
      encodes taken ⟨Known.empty, names, m⟩ x s' ∧ s'.names = names' ∧ s'.memory = m' := by
  unfold decode at h
  unfold consumed
  rcases hresult : d ⟨Stream.ofBytes data, Known.empty, names, m⟩ with ⟨result, p⟩
  rw [hresult] at h
  simp only [Prod.mk.injEq] at h
  obtain ⟨rfl, rfl, rfl⟩ := h
  obtain ⟨taken, rest, s', hdata, hencodes, rfl⟩ := hd (s := ⟨Known.empty, names, m⟩) hresult
  exact ⟨taken, rest, s', hdata, (Nat.zero_add _).symm, hencodes, rfl, rfl⟩

end Reckoner.Codec
