import Reckoner.Proofs.Fields
/-!
Steps of a pass. `Writes` says what a writer makes of the values written so far, `Decodes` which bytes
a decoder takes off a sound stream, whatever follows, and what it then knows.
-/
namespace Reckoner.Codec

open Reals

/-- Writing succeeds with these bytes and then knows these values. -/
def Writes (x : Writer (List UInt8)) (w : Written Identity) (data : List UInt8)
    (w' : Written Identity) : Prop :=
  x w = (.ok data, w')

theorem Writes.bind {x : Writer (List UInt8)} {f : List UInt8 → Writer (List UInt8)}
    {w w' w'' : Written Identity} {data data' : List UInt8} (hx : Writes x w data w')
    (hf : Writes (f data) w' data' w'') : Writes (x >>= f) w data' w'' := by
  unfold Writes at *
  rw [← hf]
  simp only [Bind.bind, ExceptT.bind, ExceptT.mk, StateT.bind, hx]
  rfl

theorem Writes.encode {x : Writer (List UInt8)} {data : List UInt8} {w : Written Identity}
    (h : Writes x Written.empty data w) : encode x = .ok data :=
  congrArg Prod.fst h

theorem writes_pure (w : Written Identity) (data : List UInt8) :
    Writes (pure data) w data w := rfl

theorem writes_field {x : Except Failure (List UInt8)} {data : List UInt8} (h : x = .ok data)
    (w : Written Identity) : Writes (liftExcept x) w data w := by
  subst h
  rfl

theorem writes_get {f : Written Identity → Writer (List UInt8)} {w w' : Written Identity}
    {data : List UInt8} (h : Writes (f w) w data w') : Writes (get >>= f) w data w' := h

theorem writes_register {f : Unit → Writer (List UInt8)} {w w' : Written Identity}
    {data : List UInt8} {i : Identity} (h : Writes (f ()) (w.register i) data w') :
    Writes ((modify fun w => w.register i) >>= f) w data w' := h

/-- What a reader knows between two bytes. -/
structure Knowledge where
  known : Known Token
  names : Nat
  memory : Memory

/-- What a reader knows, with the bytes ahead. -/
def Knowledge.over (s : Knowledge) (stream : Stream) : Progress :=
  ⟨stream, s.known, s.names, s.memory⟩

/-- Decoding takes exactly these bytes, from what is known before to what is known after. -/
def Decodes {α : Type} (d : Decoder α) (data : List UInt8) (before : Knowledge) (x : α)
    (after : Knowledge) : Prop :=
  ∀ rest position,
    d (before.over ⟨.sound, data ++ rest, position⟩) =
      (.ok x, after.over ⟨.sound, rest, position + data.length⟩)

variable {α β : Type} {s s' s'' : Knowledge} {data data' : List UInt8} {x : α} {y : β}

theorem Decodes.bind {d : Decoder α} {f : α → Decoder β} (hd : Decodes d data s x s')
    (hf : Decodes (f x) data' s' y s'') : Decodes (d >>= f) (data ++ data') s y s'' := by
  intro rest position
  have h := hd (data' ++ rest) position
  have h' := hf rest (position + data.length)
  simp only [List.append_assoc, List.length_append, ← Nat.add_assoc]
  rw [← h']
  simp only [Bind.bind, ExceptT.bind, ExceptT.mk, StateT.bind, h]
  rfl

/-- What is left to do after the last byte. -/
theorem Decodes.done {d : Decoder α} {f : α → Decoder β} (hd : Decodes d data s x s')
    (hf : Decodes (f x) [] s' y s'') : Decodes (d >>= f) data s y s'' := by
  have h := hd.bind hf
  rwa [List.append_nil] at h

/-- What there is to do before the first byte. -/
theorem Decodes.start {d : Decoder α} {f : α → Decoder β} (hd : Decodes d [] s x s')
    (hf : Decodes (f x) data s' y s'') : Decodes (d >>= f) data s y s'' :=
  hd.bind hf

theorem decodes_pure (s : Knowledge) (x : α) : Decodes (pure x) [] s x s := fun _ _ => rfl

theorem decodes_field {r : Reader α} (h : Yields r data x) (s : Knowledge) :
    Decodes (field r) data s x s := by
  intro rest position
  simp only [field, Knowledge.over, h rest position]

/-- What a whole pass makes of the bytes at its start. -/
theorem Decodes.decode {d : Decoder α} {names : Nat} {memory : Memory}
    (h : Decodes d data ⟨Known.empty, names, memory⟩ x s) (trailing : List UInt8) :
    decode d names memory (data ++ trailing) = (.ok x, s.names, s.memory) := by
  have hd : d ⟨⟨.sound, data ++ trailing, 0⟩, Known.empty, names, memory⟩ =
      (.ok x, s.over ⟨.sound, trailing, 0 + data.length⟩) := h trailing 0
  simp only [Codec.decode, Stream.ofBytes, hd, Knowledge.over]

/-- What is known does not depend on the bytes ahead. -/
theorem decodes_get {f : Progress → Decoder α}
    (h : ∀ stream, Decodes (f (s.over stream)) data s x s') : Decodes (get >>= f) data s x s' :=
  fun rest position => h _ rest position

theorem decodes_recalling {q : Recall Failure α} {memory : Memory} (h : q s.memory = (.ok x, memory)) :
    Decodes (recalling q) [] s x { s with memory } := by
  intro rest position
  simp only [recalling, Knowledge.over, h]
  rfl

/-- Decoding fails at these bytes, whatever follows them. -/
def Fails {α : Type} (d : Decoder α) (data : List UInt8) (s : Knowledge) (e : Failure) : Prop :=
  ∀ rest position, (d (s.over ⟨.sound, data ++ rest, position⟩)).1 = .error e

variable {e : Failure}

theorem Decodes.fails {d : Decoder α} {f : α → Decoder β} (hd : Decodes d data s x s')
    (hf : Fails (f x) data' s' e) : Fails (d >>= f) (data ++ data') s e := by
  intro rest position
  have h := hd (data' ++ rest) position
  have h' := hf rest (position + data.length)
  simp only [List.append_assoc]
  rw [← h']
  simp only [Bind.bind, ExceptT.bind, ExceptT.mk, StateT.bind, h]
  rfl

/-- What would follow a failure does not matter. -/
theorem Fails.bind {d : Decoder α} (hd : Fails d data s e) (f : α → Decoder β) :
    Fails (d >>= f) data s e := by
  intro rest position
  have h := hd rest position
  simp only [Bind.bind, ExceptT.bind, ExceptT.mk, StateT.bind]
  rcases hresult : d (s.over ⟨.sound, data ++ rest, position⟩) with ⟨r, p⟩
  rw [hresult] at h
  obtain rfl : r = .error e := h
  rfl

theorem Fails.append {d : Decoder α} (hd : Fails d data s e) (data' : List UInt8) :
    Fails d (data ++ data') s e := by
  intro rest position
  rw [List.append_assoc]
  exact hd (data' ++ rest) position

theorem fails_get {f : Progress → Decoder α}
    (h : ∀ stream, Fails (f (s.over stream)) data s e) : Fails (get >>= f) data s e :=
  fun rest position => h _ rest position

theorem fails_recalling {q : Recall Failure α} (h : (q s.memory).1 = .error e) :
    Fails (recalling q) [] s e := by
  intro rest position
  simp only [recalling, Knowledge.over]
  exact h

theorem Fails.decode {d : Decoder α} {names : Nat} {memory : Memory}
    (h : Fails d data ⟨Known.empty, names, memory⟩ e) (trailing : List UInt8) :
    (decode d names memory (data ++ trailing)).1 = .error e :=
  h trailing 0

end Reckoner.Codec
