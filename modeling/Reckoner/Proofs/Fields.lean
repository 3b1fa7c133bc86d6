import Reckoner.Codec.Reader
import Mathlib.Tactic.Ring
/-!
Fields that are read back. `Yields r data x` says that a reader takes exactly `data` off a sound
stream, whatever follows, and makes `x` of it. Every field that can be written yields what was
written.
-/
namespace Reckoner.Codec

/-- Reading takes exactly these bytes and makes this of them. -/
def Yields {α : Type} (r : Reader α) (data : List UInt8) (x : α) : Prop :=
  ∀ rest position,
    r ⟨.sound, data ++ rest, position⟩ = (.ok x, ⟨.sound, rest, position + data.length⟩)

theorem yields_take {data : List UInt8} {count : Nat} (h : data.length = count) :
    Yields (take count) data data := by
  intro rest position
  subst h
  simp [take]

theorem Yields.bind {α β : Type} {r : Reader α} {f : α → Reader β} {data data' : List UInt8}
    {x : α} {y : β} (hr : Yields r data x) (hf : Yields (f x) data' y) :
    Yields (r >>= f) (data ++ data') y := by
  intro rest position
  have h := hr (data' ++ rest) position
  have h' := hf rest (position + data.length)
  simp only [List.append_assoc, List.length_append, ← Nat.add_assoc]
  rw [← h']
  simp only [Bind.bind, ExceptT.bind, ExceptT.mk, StateT.bind, h]
  rfl

/-- What is left to do after the last byte. -/
theorem Yields.done {α β : Type} {r : Reader α} {f : α → Reader β} {data : List UInt8}
    {x : α} {y : β} (hr : Yields r data x) (hf : Yields (f x) [] y) : Yields (r >>= f) data y := by
  have h := hr.bind hf
  rwa [List.append_nil] at h

theorem yields_pure {α : Type} (x : α) : Yields (pure x) [] x := fun _ _ => rfl

theorem Yields.map {α β : Type} {r : Reader α} {data : List UInt8} {x : α} (hr : Yields r data x)
    (f : α → β) : Yields (do return f (← r)) data (f x) :=
  hr.done (yields_pure (f x))

/-! Numbers as bytes. -/

theorem bytesOf_succ (count n : Nat) :
    bytesOf (count + 1) n = UInt8.ofNat (n >>> (8 * count)) :: bytesOf count n := by
  simp [bytesOf, List.range_succ]

@[simp] theorem length_bytesOf (count n : Nat) : (bytesOf count n).length = count := by
  simp [bytesOf]

theorem foldl_bytesOf (count n acc : Nat) :
    (bytesOf count n).foldl (fun n b => n * 256 + b.toNat) acc =
      acc * 256 ^ count + n % 256 ^ count := by
  induction count generalizing acc with
  | zero => simp [bytesOf, Nat.mod_one]
  | succ count ih =>
    have hbyte : (UInt8.ofNat (n >>> (8 * count))).toNat = n / 256 ^ count % 256 := by
      rw [UInt8.toNat_ofNat', Nat.shiftRight_eq_div_pow, Nat.pow_mul]
    rw [bytesOf_succ, List.foldl_cons, ih, hbyte, Nat.mod_pow_succ, Nat.pow_succ]
    ring

theorem numberOf_bytesOf {count n : Nat} (h : n < 256 ^ count) :
    numberOf (bytesOf count n) = n := by
  rw [numberOf, foldl_bytesOf, Nat.mod_eq_of_lt h]
  simp

theorem yields_readByte {n : Nat} (h : n < 256) : Yields readByte (bytesOf 1 n) n := by
  have hy := (yields_take (length_bytesOf 1 n)).map numberOf
  rwa [numberOf_bytesOf h] at hy

theorem yields_readBool (b : Bool) : Yields readBool (boolField b) b := by
  have hy : Yields readByte (boolField b) (if b then 1 else 0) := by
    cases b
    · exact yields_readByte (n := 0) (by decide)
    · exact yields_readByte (n := 1) (by decide)
  cases b
  · exact hy.map fun n => decide (n ≠ 0)
  · exact hy.map fun n => decide (n ≠ 0)

/-- The bytes of an integer. -/
def intBytes (n : Int) : List UInt8 := bytesOf 4 (n % 0x100000000).toNat

@[simp] theorem length_intBytes (n : Int) : (intBytes n).length = 4 := length_bytesOf ..

theorem intField_eq_ok {n : Int} (h : -0x80000000 ≤ n) (h' : n < 0x80000000) :
    intField n = .ok (intBytes n) := by
  simp [intField, intBytes, h, h']

/-- The numbers that count something fit their fields. -/
theorem intField_natCast {n : Nat} (h : n < 0x80000000) : intField n = .ok (intBytes n) :=
  intField_eq_ok (by omega) (by omega)

theorem yields_readInt {n : Int} {data : List UInt8} (h : intField n = .ok data) :
    Yields readInt data n := by
  unfold intField at h
  split at h
  · rename_i hn
    obtain rfl := Except.ok.inj h
    simp only [Bool.and_eq_true, decide_eq_true_eq] at hn
    have hlt : (n % 0x100000000).toNat < 256 ^ 4 := by omega
    have hy := (yields_take (length_bytesOf 4 (n % 0x100000000).toNat)).map fun data =>
      if numberOf data < 0x80000000 then (numberOf data : Int) else numberOf data - 0x100000000
    rw [numberOf_bytesOf hlt] at hy
    have hback : (if (n % 0x100000000).toNat < 0x80000000 then ((n % 0x100000000).toNat : Int)
        else (n % 0x100000000).toNat - 0x100000000) = n := by
      split <;> omega
    rwa [hback] at hy
  · cases h

/-! Texts as bytes. -/

theorem toList_loop (data : ByteArray) (i : Nat) (read : List UInt8) :
    ByteArray.toList.loop data i read = read.reverse ++ data.data.toList.drop i := by
  fun_induction ByteArray.toList.loop data i read with
  | case1 i read h ih =>
    have hi : i < data.data.toList.length := by simpa using h
    have hget : data.get! i = data.data.toList[i] := by
      rw [Array.getElem_toList]
      exact getElem!_pos data.data i (by simpa using h)
    rw [ih, List.drop_eq_getElem_cons hi, hget]
    simp
  | case2 i read h =>
    have hi : data.data.toList.length ≤ i := by simpa using h
    rw [List.drop_eq_nil_of_le hi, List.append_nil]

/-- The bytes of a text. -/
def utf8 (s : String) : List UInt8 := s.toUTF8.toList

theorem utf8_eq (s : String) : utf8 s = s.toByteArray.data.toList := by
  simp [utf8, ByteArray.toList, toList_loop]

theorem length_utf8 (s : String) : (utf8 s).length = s.utf8ByteSize := by
  rw [utf8_eq]
  rfl

theorem fromUTF8?_utf8 (s : String) : String.fromUTF8? ⟨(utf8 s).toArray⟩ = some s := by
  rw [utf8_eq]
  have hs : s.toByteArray.IsValidUTF8 := s.isValidUTF8
  simp only [Array.toArray_toList, String.fromUTF8?, hs, ↓reduceDIte]
  rfl

/-- Bytes that can be read as a text are the text's bytes. -/
theorem eq_utf8_of_fromUTF8? {data : List UInt8} {s : String}
    (h : String.fromUTF8? ⟨data.toArray⟩ = some s) : data = utf8 s := by
  unfold String.fromUTF8? at h
  split at h
  · obtain rfl := Option.some.inj h
    rw [utf8_eq]
    rfl
  · cases h

/-- The bytes of a text field. -/
def textBytes (s : String) : List UInt8 := bytesOf 2 (utf8 s).length ++ utf8 s

@[simp] theorem length_textBytes (s : String) : (textBytes s).length = 2 + s.utf8ByteSize := by
  simp [textBytes, length_utf8]

theorem textField_eq_ok {s : String} (h : s.utf8ByteSize ≤ 0xffff) : textField s = .ok (textBytes s) := by
  have hshort : ¬ 0xffff < (utf8 s).length := by
    rw [length_utf8]
    exact Nat.not_lt.2 h
  exact if_neg hshort

theorem yields_readText {s : String} (h : s.utf8ByteSize ≤ 0xffff) :
    Yields readText (textBytes s) s := by
  refine (yields_take (length_bytesOf 2 _)).bind ?_
  have hlt : (utf8 s).length < 256 ^ 2 := by
    rw [length_utf8]
    exact Nat.lt_succ_of_le h
  simp only [numberOf_bytesOf hlt]
  refine (yields_take rfl).done ?_
  simp only [fromUTF8?_utf8]
  exact yields_pure s

end Reckoner.Codec
