import Reckoner.Error
import Reckoner.Text.Surrogate
/-!
Fields of saved data. An integer has four bytes, highest first, in two's complement; a text has its
length in bytes as two bytes and then its UTF-8 form. A read that finds too few bytes takes those
there are.
-/
namespace Reckoner.Codec

/-- How the medium behind a stream behaves. -/
inductive Medium where
  | sound
  /-- Every access fails. -/
  | broken (reason : String)
  /-- There is never anything to read. -/
  | silent
  deriving DecidableEq, Repr

/-- A number below `256 ^ count` as bytes, highest first. -/
def bytesOf (count n : Nat) : List UInt8 :=
  ((List.range count).reverse).map fun i => UInt8.ofNat (n >>> (8 * i))

/-- The number whose bytes are given, highest first. -/
def numberOf (bytes : List UInt8) : Nat :=
  bytes.foldl (fun n b => n * 256 + b.toNat) 0

def byteField (n : Int) : Except Failure (List UInt8) :=
  if 0 ≤ n && n < 256 then .ok [UInt8.ofNat n.toNat] else .error .notAByte

/-- A truth value as a byte. -/
def boolField (b : Bool) : List UInt8 := [if b then 1 else 0]

def intField (n : Int) : Except Failure (List UInt8) :=
  if -0x80000000 ≤ n && n < 0x80000000 then .ok (bytesOf 4 (n % 0x100000000).toNat)
  else .error .outOfRange

/-- A text field. -/
def textField (s : String) : Except Failure (List UInt8) :=
  let data := s.toUTF8.toList
  if 0xffff < data.length then .error (.format .textTooLong)
  else .ok (bytesOf 2 data.length ++ data)

/-- A field of code units that may be halves of surrogate pairs, which have no bytes. -/
def unitsField (units : List Text.CodePoint) : Except Failure (List UInt8) :=
  match units.mapM Text.CodePoint.char? with
  | some cs => textField (String.ofList cs)
  | none => .error .notEncodable

/-- Hands bytes to a medium, which gives back what arrives. -/
def Medium.write (medium : Medium) (data : List UInt8) : Except Failure (List UInt8) :=
  match medium with
  | .broken reason => .error (.format (.unwritable reason))
  | _ => .ok data

/-- Bytes to be read, and how many have been. -/
structure Stream where
  medium : Medium
  remaining : List UInt8
  position : Nat

def Stream.ofBytes (data : List UInt8) : Stream := ⟨.sound, data, 0⟩

/-- A computation that reads from a stream and may fail. -/
abbrev Reader := ExceptT FormatError (StateM Stream)

def take (count : Nat) : Reader (List UInt8) := fun s =>
  match s.medium with
  | .broken reason => (.error (.unreadable reason), s)
  | .silent => (.error .truncated, s)
  | .sound =>
    let data := s.remaining.take count
    let s := { s with remaining := s.remaining.drop count, position := s.position + data.length }
    if data.length < count then (.error .truncated, s) else (.ok data, s)

def readByte : Reader Nat := do
  return numberOf (← take 1)

/-- Reads a truth value: every byte but zero is true. -/
def readBool : Reader Bool := do
  return (← readByte) ≠ 0

def readInt : Reader Int := do
  let n := numberOf (← take 4)
  return if n < 0x80000000 then n else n - 0x100000000

def readText : Reader String := do
  let length := numberOf (← take 2)
  let data ← take length
  match String.fromUTF8? ⟨data.toArray⟩ with
  | some s => return s
  | none => throw .invalidText

end Reckoner.Codec
