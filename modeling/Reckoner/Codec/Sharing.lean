/-!
Numbering what has been written and read in one pass, so that it can be referred to.
-/
namespace Reckoner.Codec

/-- Values in the order they were first written, the latest first. -/
structure Written (ι : Type) where
  values : List ι

namespace Written

variable {ι : Type} [DecidableEq ι]

def empty : Written ι := ⟨[]⟩

def count (w : Written ι) : Nat := w.values.length

/-- The latest index of a value. -/
def index? (w : Written ι) (value : ι) : Option Nat :=
  (w.values.findIdx? (· = value)).map (w.values.length - ·)

def register (w : Written ι) (value : ι) : Written ι := ⟨value :: w.values⟩

end Written

/-- What has been read under each index, the latest first. -/
structure Known (α : Type) where
  entries : List (Int × α)

namespace Known

variable {α : Type}

def empty : Known α := ⟨[]⟩

def find? (k : Known α) (index : Int) : Option α := k.entries.lookup index

def register (k : Known α) (index : Int) (value : α) : Known α := ⟨(index, value) :: k.entries⟩

end Known

end Reckoner.Codec
