/-!
Powers of two and of ten, by which numbers are scaled.
-/
namespace Reckoner

def powTwo (k : Nat) : Nat := Nat.pow 2 k

def powTen (k : Nat) : Nat := Nat.pow 10 k

end Reckoner
