import Mathlib.Data.UInt

/-!
# Characters

A `char` is an unsigned byte, a `std::string` the list of its bytes, and the character classes are those of the C
locale.
-/

namespace Megalo

/-- The bytes of a string literal. -/
def bytes (s : String) : List UInt8 := s.toList.map fun c => c.toNat.toUInt8

/-- `tolower` of a character in the C locale. -/
def toLower (c : UInt8) : UInt8 := if 65 ≤ c ∧ c ≤ 90 then c + 32 else c

/-- `isalpha`. -/
def isalpha (c : UInt8) : Bool := (65 ≤ c && c ≤ 90) || (97 ≤ c && c ≤ 122)

end Megalo
