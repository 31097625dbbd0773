import Mathlib.Data.UInt

/-! Characters as the bytes they are in the C locale. -/

namespace CPractice

abbrev chr (c : Char) : UInt8 := UInt8.ofNat c.toNat

def isprint (c : UInt8) : Bool := chr ' ' ≤ c && c ≤ chr '~'

def isspace (c : UInt8) : Bool := c == chr ' ' || (9 ≤ c && c ≤ 13)

end CPractice
