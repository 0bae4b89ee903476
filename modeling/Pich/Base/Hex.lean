import Mathlib.Data.List.Basic

namespace Hex

/-- A byte in lower-case hexadecimal, filled up with zeros to two digits. -/
def lower (b : BitVec 8) : List Char :=
  let digits := Nat.toDigits 16 b.toNat
  List.replicate (2 - digits.length) '0' ++ digits

def digit (c : Char) : Option Nat :=
  if '0' ≤ c ∧ c ≤ '9' then some (c.toNat - 48)
  else if 'a' ≤ c ∧ c ≤ 'f' then some (c.toNat - 87)
  else none

end Hex
