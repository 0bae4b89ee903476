namespace Gf256

def xtime (a : BitVec 8) : BitVec 8 := if a.msb then (a <<< 1) ^^^ 0x1b else a <<< 1

/-- Multiplication in GF(2^8): the sum of `a * x^i` over the set bits `i` of `b`. -/
def mul (a b : BitVec 8) : BitVec 8 :=
  (List.range 8).foldr (fun i acc => xtime acc ^^^ if b.getLsbD i then a else 0) 0

def square (a : BitVec 8) : BitVec 8 := mul a a

/-- `a^254`, which is the inverse of a nonzero `a` and sends zero to zero. -/
def inv (a : BitVec 8) : BitVec 8 :=
  let a2 := square a
  let a3 := mul a2 a
  let a12 := square (square a3)
  let a14 := mul a12 a2
  let a15 := mul a12 a3
  mul (square (square (square (square a15)))) a14

example : ∀ a : BitVec 8, mul a (inv a) = if a = 0 then 0 else 1 := by decide +kernel

def allBytes (P : BitVec 8 → Bool) : Bool := (List.range 256).all fun i => P (BitVec.ofNat 8 i)

/-- What is checked byte by byte holds of every byte. -/
theorem of_allBytes {P : BitVec 8 → Bool} (all : allBytes P = true) (a : BitVec 8) : P a = true := by
  have at_a := List.all_eq_true.mp all a.toNat (List.mem_range.mpr a.isLt)
  simpa only [BitVec.ofNat_toNat, BitVec.setWidth_eq] using at_a

/-- The affine map of the Rijndael S-box: bit `i` of the result is
`b_i + b_(i+4) + b_(i+5) + b_(i+6) + b_(i+7) + c_i` with indices modulo 8 and `c = 0x63`. -/
def affine (b : BitVec 8) : BitVec 8 :=
  b ^^^ b.rotateRight 4 ^^^ b.rotateRight 5 ^^^ b.rotateRight 6 ^^^ b.rotateRight 7 ^^^ 0x63

def rijndael (a : BitVec 8) : BitVec 8 := affine (inv a)

end Gf256
