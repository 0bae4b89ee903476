import Mathlib.Tactic.Ring
import Pich.Base.Checked
import Pich.Primitives

namespace Pich
open Checked

/-- Two 128-bit limbs, `hi` signed and `lo` unsigned. -/
structure I256 where
  hi : I128
  lo : I128
  deriving DecidableEq

/-- The double-width product, as the pair of its halves. -/
def mulU128 (a b : U128) : Option (U128 × U128) := do
  let aLo : U64 := a.setWidth 64
  let aHi : U64 := (a >>> 64).setWidth 64
  let bLo : U64 := b.setWidth 64
  let bHi : U64 := (b >>> 64).setWidth 64
  let p0 ← Checked.mul (aLo.setWidth 128) (bLo.setWidth 128)
  let p1 ← Checked.mul (aLo.setWidth 128) (bHi.setWidth 128)
  let p2 ← Checked.mul (aHi.setWidth 128) (bLo.setWidth 128)
  let p3 ← Checked.mul (aHi.setWidth 128) (bHi.setWidth 128)
  let mid ← Checked.add (p0 >>> 64) (p1 &&& 0xFFFFFFFFFFFFFFFF)
  let mid ← Checked.add mid (p2 &&& 0xFFFFFFFFFFFFFFFF)
  let column ← Checked.shl (mid &&& 0xFFFFFFFFFFFFFFFF) 64
  let lo := (p0 &&& 0xFFFFFFFFFFFFFFFF) ||| column
  let hi ← Checked.add p3 (mid >>> 64)
  let hi ← Checked.add hi (p1 >>> 64)
  let hi ← Checked.add hi (p2 >>> 64)
  some (hi, lo)

namespace I256

def add (x y : I256) : I256 :=
  let (lo, carry) := overflowingAdd x.lo y.lo
  let hi := x.hi + y.hi + ofFlag 128 carry
  { hi, lo }

def sub (x y : I256) : I256 :=
  let (lo, borrow) := overflowingSub x.lo y.lo
  let hi := x.hi - y.hi - ofFlag 128 borrow
  { hi, lo }

def neg (x : I256) : I256 :=
  let lo := ~~~x.lo + 1
  let hi := ~~~x.hi + ofFlag 128 (lo = 0)
  { hi, lo }

def mul (x y : I256) : Option I256 := do
  let (a, b) := (x.hi, x.lo)
  let (c, d) := (y.hi, y.lo)
  let (hiBd, loBd) ← mulU128 b d
  let (_, loAd) ← mulU128 a d
  let (_, loBc) ← mulU128 b c
  let mid1 := hiBd + loAd
  let hiResult := mid1 + loBc
  let loResult := loBd
  some { hi := hiResult, lo := loResult }

/-- The two's-complement value. -/
def val (x : I256) : Int := x.hi.toInt * 2 ^ 128 + x.lo.toNat

def bits (x : I256) : BitVec 256 := x.hi ++ x.lo

theorem bits_toNat (x : I256) : x.bits.toNat = x.hi.toNat * 2 ^ 128 + x.lo.toNat := toNat_append_eq x.hi x.lo

theorem val_eq (x : I256) : x.val = x.bits.toInt := (toInt_append_eq (by omega) x.hi x.lo).symm

theorem add_bits (x y : I256) : (x.add y).bits = x.bits + y.bits := by
  obtain ⟨lo, carry, atLo, value⟩ := overflowingAdd_exact x.lo y.lo
  apply BitVec.eq_of_toNat_eq
  simp only [add, atLo, bits_toNat, BitVec.toNat_add, ofFlag_toNat (by omega : 0 < 128)]
  omega

theorem sub_bits (x y : I256) : (x.sub y).bits = x.bits - y.bits := by
  obtain ⟨lo, borrow, atLo, value⟩ := overflowingSub_exact x.lo y.lo
  have flag := Bool.toNat_le borrow
  have low := y.lo.isLt
  have high := y.hi.isLt
  apply BitVec.eq_of_toNat_eq
  simp only [sub, atLo, bits_toNat, BitVec.toNat_sub, ofFlag_toNat (by omega : 0 < 128)]
  omega

/-- The carry into the high limb is read off a zero low limb. -/
theorem neg_bits (x : I256) : x.neg.bits = -x.bits := by
  have low := x.lo.isLt
  have high := x.hi.isLt
  have one : (1 : U128).toNat = 1 := rfl
  have value : (~~~x.lo + 1).toNat = (2 ^ 128 - x.lo.toNat) % 2 ^ 128 := by
    rw [BitVec.toNat_add, BitVec.toNat_not, one]
    omega
  have zero : (~~~x.lo + 1 = 0) ↔ x.lo.toNat = 0 := by
    rw [← BitVec.toNat_inj, value]
    have zero : (0 : U128).toNat = 0 := rfl
    omega
  apply BitVec.eq_of_toNat_eq
  simp only [neg, bits_toNat, BitVec.toNat_neg, BitVec.toNat_add, BitVec.toNat_not, value, zero,
    ofFlag_toNat (by omega : 0 < 128)]
  by_cases empty : x.lo.toNat = 0
  · rw [decide_eq_true empty, Bool.toNat_true]
    omega
  · rw [decide_eq_false empty, Bool.toNat_false]
    omega

end I256

theorem mask_toNat (x : U128) : (x &&& 0xFFFFFFFFFFFFFFFF).toNat = x.toNat % 2 ^ 64 := by
  rw [BitVec.toNat_and]
  exact Nat.and_two_pow_sub_one_eq_mod _ 64

/-- The two halves of the four partial products, put back together. -/
theorem columns_exact {p0 p1 p2 p3 mid : Nat} (midValue : mid = p0 / 2 ^ 64 + p1 % 2 ^ 64 + p2 % 2 ^ 64) :
    (p3 + mid / 2 ^ 64 + p1 / 2 ^ 64 + p2 / 2 ^ 64) * 2 ^ 128 + (mid % 2 ^ 64 * 2 ^ 64 + p0 % 2 ^ 64) =
      p3 * 2 ^ 128 + (p1 + p2) * 2 ^ 64 + p0 := by
  omega

/-- The middle column carries at most two, and the high half still has room for it. -/
theorem mulU128_exact (a b : U128) :
    ∃ h l, mulU128 a b = some (h, l) ∧ h.toNat * 2 ^ 128 + l.toNat = a.toNat * b.toNat := by
  let aLo : U64 := a.setWidth 64
  let aHi : U64 := (a >>> 64).setWidth 64
  let bLo : U64 := b.setWidth 64
  let bHi : U64 := (b >>> 64).setWidth 64
  have splitA : aHi.toNat * 2 ^ 64 + aLo.toNat = a.toNat := halves_toNat (w := 64) a
  have splitB : bHi.toNat * 2 ^ 64 + bLo.toNat = b.toNat := halves_toNat (w := 64) b
  have shifted : ∀ x : U128, (x >>> 64).toNat = x.toNat / 2 ^ 64 := shifted_toNat (w := 64)
  obtain ⟨p0, at0, value0⟩ := mul_widened aLo bLo
  obtain ⟨p1, at1, value1⟩ := mul_widened aLo bHi
  obtain ⟨p2, at2, value2⟩ := mul_widened aHi bLo
  obtain ⟨p3, at3, value3⟩ := mul_widened aHi bHi
  have bound1 := product_bound aLo bHi
  have bound2 := product_bound aHi bLo
  have bound3 := product_bound aHi bHi
  obtain ⟨mid1, sum1, mid1Value⟩ := add_exact (a := p0 >>> 64) (b := p1 &&& 0xFFFFFFFFFFFFFFFF)
    (by rw [shifted, mask_toNat]; omega)
  rw [shifted, mask_toNat] at mid1Value
  obtain ⟨mid, sum2, midValue⟩ := add_exact (a := mid1) (b := p2 &&& 0xFFFFFFFFFFFFFFFF)
    (by rw [mask_toNat]; omega)
  rw [mask_toNat, mid1Value] at midValue
  obtain ⟨column, moved, columnValue⟩ := shl_exact (a := mid &&& 0xFFFFFFFFFFFFFFFF) 64 (by omega)
    (by rw [mask_toNat]; omega)
  rw [mask_toNat] at columnValue
  obtain ⟨hi1, sum3, hi1Value⟩ := add_exact (a := p3) (b := mid >>> 64) (by rw [shifted]; omega)
  rw [shifted] at hi1Value
  obtain ⟨hi2, sum4, hi2Value⟩ := add_exact (a := hi1) (b := p1 >>> 64) (by rw [shifted]; omega)
  rw [shifted, hi1Value] at hi2Value
  obtain ⟨hi, sum5, hiValue⟩ := add_exact (a := hi2) (b := p2 >>> 64) (by rw [shifted]; omega)
  rw [shifted, hi2Value] at hiValue
  have loValue : ((p0 &&& 0xFFFFFFFFFFFFFFFF) ||| column).toNat = mid.toNat % 2 ^ 64 * 2 ^ 64 + p0.toNat % 2 ^ 64 := by
    rw [BitVec.toNat_or, mask_toNat, columnValue, Nat.or_comm, ← Nat.shiftLeft_eq,
      Nat.shiftLeft_add_eq_or_of_lt (by omega)]
  have expanded : a.toNat * b.toNat = p3.toNat * 2 ^ 128 + (p1.toNat + p2.toNat) * 2 ^ 64 + p0.toNat := by
    rw [value0, value1, value2, value3, ← splitA, ← splitB]
    ring
  refine ⟨hi, (p0 &&& 0xFFFFFFFFFFFFFFFF) ||| column, ?_, ?_⟩
  · simp only [mulU128, aLo, aHi, bLo, bHi] at at0 at1 at2 at3 ⊢
    simp only [at0, at1, at2, at3, sum1, sum2, moved, sum3, sum4, sum5, Option.bind_eq_bind, Option.bind_some]
  · rw [expanded, loValue, hiValue, columns_exact midValue]

namespace I256

/-- The partial products below weight `2^256`, and a multiple of it. -/
theorem product_eq (a b c d : Nat) :
    (a * 2 ^ 128 + b) * (c * 2 ^ 128 + d) = b * d + (a * d + b * c) * 2 ^ 128 + 2 ^ 256 * (a * c) := by
  ring

/-- Wrapping the sum at weight `2^128` loses only multiples of `2^256`. -/
theorem columns {hiBd loBd hiAd loAd hiBc loBc : Nat} (small : loBd < 2 ^ 128) :
    ((hiBd + loAd) % 2 ^ 128 + loBc) % 2 ^ 128 * 2 ^ 128 + loBd =
      (hiBd * 2 ^ 128 + loBd + (hiAd * 2 ^ 128 + loAd + (hiBc * 2 ^ 128 + loBc)) * 2 ^ 128) % 2 ^ 256 := by
  omega

theorem mul_bits (x y : I256) : ∃ z, x.mul y = some z ∧ z.bits = x.bits * y.bits := by
  obtain ⟨hiBd, loBd, atBd, valueBd⟩ := mulU128_exact x.lo y.lo
  obtain ⟨hiAd, loAd, atAd, valueAd⟩ := mulU128_exact x.hi y.lo
  obtain ⟨hiBc, loBc, atBc, valueBc⟩ := mulU128_exact x.lo y.hi
  refine ⟨⟨hiBd + loAd + loBc, loBd⟩, ?_, ?_⟩
  · simp only [mul, atBd, atAd, atBc, Option.bind_eq_bind, Option.bind_some]
  · apply BitVec.eq_of_toNat_eq
    rw [BitVec.toNat_mul, bits_toNat, bits_toNat, bits_toNat, product_eq, Nat.add_mul_mod_self_left, BitVec.toNat_add,
      BitVec.toNat_add, ← valueBd, ← valueAd, ← valueBc]
    exact columns loBd.isLt

end I256

/-- The multiplier is exact with no plain operation overflowing, and every operation of `I256` is the integer one
brought into `[-2^255, 2^255)`. -/
theorem i256_ring :
    (∀ a b : U128, ∃ h l, mulU128 a b = some (h, l) ∧ h.toNat * 2 ^ 128 + l.toNat = a.toNat * b.toNat) ∧
      ∀ x y : I256, (x.add y).val = (x.val + y.val).bmod (2 ^ 256) ∧
        (x.sub y).val = (x.val - y.val).bmod (2 ^ 256) ∧ x.neg.val = (-x.val).bmod (2 ^ 256) ∧
        ∃ z, x.mul y = some z ∧ z.val = (x.val * y.val).bmod (2 ^ 256) := by
  refine ⟨mulU128_exact, fun x y => ?_⟩
  obtain ⟨product, multiplied, bits⟩ := I256.mul_bits x y
  simp only [I256.val_eq]
  refine ⟨?_, ?_, ?_, product, multiplied, ?_⟩
  · rw [I256.add_bits, BitVec.toInt_add]
  · rw [I256.sub_bits, BitVec.toInt_sub]
  · rw [I256.neg_bits, BitVec.toInt_neg]
  · rw [bits, BitVec.toInt_mul]

end Pich
