import Mathlib.Tactic.Ring
import Pich.Base.Bytes
import Pich.Base.Checked
import Pich.Primitives

namespace Pich
open Checked

/-- Three 64-bit limbs, `hi` signed and the others unsigned. -/
structure I192 where
  hi : U64
  mid : U64
  lo : U64
  deriving DecidableEq

namespace I192

theorem limb_room {off : Nat} (within : off + 8 ≤ 24) (x : U64) : off + (Bytes.toBeBytes x).length ≤ 24 := by
  rwa [Bytes.toBeBytes_length]

def toBeBytes (x : I192) : Vector U8 24 :=
  let bytes := Vector.replicate 24 0
  let bytes := copyFromSlice bytes 0 (Bytes.toBeBytes x.hi) (limb_room (by omega) x.hi)
  let bytes := copyFromSlice bytes 8 (Bytes.toBeBytes x.mid) (limb_room (by omega) x.mid)
  copyFromSlice bytes 16 (Bytes.toBeBytes x.lo) (limb_room (by omega) x.lo)

def fromBeBytes (bytes : List U8) : I192 :=
  let hi := Bytes.fromBeBytes 64 (bytes.extract 0 8)
  let mid := Bytes.fromBeBytes 64 (bytes.extract 8 16)
  let lo := Bytes.fromBeBytes 64 (bytes.extract 16 24)
  { hi, mid, lo }

def add (x y : I192) : Option I192 := do
  let (lo, c1) := overflowingAdd x.lo y.lo
  let (mid, c2) := overflowingAdd x.mid y.mid
  let (mid, c1Mid) := overflowingAdd mid (ofFlag 64 c1)
  let carry ← Checked.add (ofFlag 64 c2) (ofFlag 64 c1Mid)
  let hi := x.hi + y.hi + carry
  some { hi, mid, lo }

def sub (x y : I192) : Option I192 := do
  let (lo, b1) := overflowingSub x.lo y.lo
  let (mid, b2) := overflowingSub x.mid y.mid
  let (mid, b1Mid) := overflowingSub mid (ofFlag 64 b1)
  let borrow ← Checked.add (ofFlag 64 b2) (ofFlag 64 b1Mid)
  let hi := x.hi - y.hi - borrow
  some { hi, mid, lo }

def neg (x : I192) : I192 :=
  let (lo, c1) := overflowingAdd (~~~x.lo) 1
  let (mid, c2) := overflowingAdd (~~~x.mid) (ofFlag 64 c1)
  let hi := ~~~x.hi + ofFlag 64 c2
  { hi, mid, lo }

def mulU64 (x y : U64) : Option (U64 × U64) := do
  let p ← Checked.mul (x.setWidth 128) (y.setWidth 128)
  some ((p >>> 64).setWidth 64, p.setWidth 64)

def mul (x y : I192) : Option I192 := do
  let (a1, b1, c1) := (x.hi, x.mid, x.lo)
  let (a2, b2, c2) := (y.hi, y.mid, y.lo)
  let (p0Hi, p0Lo) ← mulU64 c1 c2
  let lo := p0Lo
  let midSum : U128 := p0Hi.setWidth 128
  let carryMid : U128 := 0
  let (p1Hi, p1Lo) ← mulU64 c1 b2
  let midSum ← Checked.add midSum (p1Lo.setWidth 128)
  let carryMid ← Checked.add carryMid (p1Hi.setWidth 128)
  let (p2Hi, p2Lo) ← mulU64 b1 c2
  let midSum ← Checked.add midSum (p2Lo.setWidth 128)
  let carryMid ← Checked.add carryMid (p2Hi.setWidth 128)
  let mid : U64 := midSum.setWidth 64
  let carryMid ← Checked.add carryMid (midSum >>> 64)
  let hiSum := carryMid
  let (_, p3Lo) ← mulU64 c1 a2
  let hiSum ← Checked.add hiSum (p3Lo.setWidth 128)
  let (_, p4Lo) ← mulU64 b1 b2
  let hiSum ← Checked.add hiSum (p4Lo.setWidth 128)
  let (_, p5Lo) ← mulU64 a1 c2
  let hiSum ← Checked.add hiSum (p5Lo.setWidth 128)
  let hi : U64 := hiSum.setWidth 64
  some { hi, mid, lo }

/-- The three copies fill the array. -/
theorem toBeBytes_toList (x : I192) :
    x.toBeBytes.toList = Bytes.toBeBytes x.hi ++ (Bytes.toBeBytes x.mid ++ Bytes.toBeBytes x.lo) := by
  have size : ∀ v : U64, (Bytes.toBeBytes v).length = 8 := Bytes.toBeBytes_length
  simp only [toBeBytes, copyFromSlice_toList, size, List.take_append, List.drop_append]
  simp [size, List.take_of_length_le, List.drop_eq_nil_of_le]

theorem fromBeBytes_append {hi mid lo : List U8} (hiSize : hi.length = 8) (midSize : mid.length = 8)
    (loSize : lo.length = 8) : fromBeBytes (hi ++ (mid ++ lo)) =
      { hi := Bytes.fromBeBytes 64 hi, mid := Bytes.fromBeBytes 64 mid, lo := Bytes.fromBeBytes 64 lo } := by
  simp [fromBeBytes, List.extract_eq_take_drop, List.drop_append, List.take_of_length_le,
    List.drop_eq_nil_of_le, hiSize, midSize, loSize]

/-- The two's-complement value. -/
def val (x : I192) : Int := x.hi.toInt * 2 ^ 128 + x.mid.toNat * 2 ^ 64 + x.lo.toNat

def bits (x : I192) : BitVec 192 := x.hi ++ (x.mid ++ x.lo)

theorem bits_toNat (x : I192) : x.bits.toNat = x.hi.toNat * 2 ^ 128 + (x.mid.toNat * 2 ^ 64 + x.lo.toNat) := by
  rw [bits, toNat_append_eq, toNat_append_eq]

theorem val_eq (x : I192) : x.val = x.bits.toInt := by
  rw [bits, toInt_append_eq (by omega), toNat_append_eq, val, Int.natCast_add, Int.natCast_mul, Int.add_assoc]
  rfl

/-- The 24 bytes are those of the whole number, and they say it and nothing else. -/
theorem bytes_round_trip :
    (∀ x : I192, x.toBeBytes.toList = Bytes.toBeBytes x.bits) ∧ (∀ x : I192, fromBeBytes x.toBeBytes.toList = x) ∧
      ∀ bytes : Vector U8 24, (fromBeBytes bytes.toList).toBeBytes = bytes := by
  have spelled : ∀ x : I192, x.toBeBytes.toList = Bytes.toBeBytes x.bits := fun x => by
    rw [toBeBytes_toList, bits, Bytes.toBeBytes_append (by omega) (by omega), Bytes.toBeBytes_append (by omega) (by omega)]
  have back : ∀ limb : U64, Bytes.fromBeBytes 64 (Bytes.toBeBytes limb) = limb := Bytes.fromBeBytes_toBeBytes (by omega)
  refine ⟨spelled, fun x => ?_, fun bytes => ?_⟩
  · rw [toBeBytes_toList, fromBeBytes_append (Bytes.toBeBytes_length _) (Bytes.toBeBytes_length _)
      (Bytes.toBeBytes_length _), back, back, back]
  · have size : bytes.toList.length = 24 := Vector.length_toList
    have limb : ∀ off, off + 8 ≤ 24 → Bytes.toBeBytes (Bytes.fromBeBytes 64 (bytes.toList.extract off (off + 8))) =
        (bytes.toList.drop off).take 8 := fun off room => by
      rw [List.extract_eq_take_drop, Nat.add_sub_cancel_left, Bytes.toBeBytes_fromBeBytes]
      rw [List.length_take, List.length_drop]
      omega
    apply Vector.toList_inj.mp
    rw [toBeBytes_toList, fromBeBytes, limb 0 (by omega), limb 8 (by omega), limb 16 (by omega)]
    have last : (bytes.toList.drop 16).take 8 = (bytes.toList.drop 8).drop 8 := by
      rw [List.drop_drop, List.take_of_length_le (by rw [List.length_drop]; omega)]
    rw [last, List.take_append_drop, List.drop_zero, List.take_append_drop]

/-- The middle limb takes a carry of its own and one from below; the top limb gets what both pass on. -/
theorem add_bits (x y : I192) : ∃ z, x.add y = some z ∧ z.bits = x.bits + y.bits := by
  obtain ⟨lo, c1, atLo, loValue⟩ := overflowingAdd_exact x.lo y.lo
  obtain ⟨mid, c2, atMid, midValue⟩ := overflowingAdd_exact x.mid y.mid
  obtain ⟨mid', c1Mid, atCarry, carried⟩ := overflowingAdd_exact mid (ofFlag 64 c1)
  rw [ofFlag_toNat (by omega)] at carried
  have flag2 := Bool.toNat_le c2
  have flag1 := Bool.toNat_le c1Mid
  obtain ⟨carry, summed, value⟩ := add_exact (a := ofFlag 64 c2) (b := ofFlag 64 c1Mid)
    (by rw [ofFlag_toNat (by omega), ofFlag_toNat (by omega)]; omega)
  rw [ofFlag_toNat (by omega), ofFlag_toNat (by omega)] at value
  refine ⟨⟨x.hi + y.hi + carry, mid', lo⟩, ?_, ?_⟩
  · simp only [add, atLo, atMid, atCarry, summed, Option.bind_eq_bind, Option.bind_some]
  · apply BitVec.eq_of_toNat_eq
    simp only [bits_toNat, BitVec.toNat_add]
    omega

theorem sub_bits (x y : I192) : ∃ z, x.sub y = some z ∧ z.bits = x.bits - y.bits := by
  obtain ⟨lo, b1, atLo, loValue⟩ := overflowingSub_exact x.lo y.lo
  obtain ⟨mid, b2, atMid, midValue⟩ := overflowingSub_exact x.mid y.mid
  obtain ⟨mid', b1Mid, atBorrow, borrowed⟩ := overflowingSub_exact mid (ofFlag 64 b1)
  rw [ofFlag_toNat (by omega)] at borrowed
  have flag2 := Bool.toNat_le b2
  have flag1 := Bool.toNat_le b1Mid
  obtain ⟨borrow, summed, value⟩ := add_exact (a := ofFlag 64 b2) (b := ofFlag 64 b1Mid)
    (by rw [ofFlag_toNat (by omega), ofFlag_toNat (by omega)]; omega)
  rw [ofFlag_toNat (by omega), ofFlag_toNat (by omega)] at value
  have low := y.lo.isLt
  have middle := y.mid.isLt
  have high := y.hi.isLt
  refine ⟨⟨x.hi - y.hi - borrow, mid', lo⟩, ?_, ?_⟩
  · simp only [sub, atLo, atMid, atBorrow, summed, Option.bind_eq_bind, Option.bind_some]
  · apply BitVec.eq_of_toNat_eq
    simp only [bits_toNat, BitVec.toNat_sub]
    omega

theorem neg_bits (x : I192) : x.neg.bits = -x.bits := by
  obtain ⟨lo, c1, atLo, loValue⟩ := overflowingAdd_exact (~~~x.lo) 1
  obtain ⟨mid, c2, atMid, midValue⟩ := overflowingAdd_exact (~~~x.mid) (ofFlag 64 c1)
  have one : (1 : U64).toNat = 1 := rfl
  rw [ofFlag_toNat (by omega), BitVec.toNat_not] at midValue
  rw [one, BitVec.toNat_not] at loValue
  have low := x.lo.isLt
  have middle := x.mid.isLt
  have high := x.hi.isLt
  apply BitVec.eq_of_toNat_eq
  simp only [neg, atLo, atMid, bits_toNat, BitVec.toNat_neg, BitVec.toNat_add, BitVec.toNat_not,
    ofFlag_toNat (by omega : 0 < 64)]
  omega

theorem mulU64_exact (x y : U64) :
    ∃ h l, mulU64 x y = some (h, l) ∧ h.toNat * 2 ^ 64 + l.toNat = x.toNat * y.toNat := by
  obtain ⟨p, computed, value⟩ := mul_widened x y
  refine ⟨high p, low p, ?_, ?_⟩
  · rw [mulU64, computed]
    rfl
  · rw [halves_toNat p, value]

/-- The partial products below weight `2^192`, and a multiple of it. -/
theorem product_eq (a1 b1 c1 a2 b2 c2 : Nat) :
    (a1 * 2 ^ 128 + (b1 * 2 ^ 64 + c1)) * (a2 * 2 ^ 128 + (b2 * 2 ^ 64 + c2)) =
      c1 * c2 + (c1 * b2 + b1 * c2) * 2 ^ 64 + (c1 * a2 + b1 * b2 + a1 * c2) * 2 ^ 128 +
        2 ^ 192 * (b1 * a2 + a1 * b2 + a1 * a2 * 2 ^ 64) := by
  ring

/-- Cutting the column sums back to limbs loses only multiples of `2^192`. -/
theorem columns {p0h p0l p1h p1l p2h p2l p3h p3l p4h p4l p5h p5l mid hi : Nat} (small : p0l < 2 ^ 64)
    (midValue : mid = p0h + p1l + p2l) (hiValue : hi = p1h + p2h + mid / 2 ^ 64 + p3l + p4l + p5l) :
    hi % 2 ^ 64 * 2 ^ 128 + (mid % 2 ^ 64 * 2 ^ 64 + p0l) =
      (p0h * 2 ^ 64 + p0l + (p1h * 2 ^ 64 + p1l + (p2h * 2 ^ 64 + p2l)) * 2 ^ 64 +
        (p3h * 2 ^ 64 + p3l + (p4h * 2 ^ 64 + p4l) + (p5h * 2 ^ 64 + p5l)) * 2 ^ 128) % 2 ^ 192 := by
  omega

theorem mul_bits (x y : I192) : ∃ z, x.mul y = some z ∧ z.bits = x.bits * y.bits := by
  obtain ⟨p0Hi, p0Lo, at0, value0⟩ := mulU64_exact x.lo y.lo
  obtain ⟨p1Hi, p1Lo, at1, value1⟩ := mulU64_exact x.lo y.mid
  obtain ⟨p2Hi, p2Lo, at2, value2⟩ := mulU64_exact x.mid y.lo
  obtain ⟨_, p3Lo, at3, value3⟩ := mulU64_exact x.lo y.hi
  obtain ⟨_, p4Lo, at4, value4⟩ := mulU64_exact x.mid y.mid
  obtain ⟨_, p5Lo, at5, value5⟩ := mulU64_exact x.hi y.lo
  have wide : ∀ v : U64, (v.setWidth 128).toNat = v.toNat := widen_toNat
  have zero : (0 : U128).toNat = 0 := rfl
  obtain ⟨mid1, sum1, mid1Value⟩ := add_exact (a := p0Hi.setWidth 128) (b := p1Lo.setWidth 128)
    (by rw [wide, wide]; omega)
  obtain ⟨carry1, sum2, carry1Value⟩ := add_exact (a := (0 : U128)) (b := p1Hi.setWidth 128)
    (by rw [wide, zero]; omega)
  rw [wide, wide] at mid1Value
  rw [wide, zero] at carry1Value
  obtain ⟨mid2, sum3, mid2Value⟩ := add_exact (a := mid1) (b := p2Lo.setWidth 128) (by rw [wide]; omega)
  obtain ⟨carry2, sum4, carry2Value⟩ := add_exact (a := carry1) (b := p2Hi.setWidth 128) (by rw [wide]; omega)
  rw [wide] at mid2Value carry2Value
  have passed : (mid2 >>> 64).toNat = mid2.toNat / 2 ^ 64 := by
    rw [BitVec.toNat_ushiftRight, Nat.shiftRight_eq_div_pow]
  obtain ⟨carry, sum5, carryValue⟩ := add_exact (a := carry2) (b := mid2 >>> 64) (by rw [passed]; omega)
  rw [passed] at carryValue
  obtain ⟨hi1, sum6, hi1Value⟩ := add_exact (a := carry) (b := p3Lo.setWidth 128) (by rw [wide]; omega)
  rw [wide] at hi1Value
  obtain ⟨hi2, sum7, hi2Value⟩ := add_exact (a := hi1) (b := p4Lo.setWidth 128) (by rw [wide]; omega)
  rw [wide] at hi2Value
  obtain ⟨hi3, sum8, hi3Value⟩ := add_exact (a := hi2) (b := p5Lo.setWidth 128) (by rw [wide]; omega)
  rw [wide] at hi3Value
  refine ⟨⟨hi3.setWidth 64, mid2.setWidth 64, p0Lo⟩, ?_, ?_⟩
  · simp only [mul, at0, at1, at2, at3, at4, at5, sum1, sum2, sum3, sum4, sum5, sum6, sum7, sum8,
      Option.bind_eq_bind, Option.bind_some]
  · apply BitVec.eq_of_toNat_eq
    rw [BitVec.toNat_mul, bits_toNat, bits_toNat, bits_toNat, product_eq, Nat.add_mul_mod_self_left,
      BitVec.toNat_setWidth, BitVec.toNat_setWidth, ← value0, ← value1, ← value2, ← value3, ← value4, ← value5]
    exact columns p0Lo.isLt (by omega) (by omega)

end I192

/-- Every operation has a result, so no plain sum or product inside it overflows, and the result is the integer
one brought into `[-2^191, 2^191)`. -/
theorem i192_ring (x y : I192) :
    (∃ z, x.add y = some z ∧ z.val = (x.val + y.val).bmod (2 ^ 192)) ∧
      (∃ z, x.sub y = some z ∧ z.val = (x.val - y.val).bmod (2 ^ 192)) ∧
      x.neg.val = (-x.val).bmod (2 ^ 192) ∧
      ∃ z, x.mul y = some z ∧ z.val = (x.val * y.val).bmod (2 ^ 192) := by
  obtain ⟨sum, added, sumBits⟩ := I192.add_bits x y
  obtain ⟨difference, subtracted, differenceBits⟩ := I192.sub_bits x y
  obtain ⟨product, multiplied, productBits⟩ := I192.mul_bits x y
  simp only [I192.val_eq]
  refine ⟨⟨sum, added, ?_⟩, ⟨difference, subtracted, ?_⟩, ?_, product, multiplied, ?_⟩
  · rw [sumBits, BitVec.toInt_add]
  · rw [differenceBits, BitVec.toInt_sub]
  · rw [I192.neg_bits, BitVec.toInt_neg]
  · rw [productBits, BitVec.toInt_mul]

end Pich
