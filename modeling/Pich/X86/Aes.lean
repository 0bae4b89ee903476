import Pich.X86.Rotate

namespace Pich.X86
open Lanes Intel

/-- `InvShiftRows` as a gather mask: `out[i] = in[INV_SHIFT_ROWS[i]]`. -/
def INV_SHIFT_ROWS : Vector U8 16 := #v[0, 13, 10, 7, 4, 1, 14, 11, 8, 5, 2, 15, 12, 9, 6, 3]

/-- The Rijndael affine matrix packed as eight row bytes. -/
def GFNI_SBOX_MATRIX : BitVec 64 := 0xF1E3C78F1F3E7CF8

def GFNI_SBOX_CONST : U8 := 0x63

/-- Substitutes all 16 bytes of `x` and mixes `key`, in two instructions. -/
def subBytesXorX16Aesni (x key : BitVec 128) : BitVec 128 :=
  let mask := Bytes.fromLeBytes 128 INV_SHIFT_ROWS.toList
  aesenclast (pshufb x mask) key

/-- The round in the AES instructions, the key addition within the last one. -/
def round128Aesni (w subKey : U128) : U128 := subBytesXorX16Aesni (rotr7X128 w) subKey

def subBytesX16Gfni (x : BitVec 128) : BitVec 128 :=
  gf2p8affineinvqb x (set1Epi64x 128 GFNI_SBOX_MATRIX) GFNI_SBOX_CONST

/-- The round as one affine instruction and the key addition. -/
def round128Gfni (w subKey : U128) : U128 := subBytesX16Gfni (rotr7X128 w) ^^^ subKey

theorem invShiftRows_gather : ∀ i < 16,
    (lane 8 (Bytes.fromLeBytes 128 INV_SHIFT_ROWS.toList) (i % 4 + 4 * ((i / 4 + i % 4) % 4))).msb = false ∧
    ((lane 8 (Bytes.fromLeBytes 128 INV_SHIFT_ROWS.toList) (i % 4 + 4 * ((i / 4 + i % 4) % 4))) &&&
      0x0f).toNat = i := by decide +kernel

/-- The gather undoes the row shift, so that only the substitution is left of the instruction. -/
theorem invShiftRows_cancels (x : BitVec 128) {i : Nat} (within : i < 16) :
    lane 8 (shiftRows (pshufb x (Bytes.fromLeBytes 128 INV_SHIFT_ROWS.toList))) i = lane 8 x i := by
  obtain ⟨low, target⟩ := invShiftRows_gather i within
  have fetched : i % 4 + 4 * ((i / 4 + i % 4) % 4) < 16 := by omega
  have group : 16 * ((i % 4 + 4 * ((i / 4 + i % 4) % 4)) / 16) = 0 := by omega
  rw [shiftRows, lane_ofLanes _ within (by omega), pshufb, lane_ofLanes _ fetched (by omega)]
  simp only [low, target, group, Bool.false_eq_true, if_false, Nat.zero_add]

theorem subBytesXorX16Aesni_eq (x key : BitVec 128) :
    subBytesXorX16Aesni x key = Fallback.substitute x ^^^ key := by
  rw [subBytesXorX16Aesni, aesenclast]
  congr 1
  refine Fallback.eq_substitute fun i within => ?_
  rw [lane_mapLanes _ _ within, invShiftRows_cancels x within, sbox_eq_rijndael]

theorem round128Aesni_eq (w subKey : U128) : round128Aesni w subKey = Fallback.round128 w subKey := by
  rw [round128Aesni, subBytesXorX16Aesni_eq, rotr7X128_eq, Fallback.round128_eq]

theorem affineByte_gfni (b : U8) : affineByte GFNI_SBOX_MATRIX GFNI_SBOX_CONST b = Gf256.affine b := by
  have checked := Gf256.of_allBytes
    (P := fun b => affineByte GFNI_SBOX_MATRIX GFNI_SBOX_CONST b == Gf256.affine b) (by decide +kernel) b
  exact eq_of_beq checked

theorem subBytesX16Gfni_eq (x : BitVec 128) : subBytesX16Gfni x = Fallback.substitute x := by
  refine Fallback.eq_substitute fun i within => ?_
  have matrix : lane 64 (set1Epi64x 128 GFNI_SBOX_MATRIX) (i / 8) = GFNI_SBOX_MATRIX :=
    lane_ofLanes _ (by omega) (by omega)
  rw [subBytesX16Gfni, gf2p8affineinvqb, lane_ofLanes _ within (by omega), matrix, affineByte_gfni,
    sbox_eq_rijndael, Gf256.rijndael]

theorem round128Gfni_eq (w subKey : U128) : round128Gfni w subKey = Fallback.round128 w subKey := by
  rw [round128Gfni, subBytesX16Gfni_eq, rotr7X128_eq, Fallback.round128_eq]

end Pich.X86
