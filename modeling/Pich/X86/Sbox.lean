import Pich.Base.TableLookup
import Pich.X86.Rotate

namespace Pich.X86
open Lanes Intel TableLookup

/-- The bias that pushes every byte outside a row's window into the zeroed half. -/
def PSHUFB_BIAS : U8 := 0x70

/-- A load from the constant table, `m / 8` bytes from `off` on. -/
def loadSbox (m off : Nat) : BitVec m := Bytes.fromLeBytes m (SBOX.toList.drop off)

/-- The index shifted into a row's window, biased, and looked up: the body of `row!` and `pair!`. -/
def rowLookup {m : Nat} (table x shift : BitVec m) : BitVec m :=
  let bias := set1Epi8 m PSHUFB_BIAS
  let shifted := psubb x shift
  pshufb table (paddusb shifted bias)

def rowSsse3 (x : BitVec 128) (r : Nat) : BitVec 128 :=
  let row := r * 16
  rowLookup (loadSbox 128 row) x (set1Epi8 128 (BitVec.ofNat 8 row))

def subBytesX16Ssse3 (x : BitVec 128) : BitVec 128 :=
  let row := rowSsse3 x
  let a := (row 0 ||| row 1) ||| (row 2 ||| row 3)
  let b := (row 4 ||| row 5) ||| (row 6 ||| row 7)
  let c := (row 8 ||| row 9) ||| (row 10 ||| row 11)
  let d := (row 12 ||| row 13) ||| (row 14 ||| row 15)
  (a ||| b) ||| (c ||| d)

def rowAvx2 (x : BitVec 256) (r : Nat) : BitVec 256 :=
  let row := r * 16
  let half := loadSbox 128 row
  rowLookup (vbroadcasti128 half) x (set1Epi8 256 (BitVec.ofNat 8 row))

def subBytesX32Avx2 (x : BitVec 256) : BitVec 256 :=
  let row := rowAvx2 x
  let a := (row 0 ||| row 1) ||| (row 2 ||| row 3)
  let b := (row 4 ||| row 5) ||| (row 6 ||| row 7)
  let c := (row 8 ||| row 9) ||| (row 10 ||| row 11)
  let d := (row 12 ||| row 13) ||| (row 14 ||| row 15)
  (a ||| b) ||| (c ||| d)

/-- Rows `2p` in the low lane and `2p + 1` in the high lane. -/
def pairAvx2 (dup : BitVec 256) (p : Nat) : BitVec 256 :=
  let loRow := p * 32
  let hiRow := loRow + 16
  let table := set128 (loadSbox 128 hiRow) (loadSbox 128 loRow)
  let shift := set128 (set1Epi8 128 (BitVec.ofNat 8 hiRow)) (set1Epi8 128 (BitVec.ofNat 8 loRow))
  rowLookup table dup shift

def subBytesPairedAvx2 (dup : BitVec 256) : BitVec 256 :=
  let pair := pairAvx2 dup
  let a := (pair 0 ||| pair 1) ||| (pair 2 ||| pair 3)
  let b := (pair 4 ||| pair 5) ||| (pair 6 ||| pair 7)
  a ||| b

/-- Sixteen bytes in both lanes, so that eight pairs of rows do; the lanes are merged at the end. -/
def subBytesX16Avx2 (x : BitVec 128) : BitVec 128 :=
  let merged := subBytesPairedAvx2 (vbroadcasti128 x)
  cast256to128 merged ||| vextracti128 merged 1

/-- The whole table as two 128-byte halves, chosen between by the top bit of the index. -/
def subBytesX64Avx512 (x : BitVec 512) : BitVec 512 :=
  let t0 := loadSbox 512 0
  let t1 := loadSbox 512 64
  let t2 := loadSbox 512 128
  let t3 := loadSbox 512 192
  let lo := vpermi2b t0 x t1
  let hi := vpermi2b t2 x t3
  let highBit := vpmovb2m x
  vpblendmb highBit lo hi

def round128Ssse3 (w subKey : U128) : U128 := subBytesX16Ssse3 (rotr7X128 w) ^^^ subKey

def round128Avx2 (w subKey : U128) : U128 := subBytesX16Avx2 (rotr7X128 w) ^^^ subKey

/-- `upper` is what the widening cast leaves in the 384 undefined bits. -/
def round128Avx512 (upper : BitVec 384) (w subKey : U128) : U128 :=
  let rotated := cast128to512 upper (rotr7X128 w)
  let substituted := cast512to128 (subBytesX64Avx512 rotated)
  substituted ^^^ subKey

theorem lane_loadSbox {m off i : Nat} (within : i < m / 8) (small : off + i < 256) :
    lane 8 (loadSbox m off) i = sbox (BitVec.ofNat 8 (off + i)) := by
  have value : (BitVec.ofNat 8 (off + i)).toNat = off + i := by
    rw [BitVec.toNat_ofNat]
    exact Nat.mod_eq_of_lt small
  have bound : off + i < SBOX.toList.length := by simpa using small
  rw [loadSbox, Bytes.lane_fromLeBytes _ within, List.getD_eq_getElem?_getD, List.getElem?_drop,
    List.getElem?_eq_getElem bound, Option.getD_some, sbox]
  simp only [value, Vector.getElem_toList]
  rfl

theorem lane_rowLookup {m i : Nat} (table x shift : BitVec m) (within : i < m / 8) :
    lane 8 (rowLookup table x shift) i =
      pick (lane 128 table (i / 16)) (addSat (lane 8 x i - lane 8 shift i) 0x70) := by
  have bias : lane 8 (set1Epi8 m PSHUFB_BIAS) i = 0x70 := lane_ofLanes _ within (lane_room within)
  rw [rowLookup, lane_pshufb _ _ within, paddusb, lane_zipLanes _ _ _ within, psubb,
    lane_zipLanes _ _ _ within, bias]

/-- A row answers exactly for the bytes whose high nibble is its number. -/
theorem pick_row {r : Nat} (small : r < 16) (b : U8) :
    pick (loadSbox 128 (r * 16)) (biased r b) = if b.toNat / 16 = r then sbox b else 0 := by
  rw [pick_biased small]
  split
  · rename_i hit
    have column := Nat.mod_lt b.toNat (by omega : 16 > 0)
    have place : r * 16 + b.toNat % 16 = b.toNat := by omega
    rw [lane_loadSbox column (by omega), place, BitVec.ofNat_toNat, BitVec.setWidth_eq]
  · rfl

/-- One row against every byte of a register whose lanes all hold that row of the table. -/
theorem lane_row {m r i : Nat} {table : BitVec m} (x : BitVec m) (small : r < 16) (within : i < m / 8)
    (holds : lane 128 table (i / 16) = loadSbox 128 (r * 16)) :
    lane 8 (rowLookup table x (set1Epi8 m (BitVec.ofNat 8 (r * 16)))) i =
      if (lane 8 x i).toNat / 16 = r then sbox (lane 8 x i) else 0 := by
  have shift : lane 8 (set1Epi8 m (BitVec.ofNat 8 (r * 16))) i = BitVec.ofNat 8 (16 * r) := by
    rw [set1Epi8, lane_ofLanes _ within (lane_room within), Nat.mul_comm]
  rw [lane_rowLookup _ _ _ within, shift, holds]
  exact pick_row small _

theorem lane_rowSsse3 (x : BitVec 128) {r i : Nat} (small : r < 16) (within : i < 16) :
    lane 8 (rowSsse3 x r) i = if (lane 8 x i).toNat / 16 = r then sbox (lane 8 x i) else 0 :=
  lane_row x small within (by rw [Nat.div_eq_of_lt within, lane_self])

theorem lane_rowAvx2 (x : BitVec 256) {r i : Nat} (small : r < 16) (within : i < 32) :
    lane 8 (rowAvx2 x r) i = if (lane 8 x i).toNat / 16 = r then sbox (lane 8 x i) else 0 :=
  lane_row x small within (lane_vbroadcasti128 _ (by omega))

/-- One row answers and fifteen give zero, so their union is the table. -/
theorem lane_subBytesX16Ssse3 (x : BitVec 128) {i : Nat} (within : i < 16) :
    lane 8 (subBytesX16Ssse3 x) i = sbox (lane 8 x i) := by
  have small : (lane 8 x i).toNat / 16 < 16 := Nat.div_lt_of_lt_mul (lane 8 x i).isLt
  simp only [subBytesX16Ssse3, lane_or]
  exact merge_rows small (f := fun r => lane 8 (rowSsse3 x r) i) fun r bound => lane_rowSsse3 x bound within

theorem lane_subBytesX32Avx2 (x : BitVec 256) {i : Nat} (within : i < 32) :
    lane 8 (subBytesX32Avx2 x) i = sbox (lane 8 x i) := by
  have small : (lane 8 x i).toNat / 16 < 16 := Nat.div_lt_of_lt_mul (lane 8 x i).isLt
  simp only [subBytesX32Avx2, lane_or]
  exact merge_rows small (f := fun r => lane 8 (rowAvx2 x r) i) fun r bound => lane_rowAvx2 x bound within

theorem lane_pairAvx2 (x : BitVec 128) {p h i : Nat} (small : p < 8) (half : h < 2) (within : i < 16) :
    lane 8 (pairAvx2 (vbroadcasti128 x) p) (16 * h + i) =
      if (lane 8 x i).toNat / 16 = 2 * p + h then sbox (lane 8 x i) else 0 := by
  have cases : h = 0 ∨ h = 1 := by omega
  have group : (16 * h + i) / 16 = h := by omega
  have inner : ∀ hi lo : BitVec 128, lane 8 (hi ++ lo) (16 * h + i) = lane 8 (lane 128 (hi ++ lo) h) i :=
    fun hi lo => (lane_lane (by omega : 128 = 8 * 16) _ h within).symm
  have table : lane 128 (set128 (loadSbox 128 (p * 32 + 16)) (loadSbox 128 (p * 32))) h =
      loadSbox 128 ((2 * p + h) * 16) := by
    rw [set128, lane_halves _ _ half]
    rcases cases with rfl | rfl
    · rw [if_pos rfl]
      congr 1
      omega
    · rw [if_neg (by omega)]
      congr 1
      omega
  have shift : lane 8 (set128 (set1Epi8 128 (BitVec.ofNat 8 (p * 32 + 16)))
      (set1Epi8 128 (BitVec.ofNat 8 (p * 32)))) (16 * h + i) = BitVec.ofNat 8 (16 * (2 * p + h)) := by
    rw [set128, inner, lane_halves _ _ half]
    rcases cases with rfl | rfl
    · rw [if_pos rfl, set1Epi8, lane_ofLanes _ within (by omega)]
      congr 1
      omega
    · rw [if_neg (by omega), set1Epi8, lane_ofLanes _ within (by omega)]
      congr 1
      omega
  have source : lane 8 (vbroadcasti128 x) (16 * h + i) = lane 8 x i := by
    rw [vbroadcasti128, inner, lane_halves _ _ half, ite_self]
  rw [pairAvx2, lane_rowLookup _ _ _ (by omega), group, table, shift, source]
  exact pick_row (by omega) _

/-- The paired lookup carries the even rows' answers low and the odd rows' high; merged, they are
the substitution. -/
theorem fold_subBytesPairedAvx2 (x : BitVec 128) {i : Nat} (within : i < 16) :
    lane 8 (subBytesPairedAvx2 (vbroadcasti128 x)) i |||
      lane 8 (subBytesPairedAvx2 (vbroadcasti128 x)) (16 + i) = sbox (lane 8 x i) := by
  have small : (lane 8 x i).toNat / 16 < 16 := Nat.div_lt_of_lt_mul (lane 8 x i).isLt
  have low : ∀ p, p < 8 → lane 8 (pairAvx2 (vbroadcasti128 x) p) i =
      if (lane 8 x i).toNat / 16 = 2 * p then sbox (lane 8 x i) else 0 := fun p bound => by
    simpa only [Nat.mul_zero, Nat.zero_add, Nat.add_zero] using
      lane_pairAvx2 x (h := 0) bound (by omega) within
  have high : ∀ p, p < 8 → lane 8 (pairAvx2 (vbroadcasti128 x) p) (16 + i) =
      if (lane 8 x i).toNat / 16 = 2 * p + 1 then sbox (lane 8 x i) else 0 := fun p bound => by
    simpa only [Nat.mul_one] using lane_pairAvx2 x (h := 1) bound (by omega) within
  simp only [subBytesPairedAvx2, lane_or]
  rw [low 0 (by omega), low 1 (by omega), low 2 (by omega), low 3 (by omega), low 4 (by omega),
    low 5 (by omega), low 6 (by omega), low 7 (by omega), high 0 (by omega), high 1 (by omega),
    high 2 (by omega), high 3 (by omega), high 4 (by omega), high 5 (by omega), high 6 (by omega),
    high 7 (by omega)]
  exact merge_row_pairs small
    (f := fun r => if (lane 8 x i).toNat / 16 = r then sbox (lane 8 x i) else 0) fun r _ => rfl

theorem lane_subBytesX16Avx2 (x : BitVec 128) {i : Nat} (within : i < 16) :
    lane 8 (subBytesX16Avx2 x) i = sbox (lane 8 x i) := by
  have high : lane 8 (vextracti128 (subBytesPairedAvx2 (vbroadcasti128 x)) 1) i =
      lane 8 (subBytesPairedAvx2 (vbroadcasti128 x)) (16 + i) := by
    rw [vextracti128, lane_lane (r := 16) (by omega) _ 1 within]
  rw [← fold_subBytesPairedAvx2 x within, subBytesX16Avx2]
  simp only [lane_or, cast256to128, lane_setWidth _ (by omega : 8 * (i + 1) ≤ 128), high]

theorem lane_halfTable (off : Nat) {k : Nat} (bound : off + 128 ≤ 256) (within : k < 128) :
    lane 8 (loadSbox 512 (off + 64) ++ loadSbox 512 off) k = sbox (BitVec.ofNat 8 (off + k)) := by
  by_cases low : k < 64
  · rw [lane_append_low _ _ (by omega), lane_loadSbox low (by omega)]
  · have place : k = 64 + (k - 64) := by omega
    have shifted : off + 64 + (k - 64) = off + k := by omega
    rw [place, lane_append_high (by omega) _ _ (k - 64), lane_loadSbox (by omega) (by omega), shifted, ← place]

/-- The top bit of the index chooses between the two answers of its low seven bits. -/
theorem lane_subBytesX64Avx512 (x : BitVec 512) {i : Nat} (within : i < 64) :
    lane 8 (subBytesX64Avx512 x) i = sbox (lane 8 x i) := by
  have index : ((lane 8 x i) &&& 0x7f).toNat = (lane 8 x i).toNat % 128 := by
    rw [BitVec.toNat_and]
    exact Nat.and_two_pow_sub_one_eq_mod _ 7
  have small : (lane 8 x i).toNat % 128 < 128 := Nat.mod_lt _ (by omega)
  have mask : (vpmovb2m x).getLsbD i = (lane 8 x i).msb := by
    rw [vpmovb2m, getLsbD_ofLanes]
    simp [within, Nat.mod_one]
  have lo : lane 8 (vpermi2b (loadSbox 512 0) x (loadSbox 512 64)) i =
      sbox (BitVec.ofNat 8 ((lane 8 x i).toNat % 128)) := by
    rw [vpermi2b, lane_ofLanes _ within (by omega), index, lane_halfTable 0 (by omega) small,
      Nat.zero_add]
  have hi : lane 8 (vpermi2b (loadSbox 512 128) x (loadSbox 512 192)) i =
      sbox (BitVec.ofNat 8 (128 + (lane 8 x i).toNat % 128)) := by
    rw [vpermi2b, lane_ofLanes _ within (by omega), index, lane_halfTable 128 (by omega) small]
  have whole : BitVec.ofNat 8 (lane 8 x i).toNat = lane 8 x i := by
    rw [BitVec.ofNat_toNat, BitVec.setWidth_eq]
  rw [subBytesX64Avx512, vpblendmb, lane_ofLanes _ within (by omega), mask, lo, hi, BitVec.msb_eq_decide]
  have bound := (lane 8 x i).isLt
  by_cases upperHalf : 128 ≤ (lane 8 x i).toNat
  · have place : 128 + (lane 8 x i).toNat % 128 = (lane 8 x i).toNat := by omega
    simp only [Nat.reduceSub, Nat.reducePow, upperHalf, decide_true, if_true, place, whole]
  · have place : (lane 8 x i).toNat % 128 = (lane 8 x i).toNat := by omega
    simp only [Nat.reduceSub, Nat.reducePow, upperHalf, decide_false, Bool.false_eq_true, if_false, place, whole]

theorem round128Ssse3_eq (w subKey : U128) : round128Ssse3 w subKey = Fallback.round128 w subKey :=
  round128_of_bytes (fun x _ within => lane_subBytesX16Ssse3 x within) w subKey

theorem round128Avx2_eq (w subKey : U128) : round128Avx2 w subKey = Fallback.round128 w subKey :=
  round128_of_bytes (fun x _ within => lane_subBytesX16Avx2 x within) w subKey

/-- The undefined upper bits never reach the low 128 bits of the result. -/
theorem round128Avx512_eq (upper : BitVec 384) (w subKey : U128) :
    round128Avx512 upper w subKey = Fallback.round128 w subKey := by
  refine round128_of_bytes (f := fun x => cast512to128 (subBytesX64Avx512 (cast128to512 upper x)))
    (fun x i within => ?_) w subKey
  rw [cast512to128, lane_setWidth _ (by omega), lane_subBytesX64Avx512 _ (by omega), cast128to512,
    lane_append_low _ _ (by omega)]

end Pich.X86
