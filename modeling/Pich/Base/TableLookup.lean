import Pich.Base.Intel

namespace TableLookup
open Lanes Intel

/-- The index byte offered to row `r`: shifted into the row's window, then biased so that
everything outside the window saturates into the half that `pshufb` zeroes. -/
def biased (r : Nat) (b : BitVec 8) : BitVec 8 := addSat (b - BitVec.ofNat 8 (16 * r)) 0x70

/-- What `pshufb` takes from one row: nothing for an index with its top bit set. -/
def pick (row : BitVec 128) (sel : BitVec 8) : BitVec 8 :=
  if sel.msb then 0 else lane 8 row (sel &&& 0x0f).toNat

theorem addSat_toNat (a b : BitVec 8) : (addSat a b).toNat = min (a.toNat + b.toNat) 255 := by
  unfold addSat
  split
  · rw [BitVec.toNat_add]
    omega
  · simp only [BitVec.reduceToNat]
    omega

theorem shifted_toNat {r : Nat} (small : r < 16) (b : BitVec 8) :
    (b - BitVec.ofNat 8 (16 * r)).toNat = (256 - 16 * r + b.toNat) % 256 := by
  rw [BitVec.toNat_sub, BitVec.toNat_ofNat, Nat.mod_eq_of_lt (by omega : 16 * r < 2 ^ 8)]

theorem biased_hit {r : Nat} {b : BitVec 8} (small : r < 16) (hit : b.toNat / 16 = r) :
    (biased r b).toNat = b.toNat % 16 + 112 := by
  have shifted := shifted_toNat small b
  rw [biased, addSat_toNat, shifted]
  simp only [BitVec.reduceToNat]
  omega

/-- Any other index, below the window or above it, ends in the half that gives zero. -/
theorem biased_miss {r : Nat} {b : BitVec 8} (small : r < 16) (miss : b.toNat / 16 ≠ r) :
    128 ≤ (biased r b).toNat := by
  have shifted := shifted_toNat small b
  have bound := b.isLt
  rw [biased, addSat_toNat, shifted]
  simp only [BitVec.reduceToNat]
  omega

theorem low_nibble (b : BitVec 8) : (b &&& 0x0f).toNat = b.toNat % 16 := by
  rw [BitVec.toNat_and]
  exact Nat.and_two_pow_sub_one_eq_mod b.toNat 4

/-- Exactly the row named by the high nibble answers; every other row gives zero. -/
theorem pick_biased {r : Nat} (small : r < 16) (row : BitVec 128) (b : BitVec 8) :
    pick row (biased r b) = if b.toNat / 16 = r then lane 8 row (b.toNat % 16) else 0 := by
  unfold pick
  by_cases hit : b.toNat / 16 = r
  · have value := biased_hit small hit
    have low : (biased r b).msb = false := by
      rw [BitVec.msb_eq_decide]
      simp only [value, decide_eq_false_iff_not]
      omega
    have nibble : (b.toNat % 16 + 112) % 16 = b.toNat % 16 := by omega
    simp only [low, hit, low_nibble, value, nibble, Bool.false_eq_true, if_false, if_true]
  · have high : (biased r b).msb = true := by
      rw [BitVec.msb_eq_decide]
      simpa only [decide_eq_true_eq] using biased_miss small hit
    simp only [high, hit, if_true, if_false]

theorem lane_pshufb {m i : Nat} (table index : BitVec m) (within : i < m / 8) :
    lane 8 (pshufb table index) i = pick (lane 128 table (i / 16)) (lane 8 index i) := by
  have inner : lane 8 (pshufb table index) i =
      (let sel := lane 8 index i
       if sel.msb then 0 else lane 8 table (16 * (i / 16) + (sel &&& 0x0f).toNat)) :=
    lane_ofLanes _ within (lane_room within)
  have nibble : ((lane 8 index i) &&& 0x0f).toNat < 16 := by rw [low_nibble]; omega
  rw [inner, pick, lane_lane (by omega : 128 = 8 * 16) table (i / 16) nibble]

theorem merge_rows {q : Nat} (small : q < 16) {t : BitVec 8} {f : Nat → BitVec 8}
    (rows : ∀ r, r < 16 → f r = if q = r then t else 0) :
    ((f 0 ||| f 1 ||| (f 2 ||| f 3)) ||| (f 4 ||| f 5 ||| (f 6 ||| f 7))) |||
      ((f 8 ||| f 9 ||| (f 10 ||| f 11)) ||| (f 12 ||| f 13 ||| (f 14 ||| f 15))) = t := by
  have listed : q = 0 ∨ q = 1 ∨ q = 2 ∨ q = 3 ∨ q = 4 ∨ q = 5 ∨ q = 6 ∨ q = 7 ∨ q = 8 ∨ q = 9 ∨
      q = 10 ∨ q = 11 ∨ q = 12 ∨ q = 13 ∨ q = 14 ∨ q = 15 := by omega
  rcases listed with rfl | rfl | rfl | rfl | rfl | rfl | rfl | rfl | rfl | rfl | rfl | rfl | rfl |
    rfl | rfl | rfl <;> simp [rows]

theorem merge_row_pairs {q : Nat} (small : q < 16) {t : BitVec 8} {f : Nat → BitVec 8}
    (rows : ∀ r, r < 16 → f r = if q = r then t else 0) :
    ((f 0 ||| f 2 ||| (f 4 ||| f 6)) ||| (f 8 ||| f 10 ||| (f 12 ||| f 14))) |||
      ((f 1 ||| f 3 ||| (f 5 ||| f 7)) ||| (f 9 ||| f 11 ||| (f 13 ||| f 15))) = t := by
  rw [← merge_rows small rows]
  ac_rfl

end TableLookup
