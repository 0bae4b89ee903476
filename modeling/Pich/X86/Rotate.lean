import Pich.Base.Intel
import Pich.Fallback

namespace Pich.X86
open Lanes Intel

/-- The rotate by 7 put together from per-quadword shifts and an exchange of quadwords. -/
def rotr7 {m : Nat} (x : BitVec m) : BitVec m :=
  let down := psrlq x 7
  let up := psllq x 57
  let crossed := pshufd up 0x4E
  down ||| crossed

def rotr7X128 (x : BitVec 128) : BitVec 128 := rotr7 x

def rotr7DupAvx2 (x : BitVec 256) : BitVec 256 := rotr7 x

theorem getLsbD_psrlq {m : Nat} (whole : 64 ∣ m) (x : BitVec m) {count : Nat} (p : Nat) :
    (psrlq x count).getLsbD p =
      (decide (p < m) && decide (p % 64 + count < 64) && x.getLsbD (p + count)) := by
  have covers := Nat.mul_div_cancel' whole
  have place : 64 * (p / 64) + (count + p % 64) = p + count := by omega
  rw [psrlq, mapLanes, getLsbD_ofLanes, covers, BitVec.getLsbD_ushiftRight, getLsbD_lane, place,
    Nat.add_comm (p % 64)]
  cases decide (p < m) <;> simp

theorem getLsbD_psllq {m : Nat} (whole : 64 ∣ m) (x : BitVec m) {count : Nat} (p : Nat) :
    (psllq x count).getLsbD p =
      (decide (p < m) && decide (count ≤ p % 64) && x.getLsbD (p - count)) := by
  have covers := Nat.mul_div_cancel' whole
  have small := Nat.mod_lt p (by omega : 64 > 0)
  rw [psllq, mapLanes, getLsbD_ofLanes, covers, BitVec.getLsbD_shiftLeft, getLsbD_lane]
  by_cases above : count ≤ p % 64
  · have place : 64 * (p / 64) + (p % 64 - count) = p - count := by omega
    have inside : p % 64 - count < 64 := by omega
    simp [above, small, place, inside, Nat.not_lt.mpr above]
  · simp [above, Nat.lt_of_not_le above]

theorem getLsbD_pshufd_swap {m : Nat} (whole : 128 ∣ m) (x : BitVec m) {p : Nat} (inside : p < m) :
    (pshufd x 0x4E).getLsbD p = x.getLsbD (128 * (p / 128) + (p + 64) % 128) := by
  have covers := Nat.mul_div_cancel' (Nat.dvd_trans (by omega : 32 ∣ 128) whole)
  have fields : (((0x4E : BitVec 8) >>> (2 * (p / 32 % 4))) &&& 3).toNat = (p / 32 + 2) % 4 := by
    have listed : p / 32 % 4 = 0 ∨ p / 32 % 4 = 1 ∨ p / 32 % 4 = 2 ∨ p / 32 % 4 = 3 := by omega
    rcases listed with field | field | field | field <;> rw [field] <;> simp <;> omega
  have place : 32 * (4 * (p / 32 / 4) + (p / 32 + 2) % 4) + p % 32 = 128 * (p / 128) + (p + 64) % 128 := by
    omega
  have small := Nat.mod_lt p (by omega : 32 > 0)
  rw [pshufd, getLsbD_ofLanes, covers, fields, getLsbD_lane, place]
  simp [inside, small]

/-- In every 128-bit lane the three instructions rotate right by 7. -/
theorem lane_rotr7 {m j : Nat} (whole : 128 ∣ m) (x : BitVec m) (within : 128 * (j + 1) ≤ m) :
    lane 128 (rotr7 x) j = (lane 128 x j).rotateRight 7 := by
  have quads : 64 ∣ m := Nat.dvd_trans (by omega : 64 ∣ 128) whole
  apply BitVec.eq_of_getLsbD_eq
  intro k hk
  have inside : 128 * j + k < m := by omega
  have group : (128 * j + k) / 128 = j := by omega
  have target : 128 * ((128 * j + k) / 128) + (128 * j + k + 64) % 128 = 128 * j + (k + 64) % 128 := by omega
  have swapped : 128 * j + (k + 64) % 128 < m := by omega
  have quad : (128 * j + (k + 64) % 128) % 64 = k % 64 := by omega
  have lower : (128 * j + k) % 64 = k % 64 := by omega
  rw [getLsbD_lane, rotr7]
  simp only [hk, decide_true, Bool.true_and, BitVec.getLsbD_or, getLsbD_psrlq quads,
    getLsbD_pshufd_swap whole _ inside, target, getLsbD_psllq quads, inside, swapped, quad, lower,
    BitVec.getLsbD_rotateRight, getLsbD_lane]
  by_cases straight : k % 64 < 57
  · have noSpill : ¬ 57 ≤ k % 64 := by omega
    have near : k % 64 + 7 < 64 := by omega
    have low : k < 121 := by omega
    have place : 128 * j + k + 7 = 128 * j + (7 + k) := by omega
    have small : 7 + k < 128 := by omega
    simp [noSpill, near, low, place, small]
  · have spill : 57 ≤ k % 64 := by omega
    have far : ¬ k % 64 + 7 < 64 := by omega
    by_cases high : k < 121
    · have place : 128 * j + (k + 64) % 128 - 57 = 128 * j + (7 + k) := by omega
      have small : 7 + k < 128 := by omega
      simp [spill, far, high, place, small]
    · have place : 128 * j + (k + 64) % 128 - 57 = 128 * j + (k - 121) := by omega
      have small : k - 121 < 128 := by omega
      simp [spill, far, high, place, small]

theorem rotr7X128_eq (x : U128) : rotr7X128 x = x.rotateRight 7 := by
  have only := lane_rotr7 (j := 0) (by omega) x (by omega)
  rwa [lane_self, lane_self] at only

/-- Any substitution of the bytes, between the rotate and the key, is the portable round. -/
theorem round128_of_bytes {f : U128 → U128} (bytes : ∀ x i, i < 16 → lane 8 (f x) i = sbox (lane 8 x i))
    (w subKey : U128) : f (rotr7X128 w) ^^^ subKey = Fallback.round128 w subKey := by
  rw [Fallback.round128_eq, rotr7X128_eq, Fallback.eq_substitute (bytes (w.rotateRight 7))]

end Pich.X86
