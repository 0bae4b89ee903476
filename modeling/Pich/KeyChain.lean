import Mathlib.Data.Nat.Digits.Lemmas
import Mathlib.Data.Nat.ModEq
import Pich.KeySchedule

namespace Pich
open Lanes Bytes Checked

/-- A step of the schedule before its byte is substituted. -/
def product (x : I128) (rc : BitVec 64) : U128 := x.rotateLeft 7 * rc.signExtend 128

/-- The substituted byte sits four bits below the top. -/
def substituteTop (z : U128) : U128 :=
  z.extractLsb' 124 4 ++ (sbox (z.extractLsb' 116 8) ++ z.extractLsb' 0 116)

theorem getLsbD_substituteTop (z : U128) {k : Nat} (small : k < 128) :
    (substituteTop z).getLsbD k =
      if 116 ≤ k ∧ k < 124 then (sbox (z.extractLsb' 116 8)).getLsbD (k - 116) else z.getLsbD k := by
  rw [substituteTop, BitVec.getLsbD_append, BitVec.getLsbD_append]
  by_cases low : k < 116
  · rw [if_pos (by omega), if_pos low, if_neg (by omega), BitVec.getLsbD_extractLsb', decide_eq_true low,
      Bool.true_and, Nat.zero_add]
  · by_cases middle : k < 124
    · rw [if_pos (by omega), if_neg low, if_pos (by omega)]
    · have place : 124 + (k - (8 + 116)) = k := by omega
      have within : k - (8 + 116) < 4 := by omega
      rw [if_neg (by omega), if_neg (by omega), BitVec.getLsbD_extractLsb', decide_eq_true within, Bool.true_and, place]

theorem getLsbD_rotl {x : U128} {r k : Nat} (short : r < 128) (small : k < 128) :
    (x.rotateLeft r).getLsbD k = x.getLsbD ((k + (128 - r)) % 128) := by
  rw [BitVec.getLsbD_rotateLeft, Bool.cond_decide, Nat.mod_eq_of_lt short, decide_eq_true small, Bool.true_and]
  by_cases spill : k < r
  · have place : (k + (128 - r)) % 128 = 128 - r + k := by omega
    rw [if_pos spill, place]
  · have place : (k + (128 - r)) % 128 = k - r := by omega
    rw [if_neg spill, place]

theorem getLsbD_rotr {x : U128} {r k : Nat} (short : r < 128) (small : k < 128) :
    (x.rotateRight r).getLsbD k = x.getLsbD ((k + r) % 128) := by
  rw [BitVec.getLsbD_rotateRight, Bool.cond_decide, Nat.mod_eq_of_lt short, decide_eq_true small, Bool.true_and]
  by_cases stays : k < 128 - r
  · have place : (k + r) % 128 = r + k := by omega
    rw [if_pos stays, place]
  · have place : (k + r) % 128 = k - (128 - r) := by omega
    rw [if_neg stays, place]

/-- The rotates around the substitution only move its byte. -/
theorem g_eq (platform : Platform) (x : I128) (rc : BitVec 64) : g platform x rc = substituteTop (product x rc) := by
  let z := product x rc
  have seven : (7 : U32).toNat = 7 := rfl
  have four : (4 : U32).toNat = 4 := rfl
  have byte : (toLeBytes (z.rotateRight 4)).getD 14 0 = z.extractLsb' 116 8 := by
    rw [toLeBytes_getD _ (by omega)]
    apply BitVec.eq_of_getLsbD_eq
    intro k small
    have place : (8 * 14 + k + 4) % 128 = 116 + k := by omega
    rw [getLsbD_lane, getLsbD_rotr (by omega) (by omega), place, BitVec.getLsbD_extractLsb']
  apply BitVec.eq_of_getLsbD_eq
  intro k small
  have unrolled : g platform x rc =
      (fromLeBytes 128 ((toLeBytes (z.rotateRight 4)).set 14 (sbox (z.extractLsb' 116 8)))).rotateLeft 4 := by
    simp only [g, Arch.rotl128_eq, Arch.mul128_eq, Arch.rotr128_eq, seven, four]
    rw [← byte]
    rfl
  have source : ((k + (128 - 4)) % 128 + 4) % 128 = k := by omega
  rw [getLsbD_substituteTop _ small, unrolled, getLsbD_rotl (by omega) small, getLsbD_eq_lane (by omega : 0 < 8),
    lane_setByte _ _ _ (by omega)]
  by_cases inside : 116 ≤ k ∧ k < 124
  · have place : (k + (128 - 4)) % 128 % 8 = k - 116 := by omega
    rw [if_pos (by omega), if_pos inside, place]
  · rw [if_neg (by omega), if_neg inside, ← getLsbD_eq_lane (by omega : 0 < 8), getLsbD_rotr (by omega) (by omega),
      source]

theorem substituteTop_toNat (z : U128) : (substituteTop z).toNat =
    z.toNat / 2 ^ 124 * 2 ^ 124 + ((sbox (BitVec.ofNat 8 (z.toNat / 2 ^ 116))).toNat * 2 ^ 116 + z.toNat % 2 ^ 116) := by
  have bound := z.isLt
  have byte : z.extractLsb' 116 8 = BitVec.ofNat 8 (z.toNat / 2 ^ 116) := by
    rw [BitVec.extractLsb', Nat.shiftRight_eq_div_pow]
  have nibble : (z.extractLsb' 124 4).toNat = z.toNat / 2 ^ 124 := by
    rw [BitVec.extractLsb'_toNat, Nat.shiftRight_eq_div_pow]
    omega
  rw [substituteTop, toNat_append_eq, toNat_append_eq, byte, nibble, BitVec.extractLsb'_toNat, Nat.shiftRight_zero]

/-- The whole table as one number, least significant byte first. -/
def tableNat : Nat := Nat.ofDigits 256 (SBOX.toList.map BitVec.toNat)

def sboxNat (byte : Nat) : Nat := tableNat / 256 ^ byte % 256

def substituteNat (z : Nat) : Nat :=
  z / 2 ^ 124 * 2 ^ 124 + (sboxNat (z / 2 ^ 116 % 2 ^ 8) * 2 ^ 116 + z % 2 ^ 116)

/-- A step of the schedule on plain numbers. -/
def stepNat (c x : Nat) : Nat := substituteNat ((x * 2 ^ 7 + x / 2 ^ 121) * c % 2 ^ 128)

theorem sboxNat_eq {byte : Nat} (small : byte < 2 ^ 8) : sboxNat byte = (sbox (BitVec.ofNat 8 byte)).toNat := by
  have bound : byte < (SBOX.toList.map BitVec.toNat).length := by
    rwa [List.length_map, Vector.length_toList]
  have value : (BitVec.ofNat 8 byte).toNat = byte := Nat.mod_eq_of_lt small
  have entry : (SBOX.toList.map BitVec.toNat)[byte] = (sbox (BitVec.ofNat 8 byte)).toNat := by
    simp only [List.getElem_map, Vector.getElem_toList, sbox, value]
    rfl
  rw [sboxNat, tableNat, Nat.ofDigits_div_pow_eq_ofDigits_drop _ (by omega) _ ?_, List.drop_eq_getElem_cons bound,
    Nat.ofDigits_cons, entry, Nat.add_mul_mod_self_left]
  · exact Nat.mod_eq_of_lt (sbox (BitVec.ofNat 8 byte)).isLt
  · intro digit listed
    obtain ⟨entry, _, rfl⟩ := List.mem_map.mp listed
    exact entry.isLt

theorem sboxNat_lt (byte : Nat) : sboxNat byte < 256 := Nat.mod_lt _ (by omega)

/-- The substitution keeps what lies above and below its byte. -/
theorem substituteNat_parts (z : Nat) :
    substituteNat z / 2 ^ 124 = z / 2 ^ 124 ∧ substituteNat z / 2 ^ 116 % 2 ^ 8 = sboxNat (z / 2 ^ 116 % 2 ^ 8) ∧
      substituteNat z % 2 ^ 116 = z % 2 ^ 116 := by
  have byte := sboxNat_lt (z / 2 ^ 116 % 2 ^ 8)
  rw [substituteNat]
  omega

theorem rotl7_toNat (x : U128) : (x.rotateLeft 7).toNat = x.toNat * 2 ^ 7 % 2 ^ 128 + x.toNat / 2 ^ 121 := by
  have bound := x.isLt
  have low : x.toNat / 2 ^ 121 < 2 ^ 7 := by omega
  have shifted : x.toNat * 2 ^ 7 % 2 ^ 128 = (x.toNat % 2 ^ 121) <<< 7 := by
    rw [Nat.shiftLeft_eq]
    omega
  rw [BitVec.toNat_rotateLeft, Nat.mod_eq_of_lt (by omega : 7 < 128), Nat.shiftLeft_eq, Nat.shiftRight_eq_div_pow,
    shifted, Nat.shiftLeft_add_eq_or_of_lt low]

/-- What round key `x` multiplies by. -/
def multiplier (x : Nat) : Nat := ((roundRc x).signExtend 128).toNat

theorem g_toNat (platform : Platform) (x : I128) (rc : BitVec 64) :
    (g platform x rc).toNat = stepNat (rc.signExtend 128).toNat x.toNat := by
  have rotated : (x.rotateLeft 7).toNat ≡ x.toNat * 2 ^ 7 + x.toNat / 2 ^ 121 [MOD 2 ^ 128] := by
    rw [rotl7_toNat]
    exact (Nat.mod_modEq _ _).add_right _
  have multiplied : (product x rc).toNat =
      (x.toNat * 2 ^ 7 + x.toNat / 2 ^ 121) * (rc.signExtend 128).toNat % 2 ^ 128 := by
    rw [product, BitVec.toNat_mul]
    exact rotated.mul_right _
  have byte : BitVec.ofNat 8 ((product x rc).toNat / 2 ^ 116) =
      BitVec.ofNat 8 ((product x rc).toNat / 2 ^ 116 % 2 ^ 8) := by
    apply BitVec.eq_of_toNat_eq
    rw [BitVec.toNat_ofNat, BitVec.toNat_ofNat, Nat.mod_mod]
  rw [g_eq, substituteTop_toNat, byte, ← sboxNat_eq (Nat.mod_lt _ (by omega)), multiplied]
  rfl

/-- Below the substituted byte a step is affine, given the seven bits that the rotate brings round. -/
theorem stepNat_modEq (c x : Nat) : stepNat c x ≡ (x * 2 ^ 7 + x / 2 ^ 121) * c [MOD 2 ^ 116] := by
  have whole : 2 ^ 116 ∣ 2 ^ 128 := Nat.pow_dvd_pow 2 (by omega)
  exact Nat.ModEq.trans (substituteNat_parts _).2.2 ((Nat.mod_modEq _ (2 ^ 128)).of_dvd whole)

/-- The walk on plain numbers. -/
def walkNat (i : Nat) : Nat → Nat → Nat
  | 0, x => x
  | n + 1, x => stepNat (multiplier (i + n + 1)) (walkNat i n x)

theorem walk_toNat (platform : Platform) (i n : Nat) (x : I128) :
    (walk platform i n x).toNat = walkNat i n x.toNat := by
  induction n with
  | zero => rfl
  | succ n ih => rw [walk, g_toNat, ih, walkNat, multiplier]

theorem walk_add (platform : Platform) (i n : Nat) (ke : I128) :
    walk platform 0 (i + n) ke = walk platform i n (walk platform 0 i ke) := by
  induction n with
  | zero => rfl
  | succ n ih => rw [← Nat.add_assoc, walk, ih, walk, Nat.zero_add]

end Pich
