import Pich.Base.TwoAdic
import Pich.KeyChain
import Pich.Permutation

namespace Pich
open TwoAdic Counting

theorem substituteTop_injective : Function.Injective substituteTop := by
  intro z z' same
  have bits : ∀ k, k < 128 → (substituteTop z).getLsbD k = (substituteTop z').getLsbD k := fun k _ => by rw [same]
  have bytes : z.extractLsb' 116 8 = z'.extractLsb' 116 8 := by
    apply sbox_injective
    apply BitVec.eq_of_getLsbD_eq
    intro j small
    have bit := bits (116 + j) (by omega)
    rw [getLsbD_substituteTop _ (by omega), getLsbD_substituteTop _ (by omega), if_pos (by omega), if_pos (by omega),
      Nat.add_sub_cancel_left] at bit
    exact bit
  apply BitVec.eq_of_getLsbD_eq
  intro k small
  by_cases inside : 116 ≤ k ∧ k < 124
  · have bit := congrArg (fun byte : U8 => byte.getLsbD (k - 116)) bytes
    have place : 116 + (k - 116) = k := by omega
    have within : k - 116 < 8 := by omega
    simpa only [BitVec.getLsbD_extractLsb', within, place, decide_true, Bool.true_and] using bit
  · have bit := bits k small
    rwa [getLsbD_substituteTop _ small, getLsbD_substituteTop _ small, if_neg inside, if_neg inside] at bit

/-- A step tells two words apart exactly as far as its multiplier does. -/
theorem g_eq_iff (platform : Platform) (x x' : I128) (rc : BitVec 64) :
    g platform x rc = g platform x' rc ↔
      (x.rotateLeft 7).toNat ≡ (x'.rotateLeft 7).toNat [MOD 2 ^ 128 / (2 ^ 128).gcd (rc.signExtend 128).toNat] := by
  rw [g_eq, g_eq, substituteTop_injective.eq_iff, ← mul_modEq_iff (Nat.two_pow_pos 128), ← BitVec.toNat_inj, product,
    product, BitVec.toNat_mul, BitVec.toNat_mul, Nat.ModEq]

theorem signExtend_value (rc : BitVec 64) : ((rc.signExtend 128).toNat : Int) = rc.toInt % 2 ^ 128 := by
  have small : ((rc.signExtend 128).toNat : Int) < 2 ^ 128 := by exact_mod_cast (rc.signExtend 128).isLt
  rw [← BitVec.toInt_signExtend_of_le (by omega : 64 ≤ 128), BitVec.toInt_eq_toNat_bmod]
  exact ((Int.bmod_emod).trans (Int.emod_eq_of_lt (by omega) small)).symm

/-- The multiplier shares with the modulus what the constant does. -/
theorem gcd_signExtend {rc : BitVec 64} (nonzero : rc ≠ 0) :
    (2 ^ 128).gcd (rc.signExtend 128).toNat = 2 ^ min 128 (padicValInt 2 rc.toInt) := by
  have shared : (2 ^ 128).gcd (rc.signExtend 128).toNat = (2 ^ 128).gcd rc.toInt.natAbs := by
    have reduced := Int.gcd_emod rc.toInt (2 ^ 128)
    rw [← signExtend_value] at reduced
    rw [Nat.gcd_comm, Nat.gcd_comm (2 ^ 128)]
    exact reduced
  have nonzero : rc.toInt.natAbs ≠ 0 := by
    rw [Int.natAbs_ne_zero]
    exact fun zero => nonzero (BitVec.toInt_inj.mp zero)
  rw [shared, gcd_two_pow nonzero, padicValInt]

theorem g_eq_iff_of_ne_zero (platform : Platform) {rc : BitVec 64} (nonzero : rc ≠ 0) (x x' : I128) :
    g platform x rc = g platform x' rc ↔
      (x.rotateLeft 7).toNat ≡ (x'.rotateLeft 7).toNat [MOD 2 ^ (128 - padicValInt 2 rc.toInt)] := by
  have exponent : 128 - min 128 (padicValInt 2 rc.toInt) = 128 - padicValInt 2 rc.toInt := by omega
  rw [g_eq_iff, gcd_signExtend nonzero, Nat.pow_div (Nat.min_le_left _ _) (by omega), exponent]

theorem rotl7_injective : Function.Injective fun x : U128 => x.rotateLeft 7 := by
  intro x x' same
  apply BitVec.eq_of_getLsbD_eq
  intro k small
  have bit := congrArg (fun y : U128 => y.getLsbD ((k + 7) % 128)) same
  have place : ((k + 7) % 128 + (128 - 7)) % 128 = k := by omega
  simpa only [getLsbD_rotl (by omega : 7 < 128) (by omega : (k + 7) % 128 < 128), place] using bit

theorem g_injective (platform : Platform) {rc : BitVec 64} (odd : Odd rc.toInt) :
    Function.Injective fun x => g platform x rc := by
  intro x x' same
  have nonzero : rc ≠ 0 := by
    rintro rfl
    exact absurd odd (by decide)
  have valuation : padicValInt 2 rc.toInt = 0 :=
    padicValInt.eq_zero_of_not_dvd (Int.two_dvd_ne_zero.mpr (Int.odd_iff.mp odd))
  have congruent := (g_eq_iff_of_ne_zero platform nonzero x x').mp same
  rw [valuation] at congruent
  exact rotl7_injective (BitVec.eq_of_toNat_eq (congruent.eq_of_lt_of_lt (x.rotateLeft 7).isLt (x'.rotateLeft 7).isLt))

/-- An even constant loses at least the top bit after the rotate. -/
theorem g_collides (platform : Platform) {rc : BitVec 64} (even : ¬ Odd rc.toInt) :
    ∃ x x', x ≠ x' ∧ g platform x rc = g platform x' rc := by
  have value := signExtend_value rc
  have halved : 2 ∣ (2 ^ 128).gcd (rc.signExtend 128).toNat := by
    have parity : rc.toInt % 2 = 0 := Int.not_odd_iff.mp even
    exact Nat.dvd_gcd (by omega) (by omega)
  obtain ⟨half, shape⟩ := halved
  have whole := Nat.div_mul_cancel ((2 ^ 128).gcd_dvd_left (rc.signExtend 128).toNat)
  have reaches : 2 ^ 128 / (2 ^ 128).gcd (rc.signExtend 128).toNat ∣ 2 ^ 127 := by
    refine ⟨half, ?_⟩
    rw [shape, Nat.mul_left_comm] at whole
    rw [shape]
    omega
  have zero : ((0 : I128).rotateLeft 7).toNat = 0 := rfl
  have top : ((1 <<< 120 : I128).rotateLeft 7).toNat = 2 ^ 127 := rfl
  refine ⟨0, 1 <<< 120, by decide, (g_eq_iff platform _ _ rc).mpr ?_⟩
  rw [zero, top]
  exact ((Nat.modEq_zero_iff_dvd).mpr reaches).symm

theorem g_bijective_iff (platform : Platform) (rc : BitVec 64) :
    (Function.Bijective fun x => g platform x rc) ↔ Odd rc.toInt := by
  constructor
  · intro bijective
    refine Decidable.byContradiction fun even => ?_
    obtain ⟨x, x', different, same⟩ := g_collides platform even
    exact different (bijective.injective same)
  · exact fun odd => Finite.injective_iff_bijective.mp (g_injective platform odd)

theorem subKey_eq (platform : Platform) (ke : I128) {x : Nat} (listed : x < 16) :
    ((genSubKeys platform ke).map Roundkey.subKey)[x]? = some (walk platform 0 x ke) := by
  rw [genSubKeys_eq, List.getElem?_map, List.getElem?_range listed, Option.map_some]

theorem walk_one_injective (platform : Platform) : Function.Injective (walk platform 0 1) :=
  g_injective platform (by decide)

/-- From the second step on two seeds have met, and they stay together. -/
theorem walk_collides (platform : Platform) {x : Nat} (late : 2 ≤ x) :
    ∃ ke ke', ke ≠ ke' ∧ walk platform 0 x ke = walk platform 0 x ke' := by
  induction x, late using Nat.le_induction with
  | base =>
    obtain ⟨y, y', different, same⟩ := g_collides platform (by decide : ¬ Odd (roundRc 2).toInt)
    have surjective := Finite.injective_iff_surjective.mp (walk_one_injective platform)
    obtain ⟨ke, rfl⟩ := surjective y
    obtain ⟨ke', rfl⟩ := surjective y'
    exact ⟨ke, ke', fun equal => different (by rw [equal]), same⟩
  | succ x _ ih =>
    obtain ⟨ke, ke', different, same⟩ := ih
    exact ⟨ke, ke', different, by rw [walk, walk, same]⟩

/-- What a step of the key schedule loses, for which constants it loses nothing, and how far seeds are kept apart. -/
theorem keySchedule_loss (platform : Platform) :
    (∀ rc : BitVec 64, rc ≠ 0 → ∀ x x', g platform x rc = g platform x' rc ↔
      (x.rotateLeft 7).toNat ≡ (x'.rotateLeft 7).toNat [MOD 2 ^ (128 - padicValInt 2 rc.toInt)]) ∧
    (∀ rc : BitVec 64, (Function.Bijective fun x => g platform x rc) ↔ Odd rc.toInt) ∧
    ∀ x, x < 16 → ((Function.Injective fun ke => ((genSubKeys platform ke).map Roundkey.subKey)[x]?) ↔ x ≤ 1) := by
  refine ⟨fun rc nonzero => g_eq_iff_of_ne_zero platform nonzero, g_bijective_iff platform, fun x listed => ?_⟩
  simp only [subKey_eq platform _ listed]
  constructor
  · intro injective
    refine Decidable.byContradiction fun late => ?_
    obtain ⟨ke, ke', different, same⟩ := walk_collides platform (x := x) (by omega)
    exact different (injective (congrArg some same))
  · intro early ke ke' same
    have equal := Option.some.inj same
    obtain rfl | rfl : x = 0 ∨ x = 1 := by omega
    · exact equal
    · exact walk_one_injective platform equal

end Pich
