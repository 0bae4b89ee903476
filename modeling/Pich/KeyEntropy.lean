import Pich.KeyRepeats

namespace Pich
open Counting

/-- The values that round key `x` takes over all seeds. -/
def values (platform : Platform) (x : Nat) : Finset I128 := Finset.univ.image (walk platform 0 x)

/-- A step takes no more values than its multiplier leaves residues apart. -/
theorem card_image_g (platform : Platform) (rc : BitVec 64) :
    (Finset.univ.image fun x => g platform x rc).card ≤ 2 ^ 128 / (2 ^ 128).gcd (rc.signExtend 128).toNat := by
  have criterion (x x' : I128) := g_eq_iff platform x x' rc
  have modest := Nat.div_le_self (2 ^ 128) ((2 ^ 128).gcd (rc.signExtend 128).toNat)
  have positive := Nat.div_pos (Nat.gcd_le_left (rc.signExtend 128).toNat (Nat.two_pow_pos 128))
    (Nat.gcd_pos_of_pos_left _ (Nat.two_pow_pos 128))
  generalize 2 ^ 128 / (2 ^ 128).gcd (rc.signExtend 128).toNat = m at *
  choose unrotate unrotated using Finite.injective_iff_surjective.mp rotl7_injective
  have back : ∀ y, (unrotate y).rotateLeft 7 = y := unrotated
  have covered : (Finset.univ.image fun x => g platform x rc) ⊆
      (Finset.range m).image fun r => g platform (unrotate (BitVec.ofNat 128 r)) rc := fun y member => by
    obtain ⟨x, _, rfl⟩ := Finset.mem_image.mp member
    have small := Nat.mod_lt (x.rotateLeft 7).toNat positive
    refine Finset.mem_image.mpr ⟨_, Finset.mem_range.mpr small, (criterion _ _).mpr ?_⟩
    rw [back, BitVec.toNat_ofNat, Nat.mod_eq_of_lt (by omega)]
    exact Nat.mod_modEq _ m
  calc _ ≤ _ := Finset.card_le_card covered
    _ ≤ (Finset.range m).card := Finset.card_image_le
    _ = m := Finset.card_range m

theorem card_values_succ (platform : Platform) (x : Nat) :
    (values platform (x + 1)).card ≤ (values platform x).card := by
  have stepped : values platform (x + 1) = (values platform x).image fun y => g platform y (roundRc (0 + x + 1)) := by
    rw [values, values, Finset.image_image]
    rfl
  rw [stepped]
  exact Finset.card_image_le

theorem card_values_antitone (platform : Platform) : Antitone fun x => (values platform x).card :=
  antitone_nat_of_succ_le (card_values_succ platform)

theorem card_values_step (platform : Platform) (i : Nat) :
    (values platform (i + 1)).card * (2 ^ 128).gcd (multiplier (i + 1)) ≤ 2 ^ 128 := by
  have among : values platform (i + 1) ⊆ Finset.univ.image fun x => g platform x (roundRc (0 + i + 1)) := fun y member => by
    obtain ⟨ke, _, rfl⟩ := Finset.mem_image.mp member
    exact Finset.mem_image.mpr ⟨walk platform 0 i ke, Finset.mem_univ _, rfl⟩
  have few := (Finset.card_le_card among).trans (card_image_g platform _)
  rw [Nat.zero_add] at few
  exact (Nat.mul_le_mul_right _ few).trans (Nat.div_mul_le_self _ _)

/-- Every seed lands on a value, and few share one. -/
theorem card_values_spread (platform : Platform) (x : Nat) : 2 ^ 128 ≤ spread x * (values platform x).card := by
  have all : (Finset.univ.filter fun ke => walk platform 0 x ke ∈ values platform x) = Finset.univ :=
    Finset.filter_true_of_mem fun ke _ => Finset.mem_image_of_mem _ (Finset.mem_univ ke)
  have bound := card_walk_preimage platform x (values platform x)
  rwa [all, Finset.card_univ, card_bitVec] at bound

/-- How many words occur as round key `x`. -/
noncomputable def subKeyCount (platform : Platform) (x : Nat) : Nat :=
  Nat.card {key // ∃ ke, ((genSubKeys platform ke).map Roundkey.subKey)[x]? = some key}

theorem subKeyCount_eq (platform : Platform) {x : Nat} (listed : x < 16) :
    subKeyCount platform x = (values platform x).card := by
  rw [subKeyCount, Nat.card_eq_fintype_card]
  refine Fintype.card_of_subtype (values platform x) fun key => ?_
  simp only [values, Finset.mem_image, Finset.mem_univ, true_and, subKey_eq platform _ listed, Option.some.injEq]

theorem sharing : spread 1 = 1 ∧ spread 4 = 2 ∧ spread 15 = 2 ^ 10 ∧
    (2 ^ 128).gcd (multiplier 2) = 2 ∧ (2 ^ 128).gcd (multiplier 11) = 2 ^ 4 := by decide +kernel

theorem card_values_early (platform : Platform) {x : Nat} (early : x ≤ 1) : (values platform x).card = 2 ^ 128 := by
  have all : (values platform x).card ≤ 2 ^ 128 := by
    rw [← card_bitVec 128]
    exact Finset.card_le_univ _
  have spreads := card_values_spread platform 1
  have later := card_values_antitone platform early
  rw [sharing.1, Nat.one_mul] at spreads
  exact Nat.le_antisymm all (spreads.trans later)

theorem card_values_middle (platform : Platform) {x : Nat} (low : 2 ≤ x) (high : x ≤ 4) :
    (values platform x).card = 2 ^ 127 := by
  have spreads := card_values_spread platform 4
  have halved : (values platform 2).card * (2 ^ 128).gcd (multiplier 2) ≤ 2 ^ 128 := card_values_step platform 1
  have before := card_values_antitone platform low
  have after := card_values_antitone platform high
  rw [sharing.2.1] at spreads
  rw [sharing.2.2.2.1] at halved
  simp only at before after
  omega

/-- How much of a seed a round key keeps. Every even constant on the way takes values away, down to at most `2 ^ 124`
at the last round key, and all the constants together leave at least `2 ^ 118`. -/
theorem roundKey_values (platform : Platform) :
    (∀ x < 16, 2 ^ 128 ≤ spread x * subKeyCount platform x ∧
      (∀ i < x, subKeyCount platform x * (2 ^ 128).gcd (multiplier (i + 1)) ≤ 2 ^ 128) ∧
      (x ≤ 1 → subKeyCount platform x = 2 ^ 128) ∧
      (2 ≤ x → x ≤ 4 → subKeyCount platform x = 2 ^ 127)) ∧
    2 ^ 118 ≤ subKeyCount platform 15 ∧ subKeyCount platform 15 ≤ 2 ^ 124 := by
  have lost (x i : Nat) (before : i < x) :
      (values platform x).card * (2 ^ 128).gcd (multiplier (i + 1)) ≤ 2 ^ 128 :=
    (Nat.mul_le_mul_right _ (card_values_antitone platform before)).trans (card_values_step platform i)
  refine ⟨fun x listed => ?_, ?_⟩
  · rw [subKeyCount_eq platform listed]
    exact ⟨card_values_spread platform x, lost x, card_values_early platform, card_values_middle platform⟩
  · have spreads := card_values_spread platform 15
    have quartered := lost 15 10 (by omega)
    rw [sharing.2.2.1] at spreads
    rw [sharing.2.2.2.2] at quartered
    rw [subKeyCount_eq platform (by omega)]
    omega

end Pich
