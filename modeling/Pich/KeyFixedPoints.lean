import Pich.Base.TwoAdic
import Pich.KeyChain

namespace Pich
open TwoAdic

/-- The low 116 bits of a word that a step with multiplier `c` leaves alone, when its top seven bits are `t`. -/
def settled (c t : Nat) : Nat → Nat
  | 0 => 0
  | n + 1 => (settled c t n * 2 ^ 7 + t) * c % 2 ^ 116

/-- The words that a step could leave alone: the top seven bits settle everything but one bit of the product. -/
def candidates (c : Nat) : List Nat :=
  (List.range 128).flatMap fun t =>
    let low := (settled c t 17 * 2 ^ 7 + t) * c % 2 ^ 123
    [substituteNat (t / 8 * 2 ^ 124 + low), substituteNat (t / 8 * 2 ^ 124 + 2 ^ 123 + low)]

def fixedPoints (c : Nat) : List Nat := (candidates c).filter fun x => stepNat c x == x

theorem settled_modEq {c t x : Nat} (fixed : x ≡ (x * 2 ^ 7 + t) * c [MOD 2 ^ 116]) (n : Nat) :
    settled c t n ≡ x [MOD 2 ^ min 116 (7 * n)] := by
  induction n with
  | zero => exact Nat.modEq_one
  | succ n ih =>
    rw [Nat.mul_succ]
    exact affine_agree ih (Nat.mod_modEq _ _) fixed

/-- Seventeen rounds of the recurrence determine the low 116 bits of a fixed point. -/
theorem settled_eq {c x : Nat} (fixed : stepNat c x = x) : settled c (x / 2 ^ 121) 17 = x % 2 ^ 116 := by
  have affine := stepNat_modEq c x
  rw [fixed] at affine
  have reached : settled c (x / 2 ^ 121) 17 % 2 ^ 116 = x % 2 ^ 116 := settled_modEq affine 17
  rwa [settled, Nat.mod_mod, ← settled] at reached

/-- No fixed point is missed: one bit of the product is free, and both its values are tried. -/
theorem mem_fixedPoints {c x : Nat} (small : x < 2 ^ 128) (fixed : stepNat c x = x) : x ∈ fixedPoints c := by
  have unrolled : substituteNat ((x * 2 ^ 7 + x / 2 ^ 121) * c % 2 ^ 128) = x := fixed
  generalize product : (x * 2 ^ 7 + x / 2 ^ 121) * c % 2 ^ 128 = z at unrolled
  have top : z / 2 ^ 124 = x / 2 ^ 121 / 8 := by
    rw [Nat.div_div_eq_div_mul, ← unrolled]
    exact (substituteNat_parts z).1.symm
  have low : z % 2 ^ 123 = (settled c (x / 2 ^ 121) 17 * 2 ^ 7 + x / 2 ^ 121) * c % 2 ^ 123 := by
    rw [settled_eq fixed, ← product, Nat.mod_mod_of_dvd _ (Nat.pow_dvd_pow 2 (by omega))]
    exact affine_gains (s := 7) _ c (Nat.mod_modEq x (2 ^ 116)).symm
  refine List.mem_filter.mpr ⟨List.mem_flatMap.mpr ⟨x / 2 ^ 121, List.mem_range.mpr (by omega), ?_⟩, beq_iff_eq.mpr fixed⟩
  simp only [← low, ← top, List.mem_cons, List.not_mem_nil, or_false]
  -- the one bit of the product between the settled part and the unsubstituted top
  by_cases clear : z / 2 ^ 123 % 2 = 0
  · have shape : z / 2 ^ 124 * 2 ^ 124 + z % 2 ^ 123 = z := by omega
    rw [shape]
    exact .inl unrolled.symm
  · have shape : z / 2 ^ 124 * 2 ^ 124 + 2 ^ 123 + z % 2 ^ 123 = z := by omega
    rw [shape]
    exact .inr unrolled.symm

/-- The inverse of an odd number modulo `2^128`: each Newton step doubles the bits that are right. -/
def inverse (c : Nat) : Nat := (List.range 7).foldl (fun r _ => r * (2 ^ 128 + 2 - c * r % 2 ^ 128) % 2 ^ 128) 1

def rotate (x : Nat) : Nat := x * 2 ^ 7 % 2 ^ 128 + x / 2 ^ 121

def unrotate (r : Nat) : Nat := r / 2 ^ 7 + r % 2 ^ 7 * 2 ^ 121

/-- The words that a step with multiplier `c` takes to `y`. -/
def preimages (c y : Nat) : List Nat :=
  let d := (2 ^ 128).gcd c
  let n := 2 ^ 128 / d
  ((List.range 256).filter fun byte => sboxNat byte == y / 2 ^ 116 % 2 ^ 8).flatMap fun byte =>
    let z := y / 2 ^ 124 * 2 ^ 124 + (byte * 2 ^ 116 + y % 2 ^ 116)
    if z % d = 0 then (List.range d).map fun k => unrotate (z / d * inverse (c / d) % n + k * n) else []

theorem unrotate_rotate {x : Nat} (small : x < 2 ^ 128) : unrotate (rotate x) = x := by
  have shifted : x * 2 ^ 7 % 2 ^ 128 = x % 2 ^ 121 * 2 ^ 7 := by omega
  rw [unrotate, rotate, shifted]
  omega

theorem rotate_lt {x : Nat} (small : x < 2 ^ 128) : rotate x < 2 ^ 128 := by
  rw [rotate]
  omega

/-- A product with `c` modulo `2^128` gives the other factor away as far as `c` is invertible. -/
theorem factor_mod {c r z : Nat} (product : r * c % 2 ^ 128 = z)
    (inverted : c / (2 ^ 128).gcd c * inverse (c / (2 ^ 128).gcd c) % 2 ^ 128 = 1) :
    z % (2 ^ 128).gcd c = 0 ∧ r % (2 ^ 128 / (2 ^ 128).gcd c) =
      z / (2 ^ 128).gcd c * inverse (c / (2 ^ 128).gcd c) % (2 ^ 128 / (2 ^ 128).gcd c) := by
  have left := (2 ^ 128).gcd_dvd_left c
  have right := (2 ^ 128).gcd_dvd_right c
  have positive : 0 < (2 ^ 128).gcd c := Nat.gcd_pos_of_pos_left c (Nat.two_pow_pos 128)
  generalize (2 ^ 128).gcd c = d at *
  have divides : z % d = 0 := by
    rw [← product, Nat.mod_mod_of_dvd _ left]
    exact Nat.mod_eq_zero_of_dvd (right.mul_left r)
  refine ⟨divides, ?_⟩
  have scaled : r * (c / d) * d ≡ z / d * d [MOD 2 ^ 128 / d * d] := by
    rw [Nat.mul_assoc, Nat.div_mul_cancel right, Nat.div_mul_cancel (Nat.dvd_of_mod_eq_zero divides),
      Nat.div_mul_cancel left, ← product]
    exact (Nat.mod_modEq _ _).symm
  have reduced : r * (c / d) ≡ z / d [MOD 2 ^ 128 / d] := scaled.mul_right_cancel' (by omega)
  have unit : c / d * inverse (c / d) ≡ 1 [MOD 2 ^ 128 / d] :=
    (show c / d * inverse (c / d) ≡ 1 [MOD 2 ^ 128] from inverted).of_dvd (Nat.div_dvd_of_dvd left)
  have solved := reduced.mul_right (inverse (c / d))
  rw [Nat.mul_assoc] at solved
  have alone := (unit.mul_left r).symm.trans solved
  rwa [Nat.mul_one] at alone

/-- No preimage is missed, whichever byte stood under the substituted one. -/
theorem mem_preimages {c x y : Nat} (small : x < 2 ^ 128) (step : stepNat c x = y)
    (inverted : c / (2 ^ 128).gcd c * inverse (c / (2 ^ 128).gcd c) % 2 ^ 128 = 1) : x ∈ preimages c y := by
  have rotated : rotate x * c % 2 ^ 128 = (x * 2 ^ 7 + x / 2 ^ 121) * c % 2 ^ 128 :=
    ((Nat.mod_modEq _ _).add_right _).mul_right c
  have unrolled : substituteNat ((x * 2 ^ 7 + x / 2 ^ 121) * c % 2 ^ 128) = y := step
  rw [← rotated] at unrolled
  have within : rotate x * c % 2 ^ 128 < 2 ^ 128 := Nat.mod_lt _ (Nat.two_pow_pos 128)
  obtain ⟨divides, remainder⟩ := factor_mod (r := rotate x) rfl inverted
  generalize rotate x * c % 2 ^ 128 = z at *
  obtain ⟨high, named, low⟩ := substituteNat_parts z
  rw [unrolled] at high named low
  have shape : y / 2 ^ 124 * 2 ^ 124 + (z / 2 ^ 116 % 2 ^ 8 * 2 ^ 116 + y % 2 ^ 116) = z := by
    rw [high, low]
    omega
  refine List.mem_flatMap.mpr ⟨z / 2 ^ 116 % 2 ^ 8, List.mem_filter.mpr ⟨List.mem_range.mpr (by omega), ?_⟩, ?_⟩
  · rw [named, beq_self_eq_true]
  · have whole := Nat.div_mul_cancel ((2 ^ 128).gcd_dvd_left c)
    have bound := rotate_lt small
    simp only [shape, divides, if_true, ← remainder]
    refine List.mem_map.mpr ⟨rotate x / (2 ^ 128 / (2 ^ 128).gcd c), List.mem_range.mpr ?_, ?_⟩
    · exact Nat.div_lt_of_lt_mul (by rwa [whole])
    · rw [Nat.mul_comm (rotate x / _), Nat.mod_add_div, unrotate_rotate small]

/-- The seeds whose round key `i` is `y`. -/
def seedsOf : Nat → Nat → List Nat
  | 0, y => [y]
  | i + 1, y => (preimages (multiplier (i + 1)) y).flatMap (seedsOf i)

/-- Newton's iteration inverts the odd part of every multiplier that occurs. -/
theorem multiplier_inverted : ∀ x < 16, multiplier x / (2 ^ 128).gcd (multiplier x) *
    inverse (multiplier x / (2 ^ 128).gcd (multiplier x)) % 2 ^ 128 = 1 := by
  decide +kernel

theorem walkNat_lt (i n : Nat) (ke : I128) : walkNat i n ke.toNat < 2 ^ 128 := by
  rw [← walk_toNat ⟨false, false⟩]
  exact (walk _ i n ke).isLt

theorem mem_seedsOf {i : Nat} (listed : i < 16) (ke : I128) : ke.toNat ∈ seedsOf i (walkNat 0 i ke.toNat) := by
  induction i with
  | zero => exact List.mem_singleton_self _
  | succ i ih =>
    refine List.mem_flatMap.mpr ⟨walkNat 0 i ke.toNat, ?_, ih (by omega)⟩
    refine mem_preimages (walkNat_lt 0 i ke) ?_ (multiplier_inverted (i + 1) listed)
    rw [walkNat, Nat.zero_add]

/-- Everything from which two neighbouring round keys could be equal. -/
def search : List Nat := (List.range 15).flatMap fun i => (fixedPoints (multiplier (i + 1))).flatMap (seedsOf i)

theorem mem_search {i : Nat} (listed : i < 15) {ke : I128}
    (same : walkNat 0 i ke.toNat = walkNat 0 (i + 1) ke.toNat) : ke.toNat ∈ search := by
  rw [walkNat, Nat.zero_add] at same
  refine List.mem_flatMap.mpr ⟨i, List.mem_range.mpr listed, List.mem_flatMap.mpr ⟨walkNat 0 i ke.toNat, ?_, ?_⟩⟩
  · exact mem_fixedPoints (walkNat_lt 0 i ke) same.symm
  · exact mem_seedsOf (by omega) ke

/-- The seeds with two equal neighbours among their round keys. -/
def repeating : List I128 :=
  [0xce93063ee060e06a9f021df32460f3e7, 0x15c75512a6a82695a504a0643c281414, 0xe06ff9bf9fc39e07786f0965a3c1e1e1,
    0x1df7a79bb38f704a430fab8e560d422c, 0x1c08479bb38f704a430fab8e560d422c]

theorem search_eq : search = repeating.map BitVec.toNat := by decide +kernel

theorem mem_search_iff (ke : I128) : ke.toNat ∈ search ↔ ke ∈ repeating := by
  rw [search_eq, List.mem_map_of_injective fun _ _ same => BitVec.eq_of_toNat_eq same]

theorem walkNat_search : ∀ x ∈ search, ∃ i < 15, walkNat 0 i x = walkNat 0 (i + 1) x := by
  rw [search_eq]
  decide +kernel

end Pich
