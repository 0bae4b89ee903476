import Mathlib.Data.Nat.ModEq
import Mathlib.NumberTheory.Padics.PadicVal.Basic

namespace TwoAdic

/-- Multiplying by `c` forgets exactly what the modulus shares with it. -/
theorem mul_modEq_iff {n c x y : Nat} (positive : 0 < n) : x * c ≡ y * c [MOD n] ↔ x ≡ y [MOD n / n.gcd c] := by
  constructor
  · exact fun same => same.cancel_right_div_gcd positive
  · intro same
    have whole : n ∣ n / n.gcd c * c := by
      obtain ⟨k, split⟩ := n.gcd_dvd_right c
      refine ⟨k, ?_⟩
      rw [split, ← Nat.mul_assoc, ← split, Nat.div_mul_cancel (n.gcd_dvd_left c)]
    exact (same.mul_right' c).of_dvd whole

theorem gcd_two_pow {n : Nat} (nonzero : n ≠ 0) (w : Nat) : (2 ^ w).gcd n = 2 ^ min w (padicValNat 2 n) := by
  obtain ⟨k, below, shape⟩ := (Nat.dvd_prime_pow Nat.prime_two).mp (Nat.gcd_dvd_left (2 ^ w) n)
  have divides : 2 ^ k ∣ n := shape ▸ Nat.gcd_dvd_right (2 ^ w) n
  have common : 2 ^ min w (padicValNat 2 n) ∣ (2 ^ w).gcd n :=
    Nat.dvd_gcd (Nat.pow_dvd_pow 2 (Nat.min_le_left _ _))
      ((padicValNat_dvd_iff_le nonzero).mpr (Nat.min_le_right _ _))
  rw [shape, Nat.pow_dvd_pow_iff_le_right (by omega)] at common
  have largest := (padicValNat_dvd_iff_le nonzero).mp divides
  rw [shape]
  congr 1
  omega

/-- Shifting up by `s` bits before an affine map gains `s` bits of agreement. -/
theorem affine_gains {x y m s : Nat} (t c : Nat) (same : x ≡ y [MOD 2 ^ m]) :
    (x * 2 ^ s + t) * c ≡ (y * 2 ^ s + t) * c [MOD 2 ^ (m + s)] := by
  have shifted := same.mul_right' (2 ^ s)
  rw [← Nat.pow_add] at shifted
  exact (shifted.add_right t).mul_right c

/-- Two values that are affine in words below a limit agree on `s` more bits than the words, up to the limit. -/
theorem affine_agree {x y x' y' t c m w s : Nat} (same : x ≡ y [MOD 2 ^ min w m])
    (left : x' ≡ (x * 2 ^ s + t) * c [MOD 2 ^ w]) (right : y' ≡ (y * 2 ^ s + t) * c [MOD 2 ^ w]) :
    x' ≡ y' [MOD 2 ^ min w (m + s)] := by
  have next := affine_gains (s := s) t c same
  have lower : 2 ^ min w (m + s) ∣ 2 ^ (min w m + s) := Nat.pow_dvd_pow 2 (by omega)
  have limit : 2 ^ min w (m + s) ∣ 2 ^ w := Nat.pow_dvd_pow 2 (Nat.min_le_left _ _)
  exact (left.of_dvd limit).trans ((next.of_dvd lower).trans (right.of_dvd limit).symm)

/-- Agreement that grows whenever it is assumed reaches every bit below the limit. -/
theorem modEq_of_gains {x y w s : Nat} (positive : 0 < s)
    (gain : ∀ m, x ≡ y [MOD 2 ^ m] → x ≡ y [MOD 2 ^ min w (m + s)]) : x ≡ y [MOD 2 ^ w] := by
  have climbs : ∀ n, x ≡ y [MOD 2 ^ min w (n * s)] := by
    intro n
    induction n with
    | zero =>
      rw [Nat.zero_mul, Nat.min_zero, Nat.pow_zero]
      exact Nat.modEq_one
    | succ n ih =>
      refine (gain _ ih).of_dvd (Nat.pow_dvd_pow 2 ?_)
      rw [Nat.succ_mul]
      omega
  have high : min w (w * s) = w := Nat.min_eq_left (Nat.le_mul_of_pos_right w positive)
  rw [← high]
  exact climbs w

end TwoAdic
