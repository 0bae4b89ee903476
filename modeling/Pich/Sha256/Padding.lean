import Mathlib.Algebra.Group.Nat.Defs
import Pich.Base.MerkleDamgard
import Pich.Sha256.Digest

namespace Pich
open Bytes MerkleDamgard

theorem padZeros_eq (msg : List U8) :
    padZeros msg = msg ++ List.replicate ((120 - msg.length % 64) % 64) 0 := by
  induction msg using padZeros.induct with
  | case1 msg unaligned ih =>
    have size : (120 - msg.length % 64) % 64 = (120 - (msg.length + 1) % 64) % 64 + 1 := by omega
    rw [padZeros, if_pos unaligned, ih, List.length_append, List.length_singleton, size, List.replicate_succ,
      List.append_assoc, List.singleton_append]
  | case2 msg aligned =>
    have aligned : msg.length % 64 = 56 := by omega
    rw [padZeros, if_neg (by omega), aligned, List.replicate_zero, List.append_nil]

theorem padded_eq (data : List U8) :
    padded data = data ++ [0x80] ++ List.replicate ((119 - data.length % 64) % 64) 0 ++
      toBeBytes (BitVec.ofNat 64 data.length * 8 : U64) := by
  have zeros : (120 - (data.length + 1) % 64) % 64 = (119 - data.length % 64) % 64 := by omega
  rw [padded, padZeros_eq, List.length_append, List.length_singleton, zeros]

theorem padded_whole (data : List U8) : 64 ∣ (padded data).length := by
  rw [padded_eq, List.length_append, List.length_append, List.length_append, List.length_singleton,
    List.length_replicate, toBeBytes_length]
  omega

theorem padded_begins (data : List U8) : data <+: padded data := by
  rw [padded_eq, List.append_assoc, List.append_assoc]
  exact List.prefix_append _ _

/-- The least number of whole blocks with room for the marker and the length. -/
theorem padded_length (data : List U8) : (padded data).length = 64 * ((data.length + 72) / 64) := by
  rw [padded_eq, List.length_append, List.length_append, List.length_append, List.length_singleton,
    List.length_replicate, toBeBytes_length]
  omega

/-- The last eight bytes are the bit length. -/
theorem lastBlock_padded (data : List U8) :
    (lastBlock 64 (padded data)).drop 56 = toBeBytes (BitVec.ofNat 64 data.length * 8 : U64) := by
  have size := padded_length data
  have split := padded_eq data
  have front := congrArg List.length split
  rw [List.length_append, toBeBytes_length] at front
  rw [lastBlock, List.drop_drop, split, List.drop_left' (by rw [← split]; omega)]

/-- Below 2^61 bytes the bit length names the length. -/
theorem length_of_bits {n n' : Nat} (short : n < 2 ^ 61) (short' : n' < 2 ^ 61)
    (same : (BitVec.ofNat 64 n * 8 : U64) = BitVec.ofNat 64 n' * 8) : n = n' := by
  have values := congrArg BitVec.toNat same
  have eight : (8 : U64).toNat = 8 := rfl
  rw [BitVec.toNat_mul, BitVec.toNat_mul, BitVec.toNat_ofNat, BitVec.toNat_ofNat, eight] at values
  omega

theorem padded_compliant : Compliant 64 (fun m : List U8 => m.length < 2 ^ 61) padded where
  begins m _ := padded_begins m
  whole m _ := padded_whole m
  room m _ := by
    rw [padded_length]
    omega
  sameLength m m' _ _ same := by rw [padded_length, padded_length, same]
  marked m m' short short' different same := by
    have bits := congrArg (List.drop 56) same
    rw [lastBlock_padded, lastBlock_padded] at bits
    exact different (length_of_bits short short' (toBeBytes_injective (by omega) bits))

/-- The padding of messages of fewer than 2^61 bytes: what it keeps, how long it is, and that no padded message
is another or ends in another. -/
theorem padded_merkleDamgard {m m' : List U8} (short : m.length < 2 ^ 61) (short' : m'.length < 2 ^ 61) :
    m <+: padded m ∧
      (64 ∣ (padded m).length ∧ m.length + 9 ≤ (padded m).length ∧
        ∀ n, 64 ∣ n → m.length + 9 ≤ n → (padded m).length ≤ n) ∧
      (m.length = m'.length → (padded m).length = (padded m').length) ∧
      (m.length ≠ m'.length → lastBlock 64 (padded m) ≠ lastBlock 64 (padded m')) ∧
      (padded m = padded m' → m = m') ∧
      ∀ front, padded m' = front ++ padded m → front = [] := by
  have size := padded_length m
  refine ⟨padded_begins m, ⟨padded_whole m, by omega, fun n whole room => by omega⟩, ?_, ?_, ?_, ?_⟩
  · exact padded_compliant.sameLength m m' short short'
  · exact padded_compliant.marked m m' short short'
  · exact padded_compliant.injective short short'
  · exact fun front => padded_compliant.suffix_free short short'

/-- A message that ends like a padded one. -/
theorem padded_merkleDamgard_lookalike : padded [0x61, 0x80] ≠ padded [0x61] := by
  have long : ([0x61, 0x80] : List U8).length < 2 ^ 61 := by decide
  have short : ([0x61] : List U8).length < 2 ^ 61 := by decide
  obtain ⟨_, _, _, _, injective, _⟩ := padded_merkleDamgard long short
  exact fun same => absurd (injective same) (by decide)

end Pich
