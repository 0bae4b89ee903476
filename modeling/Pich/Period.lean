import Mathlib.Algebra.Ring.Periodic
import Mathlib.Dynamics.PeriodicPts.Lemmas
import Pich.Permutation
import Pich.Specification

namespace Pich
open Generator Counting Runs

/-- The two rounds of a byte, from an even place in a ring of sixteen keys. -/
def stride (keys : KeyRing U128) (p : U128 × Fin 8) : U128 × Fin 8 :=
  (rounds Fallback.round128 keys.key (2 * p.2) 2 p.1, p.2 + 1)

theorem stride_injective (keys : KeyRing U128) : Function.Injective (stride keys) := by
  intro p q same
  obtain ⟨words, places⟩ := Prod.mk.inj same
  have place : p.2 = q.2 := add_right_cancel places
  rw [place] at words
  exact Prod.ext (rounds_injective _ round128_injective _ 2 words) place

theorem stride_iterate {keys : KeyRing U128} (sixteen : keys.keys.length = 16) (n : Nat) (w : U128) (i : Fin 8) :
    ((stride keys)^[n] (w, i)).1 = rounds Fallback.round128 keys.key (2 * i) (2 * n) w := by
  induction n generalizing w i with
  | zero => rfl
  | succ n ih =>
    have place : ∀ j, keys.key (2 * (i + 1 : Fin 8) + j) = keys.key (2 * i + 2 + j) := fun j => by
      refine keys.key_congr ?_
      rw [sixteen, Fin.val_add]
      change (2 * ((i + 1) % 8) + j) % 16 = _
      omega
    have total : 2 * (n + 1) = 2 + 2 * n := by omega
    rw [Function.iterate_succ_apply, stride, ih, rounds_congr _ place, total, rounds_add]

/-- The warm-up ends at the last even place of the ring. -/
theorem keystreamByte_stride (baseKey : String) (i : Nat) :
    keystreamByte baseKey i = tapped ((stride (ring baseKey))^[i + 1] (word baseKey WARMUP_ROUNDS, 7)).1 := by
  have sixteen : (ring baseKey).keys.length = 16 := State.keyRing_length plain _
  have place : ∀ j, (ring baseKey).key (0 + WARMUP_ROUNDS + j) = (ring baseKey).key (2 * (7 : Fin 8) + j) := fun j => by
    refine (ring baseKey).key_congr ?_
    rw [sixteen]
    change (0 + 62 + j) % 16 = (14 + j) % 16
    omega
  rw [stride_iterate sixteen, keystreamByte, word, rounds_add, rounds_congr _ place, word]

theorem keystreamByte_periodic (baseKey : String) :
    ∃ period, 0 < period ∧ period ≤ 2 ^ 131 ∧ Function.Periodic (keystreamByte baseKey) period := by
  let start : U128 × Fin 8 := (word baseKey WARMUP_ROUNDS, 7)
  have recurs := (stride_injective (ring baseKey)).mem_periodicPts start
  have positions : Fintype.card (U128 × Fin 8) = 2 ^ 131 := by
    rw [Fintype.card_prod, Fintype.card_fin, card_bitVec]
    omega
  refine ⟨_, Function.minimalPeriod_pos_of_mem_periodicPts recurs, positions ▸ Function.minimalPeriod_le_card,
    fun i => ?_⟩
  have order : i + Function.minimalPeriod (stride (ring baseKey)) start + 1 =
      i + 1 + Function.minimalPeriod (stride (ring baseKey)) start := Nat.add_right_comm _ _ _
  rw [keystreamByte_stride, keystreamByte_stride, order, Function.iterate_add_apply, Function.iterate_minimalPeriod]

/-- The keystream of a passphrase comes round after at most `2 ^ 131` bytes. From there on a cipher that is still in
use, in any program on any platform, gives away how its message differs from what it was a period before. -/
theorem keystream_repeats (baseKey : String) :
    ∃ period, 0 < period ∧ period ≤ 2 ^ 131 ∧ Function.Periodic (keystreamByte baseKey) period ∧
      ∀ (platform : Platform) (ops : List Op) (outs : List (List U8)) (ciphers : List Pich256) (h i : Nat),
        run (Op.apply platform) ops [] = some (outs, ciphers) → (baseKeys ops)[h]? = some baseKey →
        i + period < (given h ops).length →
        (returned h ops outs).getD i 0 ^^^ (returned h ops outs).getD (i + period) 0 =
          (given h ops).getD i 0 ^^^ (given h ops).getD (i + period) 0 := by
  obtain ⟨period, positive, bounded, periodic⟩ := keystreamByte_periodic baseKey
  refine ⟨period, positive, bounded, periodic, fun platform ops outs ciphers h i ran made within => ?_⟩
  have byte : ∀ j < (given h ops).length,
      (returned h ops outs).getD j 0 = keystreamByte baseKey j ^^^ (given h ops).getD j 0 := fun j below => by
    simp only [(handle_eq ran made).1, StreamCipher.folded, List.getD_eq_getElem?_getD, List.getElem?_mapIdx,
      List.getElem?_eq_getElem below, Option.map_some, Option.getD_some, Nat.zero_add]
  rw [byte i (by omega), byte (i + period) within, periodic i]
  generalize keystreamByte baseKey i = k
  rw [BitVec.xor_comm k, BitVec.xor_assoc, ← BitVec.xor_assoc k, BitVec.xor_self, BitVec.zero_xor]

end Pich
