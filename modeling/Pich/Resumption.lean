import Mathlib.Algebra.Group.Nat.Defs
import Pich.Keystream

namespace Pich
open Generator

/-- A call that stops after `n` bytes leaves the word, counter and position from which the next call goes on, each
call fills its whole buffer, and every round, numbered over both calls, takes the key its number names. -/
theorem keystreamCore_resumes (round : U128 → U128 → U128) (w : U128) {schedule : List U128}
    (nonempty : schedule ≠ []) (roundIndex : Usize) (n m : Nat)
    (fits : schedule.length ∣ 2 ^ 64 ∨ roundIndex.toNat + 2 * (n + m) ≤ 2 ^ 64 - 1) :
    ∃ (w₁ w₂ : U128) (index₁ index₂ : Usize) (front rest : List U8) (stop : Nat),
      keystreamCore w schedule roundIndex n round = some (w₁, index₁, front) ∧
      keystreamCore w₁ schedule index₁ m round = some (w₂, index₂, rest) ∧
      keystreamCore w schedule roundIndex (n + m) round = some (w₂, index₂, front ++ rest) ∧
      (front.length = n ∧ rest.length = m) ∧
      Reach (keystreamRound round schedule) w (roundIndex.toNat % schedule.length) (2 * n)
        w₁ (index₁.toNat % schedule.length) ∧
      Reach (keystreamRound round schedule) w (roundIndex.toNat % schedule.length) (2 * (n + m)) w₂ stop ∧
      ∀ i state pos,
        Reach (keystreamRound round schedule) w (roundIndex.toNat % schedule.length) i state pos →
        pos = (roundIndex.toNat + i) % schedule.length ∧ ∃ key next, schedule[pos]? = some key ∧
          keystreamRound round schedule state pos = some (round state key, next) := by
  obtain ⟨ring, rfl⟩ := KeyRing.of_nonempty nonempty
  have half : ring.keys.length ∣ 2 ^ 64 ∨ roundIndex.toNat + 2 * n ≤ 2 ^ 64 - 1 :=
    fits.imp_right fun below => by omega
  have counted : roundIndex + BitVec.ofNat 64 (2 * n) + BitVec.ofNat 64 (2 * m) =
      roundIndex + BitVec.ofNat 64 (2 * (n + m)) := by
    rw [Nat.mul_add, BitVec.ofNat_add, BitVec.add_assoc]
  refine ⟨_, _, _, _, _, _, (roundIndex.toNat + 2 * (n + m)) % ring.keys.length,
    keystreamCore_eq round ring w roundIndex n, keystreamCore_eq round ring _ _ m, ?_,
    ⟨emit_length .., emit_length ..⟩, ?_, ?_, fun i state pos reach => ?_⟩
  · rw [keystreamCore_eq, counted, rounds_congr round (wrapped_key half), emit_congr _ _ _ (wrapped_key half),
      ← rounds_add, ← emit_add, Nat.mul_add]
  · rw [wrapped_mod half]
    exact keystreamRound_reached round ring w roundIndex.toNat (2 * n)
  · rw [rounds_congr round (wrapped_key half), ← rounds_add, ← Nat.mul_add]
    exact keystreamRound_reached round ring w roundIndex.toNat (2 * (n + m))
  · obtain ⟨rfl, rfl⟩ := keystreamRound_reach reach
    exact ⟨rfl, _, _, ring.getElem?_mod _, keystreamRound_eq round ring _ _⟩

theorem keystreamCore_resumes_odd : ∃ (w' : U128) (index : Usize) (front rest : List U8),
    keystreamCore 5 [1, 2, 3] 7 3 Fallback.round128 = some (w', index, front ++ rest) ∧
      front.length = 1 ∧ rest.length = 2 := by
  obtain ⟨_, w', _, index, front, rest, _, _, _, whole, lengths, _⟩ :=
    keystreamCore_resumes Fallback.round128 5 (List.cons_ne_nil 1 [2, 3]) 7 1 2 (.inr (by decide))
  exact ⟨w', index, front, rest, whole, lengths⟩

end Pich
