import Mathlib.GroupTheory.OrderOfElement
import Pich.Base.Counting
import Pich.State

namespace Pich
open Lanes Generator Counting

section Round

/-- Every byte occurs in the table: the entries together set all 256 bits. -/
theorem SBOX_mask : mask SBOX.toList = 2 ^ 256 - 1 := by decide +kernel

theorem sbox_surjective : Function.Surjective sbox := by
  intro y
  obtain ⟨i, bound, entry⟩ := List.mem_iff_getElem.mp (mem_of_mask SBOX_mask y)
  have within : i < 256 := by rwa [Vector.length_toList] at bound
  refine ⟨BitVec.ofNat 8 i, ?_⟩
  have index : (BitVec.ofNat 8 i).toNat = i := by
    rw [BitVec.toNat_ofNat]
    omega
  rw [← entry, Vector.getElem_toList]
  simp only [sbox, index]
  rfl

/-- The table is a permutation of the bytes, being onto. -/
theorem sbox_injective : Function.Injective sbox := Finite.injective_iff_surjective.mpr sbox_surjective

theorem rotateRight_injective : Function.Injective fun w : U128 => w.rotateRight 7 := by
  intro x y same
  apply BitVec.eq_of_getLsbD_eq
  intro k hk
  have bit := congrArg (fun w : U128 => w.getLsbD ((k + 121) % 128)) same
  simp only [BitVec.getLsbD_rotateRight] at bit
  by_cases low : k < 7
  · have place : (k + 121) % 128 = k + 121 := by omega
    have back : k + 121 - 121 = k := by omega
    simpa [place, back, show ¬ k + 121 < 121 by omega, show k + 121 < 128 by omega] using bit
  · have place : (k + 121) % 128 = k - 7 := by omega
    have back : 7 + (k - 7) = k := by omega
    simpa [place, back, show k - 7 < 121 by omega] using bit

theorem substitute_injective : Function.Injective Fallback.substitute := by
  intro x y same
  refine eq_of_lanes 8 16 (by omega) fun i within => sbox_injective ?_
  rw [← Fallback.lane_substitute x within, ← Fallback.lane_substitute y within, same]

theorem round128_injective (subKey : U128) : Function.Injective fun w => Fallback.round128 w subKey := by
  intro x y same
  exact rotateRight_injective (substitute_injective ((BitVec.xor_left_inj subKey).mp same))

end Round

namespace State

/-- What a round acts on: the word and the place in the ring of sixteen keys. -/
def position (s : State) : U128 × Fin 16 := (s.w, ⟨s.roundIndex.toNat % 16, Nat.mod_lt _ (by decide)⟩)

/-- One round on positions: the key is that of the place, and the place moves along the ring. -/
def transition (ring : KeyRing U128) (p : U128 × Fin 16) : U128 × Fin 16 :=
  (Fallback.round128 p.1 (ring.key p.2), p.2 + 1)

theorem transition_injective (ring : KeyRing U128) : Function.Injective (transition ring) := by
  intro p q same
  obtain ⟨words, places⟩ := Prod.mk.inj same
  have place : p.2 = q.2 := add_right_cancel places
  rw [place] at words
  exact Prod.ext (round128_injective _ words) place

noncomputable def permutation (ring : KeyRing U128) : Equiv.Perm (U128 × Fin 16) :=
  Equiv.ofBijective (transition ring) (Finite.injective_iff_bijective.mp (transition_injective ring))

section Sixteen
variable {ring : KeyRing U128} (sixteen : ring.keys.length = 16)
include sixteen

theorem whole_of_sixteen : ring.keys.length ∣ 2 ^ 64 := by rw [sixteen]; omega

theorem position_advanced_one (s : State) : (s.advanced ring 1).position = permutation ring s.position := by
  have place : ring.key (s.roundIndex.toNat % 16) = ring.key s.roundIndex.toNat :=
    ring.key_congr (by rw [sixteen, Nat.mod_mod])
  refine Prod.ext ?_ (Fin.ext ?_)
  · simp only [position, advanced, Generator.rounds, permutation, Equiv.ofBijective_apply, transition, place]
  · simp only [position, advanced, permutation, Equiv.ofBijective_apply, transition, BitVec.toNat_add,
      BitVec.toNat_ofNat, Fin.val_add]
    change _ = (s.roundIndex.toNat % 16 + 1) % 16
    omega

/-- Rounds of the state are powers of the permutation on its positions. -/
theorem position_advanced (s : State) (n : Nat) : (s.advanced ring n).position = (permutation ring ^ n) s.position := by
  induction n with
  | zero => rw [advanced_zero, pow_zero, Equiv.Perm.one_apply]
  | succ n ih =>
    rw [← advanced_advanced (whole_of_sixteen sixteen), position_advanced_one sixteen, ih, pow_succ',
      Equiv.Perm.mul_apply]

/-- The order of the permutation is a period of every trajectory, with no lead-in before it. -/
theorem position_recurs : ∃ period, 0 < period ∧ ∀ (s : State) n,
    (s.advanced ring (n + period)).position = (s.advanced ring n).position := by
  refine ⟨orderOf (permutation ring), orderOf_pos _, fun s n => ?_⟩
  rw [position_advanced sixteen, position_advanced sixteen, pow_add, pow_orderOf_eq_one, mul_one]

end Sixteen

theorem advanced_w_injective (ring : KeyRing U128) {s t : State} (counter : s.roundIndex = t.roundIndex)
    (different : s.w ≠ t.w) (n : Nat) : (s.advanced ring n).w ≠ (t.advanced ring n).w := by
  intro same
  simp only [advanced, counter] at same
  exact different (Generator.rounds_injective _ round128_injective _ n same)

theorem keyRing_injective {platform : Platform} {ke ke' : I128}
    (same : (keyRing platform ke).keys = (keyRing platform ke').keys) : ke = ke' := by
  have heads := congrArg List.head? same
  simp only [keyRing, genSubKeys_head] at heads
  exact Option.some.inj heads

theorem ring_of_sixteen (keys : Vector Roundkey 16) :
    ∃ ring : KeyRing U128, ring.keys = keys.toList.map Roundkey.subKey ∧ ring.keys.length = 16 :=
  ⟨⟨keys.toList.map Roundkey.subKey, by simp⟩, rfl, by simp⟩

/-- Whatever sixteen keys the state holds, a round moves its position by a fixed permutation. -/
theorem round_permutes (keys : Vector Roundkey 16) : ∃ perm : Equiv.Perm (U128 × Fin 16),
    ∀ (decision : Decision) (s : State), s.subKeys = keys.toList →
      ∃ t, s.round decision = some t ∧ t.subKeys = keys.toList ∧ t.position = perm s.position := by
  obtain ⟨ring, listed, sixteen⟩ := ring_of_sixteen keys
  refine ⟨permutation ring, fun decision s holds =>
    ⟨s.advanced ring 1, ?_, holds, position_advanced_one sixteen s⟩⟩
  exact round_eq decision (by rw [holds, listed])

/-- States that share keys and counter but not the word are apart after any number of rounds. -/
theorem rounds_separate (keys : Vector Roundkey 16) (decisions decisions' : Nat → Decision) (r : Nat) {s s' : State}
    (holds : s.subKeys = keys.toList) (holds' : s'.subKeys = keys.toList) (counter : s.roundIndex = s'.roundIndex)
    (different : s.w ≠ s'.w) :
    ∃ t t', s.rounds decisions r = some t ∧ s'.rounds decisions' r = some t' ∧ t.w ≠ t'.w := by
  obtain ⟨ring, listed, sixteen⟩ := ring_of_sixteen keys
  have whole := whole_of_sixteen sixteen
  exact ⟨_, _, rounds_eq whole decisions r (by rw [holds, listed]),
    rounds_eq whole decisions' r (by rw [holds', listed]), advanced_w_injective ring counter different r⟩

/-- Seeds that differ show in subkey 0; words that differ survive the warm-up. -/
theorem new_separate (platform : Platform) (decisions decisions' : Nat → Decision) {w ke w' ke' : I128}
    (different : (w, ke) ≠ (w', ke')) :
    ∃ s s', State.new platform decisions w ke = some s ∧ State.new platform decisions' w' ke' = some s' ∧
      (s.w ≠ s'.w ∨ s.schedule ≠ s'.schedule) := by
  refine ⟨_, _, new_eq platform decisions w ke, new_eq platform decisions' w' ke', ?_⟩
  have flat := ((initial_onRing platform w ke).advanced WARMUP_ROUNDS).flat
  have flat' := ((initial_onRing platform w' ke').advanced WARMUP_ROUNDS).flat
  rw [flat, flat']
  by_cases seeds : ke = ke'
  · subst seeds
    have words : (initial platform w ke).w ≠ (initial platform w' ke).w := fun same => different (by
      simp only [initial] at same
      rw [same])
    have counters : (initial platform w ke).roundIndex = (initial platform w' ke).roundIndex := by
      simp only [initial]
    exact .inl (advanced_w_injective (keyRing platform ke) counters words WARMUP_ROUNDS)
  · exact .inr fun same => seeds (keyRing_injective same)

/-- From construction on the positions recur with one period, whatever the dispatches decide. -/
theorem new_recurs (platform : Platform) (decisions : Nat → Decision) (w ke : I128) :
    ∃ s, State.new platform decisions w ke = some s ∧
      ∃ period, 0 < period ∧ ∀ (later : Nat → Decision) (n : Nat), ∃ t t', s.rounds later n = some t ∧
        s.rounds later (n + period) = some t' ∧ t'.position = t.position := by
  have on := (initial_onRing platform w ke).advanced WARMUP_ROUNDS
  have whole := keyRing_whole platform ke
  obtain ⟨period, positive, recurs⟩ := position_recurs (keyRing_length platform ke)
  refine ⟨_, new_eq platform decisions w ke, period, positive, fun later n => ?_⟩
  exact ⟨_, _, rounds_eq whole later n on.keys, rounds_eq whole later (n + period) on.keys, recurs _ n⟩

/-- The state never merges: a round permutes the positions whatever the sixteen keys, so words that differ
stay different, construction is injective in the word and the seed, and every trajectory is purely periodic. -/
theorem rounds_never_merge (platform : Platform) :
    (∀ keys : Vector Roundkey 16, ∃ perm : Equiv.Perm (U128 × Fin 16), ∀ (decision : Decision) (s : State),
      s.subKeys = keys.toList → ∃ t, s.round decision = some t ∧ t.subKeys = keys.toList ∧
        t.position = perm s.position) ∧
    (∀ (keys : Vector Roundkey 16) (decisions decisions' : Nat → Decision) (r : Nat) (s s' : State),
      s.subKeys = keys.toList → s'.subKeys = keys.toList → s.roundIndex = s'.roundIndex → s.w ≠ s'.w →
      ∃ t t', s.rounds decisions r = some t ∧ s'.rounds decisions' r = some t' ∧ t.w ≠ t'.w) ∧
    (∀ (decisions decisions' : Nat → Decision) (w ke w' ke' : I128), (w, ke) ≠ (w', ke') →
      ∃ s s', State.new platform decisions w ke = some s ∧ State.new platform decisions' w' ke' = some s' ∧
        (s.w ≠ s'.w ∨ s.schedule ≠ s'.schedule)) ∧
    (∀ (decisions : Nat → Decision) (w ke : I128), ∃ s, State.new platform decisions w ke = some s ∧
      ∃ period, 0 < period ∧ ∀ (later : Nat → Decision) (n : Nat), ∃ t t', s.rounds later n = some t ∧
        s.rounds later (n + period) = some t' ∧ t'.position = t.position) := by
  refine ⟨round_permutes, ?_, ?_, new_recurs platform⟩
  · intro keys decisions decisions' r s s' holds holds' counter different
    exact rounds_separate keys decisions decisions' r holds holds' counter different
  · intro decisions decisions' w ke w' ke' different
    exact new_separate platform decisions decisions' different

end State

end Pich
