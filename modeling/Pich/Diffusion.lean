import Pich.Base.Locality
import Pich.Permutation

namespace Pich
open Lanes Generator

/-- The bytes of a word around a circle of sixteen. -/
def byteAt (w : U128) (j : Nat) : U8 := lane 8 w (j % 16)

theorem getLsbD_rotateRight_seven (w : U128) {k : Nat} (within : k < 128) :
    (w.rotateRight 7).getLsbD k = w.getLsbD ((k + 7) % 128) := by
  rw [BitVec.getLsbD_rotateRight]
  rcases Nat.lt_or_ge k 121 with low | high
  · have place : (k + 7) % 128 = 7 % 128 + k := by omega
    have stays : k < 128 - 7 % 128 := by omega
    rw [place, decide_eq_true stays, cond_true]
  · have place : (k + 7) % 128 = k - (128 - 7 % 128) := by omega
    have wraps : ¬ k < 128 - 7 % 128 := by omega
    rw [place, decide_eq_false wraps, cond_false, decide_eq_true within, Bool.true_and]

/-- Rotating by seven puts the low bits of the next byte above the top bit of this one. -/
theorem byteAt_rotateRight (w : U128) (j : Nat) :
    byteAt (w.rotateRight 7) j = (byteAt w (j + 1) <<< 1) ||| (byteAt w j >>> 7) := by
  apply BitVec.eq_of_getLsbD_eq
  intro b hb
  have room : 8 * (j % 16) + b < 128 := by omega
  simp only [byteAt, BitVec.getLsbD_or, BitVec.getLsbD_shiftLeft, BitVec.getLsbD_ushiftRight, getLsbD_lane, hb,
    getLsbD_rotateRight_seven w room, decide_true, Bool.true_and]
  rcases Nat.eq_zero_or_pos b with rfl | above
  · have place : (8 * (j % 16) + 0 + 7) % 128 = 8 * (j % 16) + (7 + 0) := by omega
    simp [place]
  · have place : (8 * (j % 16) + b + 7) % 128 = 8 * ((j + 1) % 16) + (b - 1) := by omega
    have high : ¬ 7 + b < 8 := by omega
    have low : ¬ b < 1 := by omega
    have inside : b - 1 < 8 := by omega
    simp [place, high, low, inside]

theorem round128_local : Local byteAt byteAt Fallback.round128 := by
  intro w w' k k' j same next keys
  have within : j % 16 < 16 := Nat.mod_lt _ (by omega)
  have bytes : byteAt (w.rotateRight 7) j = byteAt (w'.rotateRight 7) j := by
    rw [byteAt_rotateRight, byteAt_rotateRight, same, next]
  simp only [byteAt] at bytes keys ⊢
  rw [Fallback.round128_eq, Fallback.round128_eq, lane_xor, lane_xor, Fallback.lane_substitute _ within,
    Fallback.lane_substitute _ within, bytes, keys]

namespace State

/-- After `n` rounds, byte `j` of the word has seen no more than the bytes `j` to `j + n` of the word before, and of
each round key used no more than the bytes that the rounds after it can bring to `j`. -/
theorem rounds_cone {keys keys' : KeyRing U128} {s s' : State} {n j : Nat}
    (words : ∀ m ≤ n, byteAt s.w (j + m) = byteAt s'.w (j + m))
    (subKeys : ∀ t m, t + m < n → byteAt (keys.key (s.roundIndex.toNat + t)) (j + m) =
      byteAt (keys'.key (s'.roundIndex.toNat + t)) (j + m)) :
    byteAt (s.advanced keys n).w j = byteAt (s'.advanced keys' n).w j :=
  round128_local.rounds words subKeys

/-- The places at which two words differ. -/
def differing (w w' : U128) : Finset (Fin 16) := Finset.univ.filter fun j => byteAt w j ≠ byteAt w' j

theorem mem_differing {w w' : U128} {j : Nat} (apart : byteAt w j ≠ byteAt w' j) : Fin.ofNat 16 j ∈ differing w w' := by
  refine Finset.mem_filter.mpr ⟨Finset.mem_univ _, ?_⟩
  simpa only [byteAt, Fin.val_ofNat, Nat.mod_mod] using apart

/-- Places that each lie a short way before one of a set are few. -/
theorem card_before {S T : Finset (Fin 16)} {n : Nat} (before : ∀ j ∈ S, ∃ m ≤ n, Fin.ofNat 16 (j + m) ∈ T) :
    S.card ≤ (n + 1) * T.card := by
  have covered : S ⊆ (Finset.range (n + 1) ×ˢ T).image fun p => p.2 - Fin.ofNat 16 p.1 := fun j member => by
    obtain ⟨m, within, seen⟩ := before j member
    refine Finset.mem_image.mpr ⟨(m, Fin.ofNat 16 (j + m)), ?_, ?_⟩
    · exact Finset.mem_product.mpr ⟨Finset.mem_range.mpr (by omega), seen⟩
    · apply Fin.ext
      simp only [Fin.sub_def, Fin.val_ofNat]
      omega
  calc S.card ≤ ((Finset.range (n + 1) ×ˢ T).image fun p => p.2 - Fin.ofNat 16 p.1).card := Finset.card_le_card covered
    _ ≤ (Finset.range (n + 1) ×ˢ T).card := Finset.card_image_le
    _ = (n + 1) * T.card := by rw [Finset.card_product, Finset.card_range]

/-- Whatever the sixteen keys and the decisions, a difference of two words moves at most one byte down the circle in
a round. So `n` rounds make of it at most `n + 1` times as many bytes, and under fifteen rounds no byte reaches all. -/
theorem difference_spreads (keys : Vector Roundkey 16) (decisions decisions' : Nat → Decision) (n : Nat) {s s' : State}
    (holds : s.subKeys = keys.toList) (holds' : s'.subKeys = keys.toList) (counter : s.roundIndex = s'.roundIndex) :
    ∃ t t', s.rounds decisions n = some t ∧ s'.rounds decisions' n = some t' ∧
      (∀ j ∈ differing t.w t'.w, ∃ m ≤ n, Fin.ofNat 16 (j + m) ∈ differing s.w s'.w) ∧
      (differing t.w t'.w).card ≤ (n + 1) * (differing s.w s'.w).card := by
  obtain ⟨ring, listed, sixteen⟩ := ring_of_sixteen keys
  have whole := whole_of_sixteen sixteen
  have moved : ∀ j ∈ differing (s.advanced ring n).w (s'.advanced ring n).w,
      ∃ m ≤ n, Fin.ofNat 16 (j + m) ∈ differing s.w s'.w := fun j member => by
    by_contra unseen
    refine (Finset.mem_filter.mp member).2 (rounds_cone (fun m within => ?_) fun t m _ => by rw [counter])
    by_contra apart
    exact unseen ⟨m, within, mem_differing apart⟩
  exact ⟨_, _, rounds_eq whole decisions n (by rw [holds, listed]),
    rounds_eq whole decisions' n (by rw [holds', listed]), moved, card_before moved⟩

theorem difference_spreads_five : ∃ t t' : State,
    ({ initial ⟨true, true⟩ 0 7 with w := 1 }.rounds (fun _ => .portable) 5) = some t ∧
    ((initial ⟨true, true⟩ 0 7).rounds (fun _ => .portable) 5) = some t' ∧ (differing t.w t'.w).card ≤ 6 := by
  let keys : Vector Roundkey 16 := ⟨(genSubKeys ⟨true, true⟩ 7).toArray, genSubKeys_length ⟨true, true⟩ 7⟩
  have holds : (initial ⟨true, true⟩ 0 7).subKeys = keys.toList := rfl
  have changed : { initial ⟨true, true⟩ 0 7 with w := 1 }.subKeys = keys.toList := rfl
  obtain ⟨t, t', ran, ran', _, few⟩ :=
    difference_spreads keys (fun _ => .portable) (fun _ => .portable) 5 changed holds rfl
  have one : (differing 1 0).card = 1 := by decide
  exact ⟨t, t', ran, ran', Nat.le_trans few (Nat.mul_le_mul_left 6 (Nat.le_of_eq one))⟩

end State

end Pich
