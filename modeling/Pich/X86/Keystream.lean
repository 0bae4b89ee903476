import Pich.Keystream
import Pich.X86.Aes
import Pich.X86.Sbox

namespace Pich.X86
open Lanes Bytes Intel Generator

def fillKeystreamAesni (w : U128) (schedule : List U128) (roundIndex : Usize) (out : Nat) :
    Option (U128 × Usize × List U8) :=
  keystreamCore w schedule roundIndex out fun state key => round128Aesni state key

def fillKeystreamGfni (w : U128) (schedule : List U128) (roundIndex : Usize) (out : Nat) :
    Option (U128 × Usize × List U8) :=
  keystreamCore w schedule roundIndex out fun state key => round128Gfni state key

def fillKeystreamSsse3 (w : U128) (schedule : List U128) (roundIndex : Usize) (out : Nat) :
    Option (U128 × Usize × List U8) :=
  keystreamCore w schedule roundIndex out fun state key => round128Ssse3 state key

/-- `upper n` is what the widening cast of the round after `n` others leaves undefined. -/
def fillKeystreamAvx512 (upper : Nat → BitVec 384) (w : U128) (schedule : List U128)
    (roundIndex : Usize) (out : Nat) : Option (U128 × Usize × List U8) :=
  keystreamCalls w schedule roundIndex out fun n state key => round128Avx512 (upper n) state key

def avx2Round (schedule : List U128) (state : BitVec 256) (pos : Nat) : Option (BitVec 256 × Nat) := do
  let key ← schedule[pos]?
  let key := vbroadcasti128 key
  let substituted := subBytesPairedAvx2 (rotr7DupAvx2 state)
  let folded := substituted ||| vperm2i128 substituted substituted 0x01
  let pos := pos + 1
  some (folded ^^^ key, if pos = schedule.length then 0 else pos)

def avx2Slots (schedule : List U128) :
    Nat → BitVec 256 → Usize → Nat → Option (BitVec 256 × Usize × List U8)
  | 0, state, index, _ => some (state, index, [])
  | left + 1, state, index, pos => do
    let (state, pos) ← avx2Round schedule state pos
    let (state, pos) ← avx2Round schedule state pos
    let index := index + 2
    let slot ← tap (cast256to128 state)
    let (state, index, out) ← avx2Slots schedule left state index pos
    some (state, index, slot :: out)

/-- The separately written AVX2 loop. Reads of the schedule past its end fail here. -/
def fillKeystreamAvx2 (w : U128) (schedule : List U128) (roundIndex : Usize) (out : Nat) :
    Option (U128 × Usize × List U8) := do
  let len := schedule.length
  if len = 0 then none
  else
    let state := vbroadcasti128 w
    let (state, index, out) ← avx2Slots schedule out state roundIndex (roundIndex.toNat % len)
    some (cast256to128 state, index, out)

theorem rotr7DupAvx2_dup (x : U128) : rotr7DupAvx2 (vbroadcasti128 x) = vbroadcasti128 (x.rotateRight 7) := by
  refine eq_of_lanes 128 2 (by omega) fun j half => ?_
  rw [rotr7DupAvx2, lane_rotr7 (by omega) _ (by omega), lane_vbroadcasti128 _ half, lane_vbroadcasti128 _ half]

theorem vperm2i128_swap (x : BitVec 256) : vperm2i128 x x 0x01 = lane 128 x 0 ++ lane 128 x 1 := by
  have high : perm128 x x (lane 4 (0x01 : BitVec 8) 1) = lane 128 (x ++ x) 0 := rfl
  have low : perm128 x x (lane 4 (0x01 : BitVec 8) 0) = lane 128 (x ++ x) 1 := rfl
  rw [vperm2i128, high, low, lane_append_low _ _ (by omega), lane_append_low _ _ (by omega)]

theorem fold_duplicates (x : BitVec 256) :
    x ||| vperm2i128 x x 0x01 = vbroadcasti128 (lane 128 x 0 ||| lane 128 x 1) := by
  refine eq_of_lanes 128 2 (by omega) fun j half => ?_
  rw [lane_or, vperm2i128_swap, lane_vbroadcasti128 _ half, lane_halves _ _ half]
  have cases : j = 0 ∨ j = 1 := by omega
  rcases cases with rfl | rfl
  · rfl
  · exact BitVec.or_comm _ _

theorem folded_dup (x : U128) :
    subBytesPairedAvx2 (vbroadcasti128 x) |||
        vperm2i128 (subBytesPairedAvx2 (vbroadcasti128 x)) (subBytesPairedAvx2 (vbroadcasti128 x)) 0x01 =
      vbroadcasti128 (Fallback.substitute x) := by
  rw [fold_duplicates]
  congr 1
  refine Fallback.eq_substitute fun i within => ?_
  rw [lane_or, lane_lane (r := 16) (by omega) _ 0 within, lane_lane (r := 16) (by omega) _ 1 within,
    ← fold_subBytesPairedAvx2 x within]
  simp only [Nat.mul_zero, Nat.zero_add, Nat.mul_one]

theorem xor_vbroadcasti128 (x y : U128) : vbroadcasti128 x ^^^ vbroadcasti128 y = vbroadcasti128 (x ^^^ y) := by
  refine eq_of_lanes 128 2 (by omega) fun j half => ?_
  rw [lane_xor, lane_vbroadcasti128 _ half, lane_vbroadcasti128 _ half, lane_vbroadcasti128 _ half]

theorem avx2Round_dup (schedule : List U128) (state : U128) (pos : Nat) :
    avx2Round schedule (vbroadcasti128 state) pos =
      (keystreamRound Fallback.round128 schedule state pos).map fun (state, pos) => (vbroadcasti128 state, pos) := by
  cases found : schedule[pos]? with
  | none => simp only [avx2Round, keystreamRound, found, Option.bind_eq_bind, Option.bind_none, Option.map_none]
  | some key =>
    simp only [avx2Round, keystreamRound, found, Option.bind_eq_bind, Option.bind_some, Option.map_some,
      rotr7DupAvx2_dup, folded_dup, xor_vbroadcasti128, Fallback.round128_eq]

theorem avx2Slots_dup (schedule : List U128) (left n : Nat) (state : U128) (index : Usize) (pos : Nat) :
    avx2Slots schedule left (vbroadcasti128 state) index pos =
      (keystreamSlots (fun _ => Fallback.round128) schedule left n state index pos).map
        fun (state, index, out) => (vbroadcasti128 state, index, out) := by
  induction left generalizing n state index pos with
  | zero => rfl
  | succ left ih =>
    simp only [avx2Slots, keystreamSlots, avx2Round_dup, Option.bind_eq_bind]
    cases first : keystreamRound Fallback.round128 schedule state pos with
    | none => rfl
    | some passed =>
      obtain ⟨middle, next⟩ := passed
      simp only [Option.map_some, Option.bind_some, avx2Round_dup]
      cases second : keystreamRound Fallback.round128 schedule middle next with
      | none => rfl
      | some passed =>
        obtain ⟨final, last⟩ := passed
        simp only [Option.map_some, Option.bind_some, cast_vbroadcasti128, tap_eq, ih (n + 2)]
        cases keystreamSlots (fun _ => Fallback.round128) schedule left (n + 2) final (index + 2) last <;> rfl

/-- The AVX2 loop refines the portable instance of the keystream loop, on every schedule. -/
theorem fillKeystreamAvx2_eq (w : U128) (schedule : List U128) (roundIndex : Usize) (out : Nat) :
    fillKeystreamAvx2 w schedule roundIndex out = keystreamCore w schedule roundIndex out Fallback.round128 := by
  by_cases empty : schedule.length = 0
  · simp [fillKeystreamAvx2, keystreamCore, keystreamCalls, empty]
  · simp only [fillKeystreamAvx2, keystreamCore, keystreamCalls, empty, if_false, avx2Slots_dup schedule out 0,
      Option.bind_eq_bind]
    cases keystreamSlots (fun _ => Fallback.round128) schedule out 0 w roundIndex
        (roundIndex.toNat % schedule.length) with
    | none => rfl
    | some result => simp [cast_vbroadcasti128]

/-- Whatever configuration the AVX2 loop passes through, both lanes hold the portable state. -/
theorem avx2Round_reach {ring : KeyRing U128} {w : U128} {i n pos : Nat} {state : BitVec 256}
    (reach : Reach (avx2Round ring.keys) (vbroadcasti128 w) (i % ring.keys.length) n state pos) :
    state = vbroadcasti128 (rounds Fallback.round128 ring.key i n w) ∧ pos = (i + n) % ring.keys.length := by
  obtain ⟨portable, rfl, before⟩ := reach.preimage (avx2Round_dup ring.keys)
  obtain ⟨rfl, rfl⟩ := keystreamRound_reach before
  exact ⟨rfl, rfl⟩

/-- The AVX2 loop ends with the bytes, state and counter of the portable one, having passed only through states
with equal lanes and through positions inside the schedule. -/
theorem fillKeystreamAvx2_refines (w : U128) {schedule : List U128} (nonempty : schedule ≠ []) (roundIndex : Usize)
    (out : Nat) :
    ∃ (w' : U128) (index' : Usize) (bytes : List U8) (last : BitVec 256) (pos : Nat),
      fillKeystreamAvx2 w schedule roundIndex out = some (w', index', bytes) ∧
      keystreamCore w schedule roundIndex out Fallback.round128 = some (w', index', bytes) ∧
      Reach (avx2Round schedule) (vbroadcasti128 w) (roundIndex.toNat % schedule.length) (2 * out) last pos ∧
      cast256to128 last = w' ∧
      ∀ i state pos, Reach (avx2Round schedule) (vbroadcasti128 w) (roundIndex.toNat % schedule.length) i state pos →
        lane 128 state 0 = lane 128 state 1 ∧ pos < schedule.length := by
  obtain ⟨ring, rfl⟩ := KeyRing.of_nonempty nonempty
  have reached := keystreamRound_reached Fallback.round128 ring w roundIndex.toNat (2 * out)
  refine ⟨_, _, _, _, _, ?_, keystreamCore_eq _ ring w roundIndex out, reached.image (avx2Round_dup ring.keys),
    cast_vbroadcasti128 _, fun i state pos reach => ?_⟩
  · rw [fillKeystreamAvx2_eq, keystreamCore_eq]
  · obtain ⟨rfl, rfl⟩ := avx2Round_reach reach
    rw [lane_vbroadcasti128 _ (by omega), lane_vbroadcasti128 _ (by omega)]
    exact ⟨rfl, Nat.mod_lt _ ring.nonempty⟩

/-- Three keys, from the last of them on, so that the ring ends on the way. -/
theorem fillKeystreamAvx2_refines_wrapping : ∃ bytes,
    fillKeystreamAvx2 5 [1, 2, 3] 2 4 = some bytes ∧
      keystreamCore 5 [1, 2, 3] 2 4 Fallback.round128 = some bytes := by
  obtain ⟨w', index', bytes, _, _, filled, portable, _⟩ :=
    fillKeystreamAvx2_refines 5 (List.cons_ne_nil 1 [2, 3]) 2 4
  exact ⟨_, filled, portable⟩

end Pich.X86
