import Mathlib.Algebra.Group.Nat.Defs
import Pich.Base.Generator
import Pich.Fallback

namespace Pich
open Lanes Bytes Generator

/-- The emitted byte: the low nibble of the first little-endian byte names one of the sixteen. -/
def tap (state : U128) : Option U8 := do
  let bytes := toLeBytes state
  let first ← bytes[0]?
  bytes[(first &&& 0x0f).toNat]?

def tapped (state : U128) : U8 := lane 8 state ((lane 8 state 0) &&& 0x0f).toNat

theorem low_nibble_lt (b : U8) : (b &&& 0x0f).toNat < 16 := by
  rw [BitVec.toNat_and]
  exact Nat.lt_of_le_of_lt Nat.and_le_right (by decide)

theorem tap_eq (state : U128) : tap state = some (tapped state) := by
  rw [tap, toLeBytes_getElem? state (by omega : 0 < 128 / 8)]
  exact toLeBytes_getElem? state (low_nibble_lt _)

def keystreamRound (round : U128 → U128 → U128) (schedule : List U128) (state : U128) (pos : Nat) :
    Option (U128 × Nat) := do
  let key ← schedule[pos]?
  let pos := pos + 1
  some (round state key, if pos = schedule.length then 0 else pos)

/-- The loop over the slots of `out`. A round may read undefined bits, so it need not do the same whenever it is
called: `round n` is what it does after `n` calls. -/
def keystreamSlots (round : Nat → U128 → U128 → U128) (schedule : List U128) :
    Nat → Nat → U128 → Usize → Nat → Option (U128 × Usize × List U8)
  | 0, _, state, index, _ => some (state, index, [])
  | left + 1, n, state, index, pos => do
    let (state, pos) ← keystreamRound (round n) schedule state pos
    let (state, pos) ← keystreamRound (round (n + 1)) schedule state pos
    let index := index + 2
    let slot ← tap state
    let (state, index, out) ← keystreamSlots round schedule left (n + 2) state index pos
    some (state, index, slot :: out)

/-- The keystream loop. Of `out` only its length is read: every slot is overwritten. An empty schedule fails at
`index % len`. -/
def keystreamCalls (w : U128) (schedule : List U128) (roundIndex : Usize) (out : Nat)
    (round : Nat → U128 → U128 → U128) : Option (U128 × Usize × List U8) :=
  let len := schedule.length
  if len = 0 then none
  else keystreamSlots round schedule out 0 w roundIndex (roundIndex.toNat % len)

/-- The keystream loop over any round function. -/
def keystreamCore (w : U128) (schedule : List U128) (roundIndex : Usize) (out : Nat)
    (round : U128 → U128 → U128) : Option (U128 × Usize × List U8) :=
  keystreamCalls w schedule roundIndex out fun _ => round

theorem keystreamRound_eq (round : U128 → U128 → U128) (ring : KeyRing U128) (state : U128) (i : Nat) :
    keystreamRound round ring.keys state (i % ring.keys.length) =
      some (round state (ring.key i), (i + 1) % ring.keys.length) := by
  have next := ring.advance_mod i
  rw [KeyRing.advance] at next
  simp only [keystreamRound, ring.getElem?_mod, next, Option.bind_eq_bind, Option.bind_some]

theorem keystreamSlots_eq (round : U128 → U128 → U128) (ring : KeyRing U128) (left n : Nat) (state : U128)
    (index : Usize) (i : Nat) :
    keystreamSlots (fun _ => round) ring.keys left n state index (i % ring.keys.length) =
      some (rounds round ring.key i (2 * left) state, index + BitVec.ofNat 64 (2 * left),
        emit round tapped 2 ring.key i left state) := by
  induction left generalizing n state index i with
  | zero => simp [keystreamSlots, rounds, emit]
  | succ left ih =>
    have twice : 2 * (left + 1) = 2 + 2 * left := by omega
    have counted : index + 2 + BitVec.ofNat 64 (2 * left) = index + BitVec.ofNat 64 (2 + 2 * left) := by
      rw [BitVec.ofNat_add, BitVec.add_assoc]
      rfl
    rw [keystreamSlots]
    simp only [keystreamRound_eq, tap_eq, ih, Option.bind_eq_bind, Option.bind_some, twice, counted,
      rounds_add, emit, rounds]

/-- For any nonempty schedule the loop runs to its end and is the generator over the key ring. -/
theorem keystreamCore_eq (round : U128 → U128 → U128) (ring : KeyRing U128) (w : U128) (roundIndex : Usize)
    (out : Nat) :
    keystreamCore w ring.keys roundIndex out round =
      some (rounds round ring.key roundIndex.toNat (2 * out) w, roundIndex + BitVec.ofNat 64 (2 * out),
        emit round tapped 2 ring.key roundIndex.toNat out w) := by
  have positive : ring.keys.length ≠ 0 := by have := ring.nonempty; omega
  simp only [keystreamCore, keystreamCalls, positive, if_false, keystreamSlots_eq]

/-- Reducing the wrapped counter restarts at the position the loop stopped at: either the ring divides the
counter's range, or the counter has not wrapped. -/
theorem wrapped_mod {len : Nat} {index : Usize} {n : Nat} (fits : len ∣ 2 ^ 64 ∨ index.toNat + n ≤ 2 ^ 64 - 1) :
    (index + BitVec.ofNat 64 n).toNat % len = (index.toNat + n) % len := by
  rw [BitVec.toNat_add, BitVec.toNat_ofNat, Nat.add_mod_mod]
  rcases fits with whole | below
  · exact Nat.mod_mod_of_dvd _ whole
  · rw [Nat.mod_eq_of_lt (a := index.toNat + n) (by omega)]

/-- The keys that follow the wrapped counter are those that follow the rounds already run. -/
theorem wrapped_key {ring : KeyRing U128} {index : Usize} {n : Nat}
    (fits : ring.keys.length ∣ 2 ^ 64 ∨ index.toNat + n ≤ 2 ^ 64 - 1) (j : Nat) :
    ring.key ((index + BitVec.ofNat 64 n).toNat + j) = ring.key (index.toNat + n + j) := by
  apply ring.key_congr
  rw [Nat.add_mod, wrapped_mod fits, ← Nat.add_mod]

/-- Every round of the loop, numbered from the call on, takes the key its number names. -/
theorem keystreamRound_reach {round : U128 → U128 → U128} {ring : KeyRing U128} {w state : U128} {i n pos : Nat}
    (reach : Reach (keystreamRound round ring.keys) w (i % ring.keys.length) n state pos) :
    state = rounds round ring.key i n w ∧ pos = (i + n) % ring.keys.length := by
  induction reach with
  | start => exact ⟨rfl, rfl⟩
  | next _ ran ih =>
    obtain ⟨rfl, rfl⟩ := ih
    rw [keystreamRound_eq] at ran
    obtain ⟨rfl, rfl⟩ := Prod.mk.inj (Option.some.inj ran)
    exact ⟨(rounds_add round ring.key i _ 1 w).symm, by rw [Nat.add_assoc]⟩

theorem keystreamRound_reached (round : U128 → U128 → U128) (ring : KeyRing U128) (w : U128) (i n : Nat) :
    Reach (keystreamRound round ring.keys) w (i % ring.keys.length) n (rounds round ring.key i n w)
      ((i + n) % ring.keys.length) := by
  induction n with
  | zero => exact .start
  | succ n ih =>
    refine .next ih ?_
    rw [keystreamRound_eq, rounds_add]
    rfl

end Pich
