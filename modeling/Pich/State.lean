import Pich.KeySchedule

namespace Pich
open Lanes Bytes Generator

/-- The state of the cipher: the word, the round keys with their flattened copy for the bulk path,
and a round counter that is never reset. -/
structure State where
  w : I128
  subKeys : List Roundkey
  schedule : List U128
  roundIndex : Usize

def WARMUP_ROUNDS : Nat := 62

namespace State

/-- The key for the next round; the counter wraps. No round keys at all fails at the modulus. -/
def nextRk (s : State) : Option (Roundkey × State) := do
  let len := s.subKeys.length
  if len = 0 then none
  else
    let rk ← s.subKeys[s.roundIndex.toNat % len]?
    some (rk, { s with roundIndex := s.roundIndex + 1 })

/-- One round on the word under whichever backend this dispatch decides on. -/
def round (decision : Decision) (s : State) : Option State := do
  let (rk, s) ← s.nextRk
  some { s with w := Arch.round128 decision s.w rk.subKey }

/-- Two rounds, each with a dispatch of its own, and the byte tapped behind them. -/
def nextByte (first second : Decision) (s : State) : Option (U8 × State) := do
  let s ← s.round first
  let s ← s.round second
  let byte ← tap s.w
  some (byte, s)

/-- The bulk path: `out` bytes from one dispatch, over the flattened schedule. -/
def fillKeystream (decision : Decision) (s : State) (out : Nat) : Option (List U8 × State) := do
  let (w, roundIndex, out) ← Arch.fillKeystream decision s.w s.schedule s.roundIndex out
  some (out, { s with w, roundIndex })

/-- `n` rounds, the `i`-th of them under `decisions i`. -/
def rounds (decisions : Nat → Decision) (n : Nat) (s : State) : Option State :=
  (List.range n).foldlM (fun s i => s.round (decisions i)) s

def initial (platform : Platform) (w ke : I128) : State :=
  let subKeys := genSubKeys platform ke
  { w, subKeys, schedule := subKeys.map Roundkey.subKey, roundIndex := 0 }

/-- The constructor of the source: the key schedule, then the warm-up rounds. -/
def new (platform : Platform) (decisions : Nat → Decision) (w ke : I128) : Option State :=
  (initial platform w ke).rounds decisions WARMUP_ROUNDS

def keyRing (platform : Platform) (ke : I128) : KeyRing U128 :=
  { keys := (genSubKeys platform ke).map Roundkey.subKey
    nonempty := by rw [List.length_map, genSubKeys_length]; decide }

@[simp] theorem keyRing_length (platform : Platform) (ke : I128) : (keyRing platform ke).keys.length = 16 := by
  rw [keyRing, List.length_map, genSubKeys_length]

/-- Sixteen divides the range of the counter, so its wrap is no seam in the ring. -/
theorem keyRing_whole (platform : Platform) (ke : I128) : (keyRing platform ke).keys.length ∣ 2 ^ 64 := by
  rw [keyRing_length]
  omega

theorem initial_nonempty (platform : Platform) (w ke : I128) : 0 < (initial platform w ke).subKeys.length := by
  simp only [initial, genSubKeys_length]
  omega

/-- The round keys of the state are those of the ring, and the schedule is their flattened copy. -/
structure OnRing (ring : KeyRing U128) (s : State) : Prop where
  keys : s.subKeys.map Roundkey.subKey = ring.keys
  flat : s.schedule = ring.keys

/-- The state `n` rounds on, said in the terms of the generator: neither a backend nor a failure is in it. -/
def advanced (ring : KeyRing U128) (n : Nat) (s : State) : State :=
  { s with
    w := Generator.rounds Fallback.round128 ring.key s.roundIndex.toNat n s.w
    roundIndex := s.roundIndex + BitVec.ofNat 64 n }

section Steps
variable {ring : KeyRing U128} {s : State}

theorem initial_onRing (platform : Platform) (w ke : I128) :
    OnRing (keyRing platform ke) (initial platform w ke) where
  keys := by simp only [initial, keyRing]
  flat := by simp only [initial, keyRing]

theorem OnRing.advanced (on : OnRing ring s) (n : Nat) : OnRing ring (s.advanced ring n) where
  keys := on.keys
  flat := on.flat

/-- A round succeeds and is one step of the generator, whatever backend it was dispatched to. -/
theorem round_eq (decision : Decision) (keys : s.subKeys.map Roundkey.subKey = ring.keys) :
    s.round decision = some (s.advanced ring 1) := by
  have size : s.subKeys.length = ring.keys.length := by rw [← keys, List.length_map]
  have nonzero : s.subKeys.length ≠ 0 := by have := ring.nonempty; omega
  have small : s.roundIndex.toNat % s.subKeys.length < s.subKeys.length := Nat.mod_lt _ (by omega)
  have word : (s.subKeys[s.roundIndex.toNat % s.subKeys.length]).subKey = ring.key s.roundIndex.toNat := by
    have found := ring.getElem?_mod s.roundIndex.toNat
    rw [← keys, List.length_map, List.getElem?_map, List.getElem?_eq_getElem small, Option.map_some] at found
    exact Option.some.inj found
  simp only [round, nextRk, nonzero, if_false, List.getElem?_eq_getElem small, Option.bind_eq_bind,
    Option.bind_some, Arch.round128_eq, word]
  rfl

theorem advanced_zero : s.advanced ring 0 = s := by
  simp [advanced, Generator.rounds]

theorem advanced_advanced (whole : ring.keys.length ∣ 2 ^ 64) (n m : Nat) :
    (s.advanced ring n).advanced ring m = s.advanced ring (n + m) := by
  have shifted := Generator.rounds_congr Fallback.round128 (@wrapped_key ring s.roundIndex n (.inl whole)) m
    (Generator.rounds Fallback.round128 ring.key s.roundIndex.toNat n s.w)
  simp only [advanced, shifted, Generator.rounds_add, BitVec.ofNat_add, BitVec.add_assoc]

theorem rounds_eq (whole : ring.keys.length ∣ 2 ^ 64) (decisions : Nat → Decision) (n : Nat)
    (keys : s.subKeys.map Roundkey.subKey = ring.keys) : s.rounds decisions n = some (s.advanced ring n) := by
  induction n with
  | zero => simp [rounds, advanced_zero]
  | succ n ih =>
    rw [rounds] at ih
    rw [rounds, List.range_succ, List.foldlM_append, ih]
    simp only [List.foldlM_cons, List.foldlM_nil, Option.bind_eq_bind, Option.bind_some]
    rw [round_eq (s := s.advanced ring n) _ keys, Option.bind_some, advanced_advanced whole]
    rfl

def keystream (ring : KeyRing U128) (n : Nat) (s : State) : List U8 :=
  emit Fallback.round128 tapped 2 ring.key s.roundIndex.toNat n s.w

/-- The stepwise path emits the byte two rounds on. -/
theorem nextByte_eq (whole : ring.keys.length ∣ 2 ^ 64) (first second : Decision)
    (keys : s.subKeys.map Roundkey.subKey = ring.keys) :
    s.nextByte first second = some (tapped (s.advanced ring 2).w, s.advanced ring 2) := by
  simp only [nextByte, round_eq first keys, Option.bind_eq_bind, Option.bind_some]
  rw [round_eq (s := s.advanced ring 1) second keys, Option.bind_some, advanced_advanced whole, tap_eq]
  rfl

/-- The bulk path emits the bytes of the stepwise one and leaves the counter where that leaves it. -/
theorem fillKeystream_eq (decision : Decision) (flat : s.schedule = ring.keys) (n : Nat) :
    s.fillKeystream decision n = some (s.keystream ring n, s.advanced ring (2 * n)) := by
  simp only [fillKeystream, Arch.fillKeystream_eq, flat, keystreamCore_eq, Option.bind_eq_bind, Option.bind_some]
  rw [← flat]
  rfl

theorem keystream_add (whole : ring.keys.length ∣ 2 ^ 64) (n m : Nat) :
    s.keystream ring (n + m) = s.keystream ring n ++ (s.advanced ring (2 * n)).keystream ring m := by
  rw [keystream, emit_add]
  congr 1
  exact (emit_congr _ _ _ (wrapped_key (.inl whole)) m _).symm

@[simp] theorem keystream_length (n : Nat) : (s.keystream ring n).length = n := emit_length _ _ _ _ _ _ _

end Steps

/-- Construction succeeds under any decisions: sixty-two rounds on the initial state. -/
theorem new_eq (platform : Platform) (decisions : Nat → Decision) (w ke : I128) :
    State.new platform decisions w ke = some ((initial platform w ke).advanced (keyRing platform ke) WARMUP_ROUNDS) :=
  rounds_eq (keyRing_whole platform ke) decisions _ (initial_onRing platform w ke).keys

end State

end Pich
