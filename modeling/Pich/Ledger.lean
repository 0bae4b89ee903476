import Pich.Bulk
import Pich.KeystreamCount

namespace Pich
open Generator Runs

section Entries

/-- Round key `i` with its number and its constant. -/
def roundKey (platform : Platform) (ke : I128) (i : Nat) : Roundkey where
  id := BitVec.ofNat 8 i
  subKey := walk platform 0 i ke
  rc := if i = 0 then (RCS[0]?.getD 0).signExtend 64 else roundRc i

theorem genSubKeys_roundKey (platform : Platform) (ke : I128) :
    genSubKeys platform ke = (List.range 16).map (roundKey platform ke) := by
  simp only [genSubKeys, Nat.fold]
  rfl

theorem genSubKeys_getElem? (platform : Platform) (ke : I128) {i : Nat} (listed : i < 16) :
    (genSubKeys platform ke)[i]? = some (roundKey platform ke i) := by
  rw [genSubKeys_roundKey, List.getElem?_map, List.getElem?_range listed, Option.map_some]

end Entries

namespace StateOp

/-- The rounds after which the operation taps a byte, when it begins after round `n`. -/
def taps (n : Nat) : StateOp → List Nat
  | .round _ => []
  | .nextByte _ _ => [n + 2]
  | .fillKeystream _ len => (List.range len).map fun i => n + 2 * (i + 1)

/-- Two bytes of one operation lie two rounds apart, and all its bytes within its rounds. -/
theorem taps_apart (n : Nat) (op : StateOp) :
    (op.taps n).Pairwise (fun i j => i + 2 ≤ j) ∧ ∀ i ∈ op.taps n, n + 2 ≤ i ∧ i ≤ n + op.cost := by
  cases op with
  | round decision => exact ⟨.nil, fun i none => nomatch none⟩
  | nextByte first second => exact ⟨List.pairwise_singleton _ _, fun i among => by simp_all [taps, cost]⟩
  | fillKeystream decision len =>
    refine ⟨?_, fun i among => ?_⟩
    · rw [taps, List.pairwise_map]
      exact List.pairwise_lt_range.imp fun below => by omega
    · obtain ⟨k, listed, rfl⟩ := List.mem_map.mp among
      rw [List.mem_range] at listed
      rw [cost]
      omega

end StateOp

/-- The rounds after which a sequence of operations taps bytes, and the rounds it runs. -/
def taps : Nat → List StateOp → List Nat
  | _, [] => []
  | n, op :: ops => op.taps n ++ taps (n + op.cost) ops

def costs (ops : List StateOp) : Nat := (ops.map StateOp.cost).sum

theorem taps_apart (n : Nat) (ops : List StateOp) :
    (taps n ops).Pairwise (fun i j => i + 2 ≤ j) ∧ ∀ i ∈ taps n ops, n + 2 ≤ i ∧ i ≤ n + costs ops := by
  induction ops generalizing n with
  | nil => exact ⟨.nil, fun i none => nomatch none⟩
  | cons op ops ih =>
    obtain ⟨apart, bounds⟩ := op.taps_apart n
    obtain ⟨later, after⟩ := ih (n + op.cost)
    have total : costs (op :: ops) = op.cost + costs ops := by rw [costs, List.map_cons, List.sum_cons, costs]
    refine ⟨List.pairwise_append.mpr ⟨apart, later, fun i first j second => ?_⟩, fun i among => ?_⟩
    · have low := (bounds i first).2
      have high := (after j second).1
      omega
    · rcases List.mem_append.mp among with first | second
      · have low := bounds i first
        omega
      · have high := after i second
        omega

namespace State
section
variable {ring : KeyRing U128} {s : State} (whole : ring.keys.length ∣ 2 ^ 64)
include whole

theorem apply_taps (on : OnRing ring s) (n : Nat) (op : StateOp) :
    op.apply (s.advanced ring n) = some ((op.taps n).map fun i => tapped (s.advanced ring i).w,
      s.advanced ring (n + op.cost)) := by
  have on := on.advanced n
  cases op with
  | round decision =>
    simp only [StateOp.apply, round_eq decision on.keys, advanced_advanced whole, Option.bind_eq_bind, Option.bind_some]
    rfl
  | nextByte first second =>
    simp only [StateOp.apply, nextByte_eq whole first second on.keys, advanced_advanced whole, Option.bind_eq_bind,
      Option.bind_some]
    rfl
  | fillKeystream decision len =>
    simp only [StateOp.apply, fillKeystream_eq decision on.flat, keystream_eq, advanced_advanced whole, StateOp.taps,
      StateOp.cost, List.map_map]
    rfl

theorem run_taps (on : OnRing ring s) (n : Nat) (ops : List StateOp) :
    run StateOp.apply ops (s.advanced ring n) = some ((taps n ops).map fun i => tapped (s.advanced ring i).w,
      s.advanced ring (n + costs ops)) := by
  induction ops generalizing n with
  | nil => rfl
  | cons op ops ih =>
    have total : n + op.cost + costs ops = n + costs (op :: ops) := by
      rw [costs, costs, List.map_cons, List.sum_cons, Nat.add_assoc]
    rw [run_cons (apply_taps whole on n op) (ih (n + op.cost)), taps, List.map_append, total]

end

/-- The key at a counter; it does not move the counter on. -/
def getRoundKey (s : State) (roundIndex : Usize) : Option Roundkey :=
  let len := s.subKeys.length
  if len = 0 then none else s.subKeys[roundIndex.toNat % len]?

/-- The word `n` rounds after the initial one. -/
def wordAfter (platform : Platform) (w ke : I128) (n : Nat) : U128 :=
  ((initial platform w ke).advanced (keyRing platform ke) n).w

/-- The key at the counter is the one the next round takes; that the counter wraps does not show. -/
theorem nextRk_advanced (platform : Platform) (w ke : I128) (n : Nat) :
    ((initial platform w ke).advanced (keyRing platform ke) n).nextRk.map Prod.fst =
        some (roundKey platform ke (n % 16)) ∧
      ((initial platform w ke).advanced (keyRing platform ke) n).getRoundKey (BitVec.ofNat 64 n) =
        some (roundKey platform ke (n % 16)) := by
  have counter : ((initial platform w ke).advanced (keyRing platform ke) n).roundIndex = BitVec.ofNat 64 n :=
    BitVec.zero_add _
  have place : (BitVec.ofNat 64 n).toNat % 16 = n % 16 := by
    rw [BitVec.toNat_ofNat]
    omega
  have entry := genSubKeys_getElem? platform ke (Nat.mod_lt n (by omega : 0 < 16))
  have keys : ((initial platform w ke).advanced (keyRing platform ke) n).subKeys = genSubKeys platform ke := rfl
  constructor
  · simp only [nextRk, keys, counter, genSubKeys_length, place, entry, Option.bind_eq_bind, Option.bind_some]
    rfl
  · simp only [getRoundKey, keys, genSubKeys_length, place, entry]
    rfl

/-- Rounds, single bytes and bulk fills in any order on a state as constructed. No call fails, every byte is tapped
after the rounds its place in the sequence says, no round is tapped twice or for two bytes, the counter counts all
rounds, and the key looked up at it is the one the next round takes. -/
theorem mixed_calls (platform : Platform) (decisions : Nat → Decision) (w ke : I128) (ops : List StateOp) :
    ∃ s out t, State.new platform decisions w ke = some s ∧ run StateOp.apply ops s = some (out, t) ∧
      out = (taps WARMUP_ROUNDS ops).map (fun n => tapped (wordAfter platform w ke n)) ∧
      (taps WARMUP_ROUNDS ops).Pairwise (fun i j => i + 2 ≤ j) ∧
      (∀ i ∈ taps WARMUP_ROUNDS ops, WARMUP_ROUNDS + 2 ≤ i ∧ i ≤ WARMUP_ROUNDS + costs ops) ∧
      t.w = wordAfter platform w ke (WARMUP_ROUNDS + costs ops) ∧
      t.roundIndex = BitVec.ofNat 64 (WARMUP_ROUNDS + costs ops) ∧
      t.nextRk.map Prod.fst = some (roundKey platform ke ((WARMUP_ROUNDS + costs ops) % 16)) ∧
      t.getRoundKey t.roundIndex = some (roundKey platform ke ((WARMUP_ROUNDS + costs ops) % 16)) := by
  obtain ⟨apart, bounds⟩ := taps_apart WARMUP_ROUNDS ops
  have ran := run_taps (keyRing_whole platform ke) (initial_onRing platform w ke) WARMUP_ROUNDS ops
  have counter : ((initial platform w ke).advanced (keyRing platform ke) (WARMUP_ROUNDS + costs ops)).roundIndex =
      BitVec.ofNat 64 (WARMUP_ROUNDS + costs ops) := BitVec.zero_add _
  obtain ⟨taken, found⟩ := nextRk_advanced platform w ke (WARMUP_ROUNDS + costs ops)
  rw [← counter] at found
  exact ⟨_, _, _, new_eq platform decisions w ke, ran, rfl, apart, bounds, rfl, counter, taken, found⟩

end State

end Pich
