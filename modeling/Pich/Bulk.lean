import Pich.Base.Runs
import Pich.State

namespace Pich
open Generator Runs

/-- The operations that move a state on, each with what its dispatches decide. -/
inductive StateOp
  | round (decision : Decision)
  | nextByte (first second : Decision)
  | fillKeystream (decision : Decision) (n : Nat)

namespace StateOp

def apply : StateOp → State → Option (List U8 × State)
  | .round decision, s => do
    let s ← s.round decision
    some ([], s)
  | .nextByte first second, s => do
    let (byte, s) ← s.nextByte first second
    some ([byte], s)
  | .fillKeystream decision n, s => s.fillKeystream decision n

def cost : StateOp → Nat
  | .round _ => 1
  | .nextByte _ _ => 2
  | .fillKeystream _ n => 2 * n

end StateOp

/-- Operations with each bulk fill replaced by as many single bytes. -/
inductive Unfilled : List StateOp → List StateOp → Prop
  | nil : Unfilled [] []
  | keep {ops bytewise : List StateOp} (op : StateOp) (rest : Unfilled ops bytewise) :
      Unfilled (op :: ops) (op :: bytewise)
  | fill {ops bytewise : List StateOp} (decision : Decision) (decisions : List (Decision × Decision))
      (rest : Unfilled ops bytewise) :
      Unfilled (.fillKeystream decision decisions.length :: ops)
        (decisions.map (fun (first, second) => .nextByte first second) ++ bytewise)

namespace State
section
variable {ring : KeyRing U128} {s : State} (whole : ring.keys.length ∣ 2 ^ 64)
include whole

theorem apply_eq (on : OnRing ring s) (op : StateOp) :
    ∃ out, op.apply s = some (out, s.advanced ring op.cost) := by
  cases op with
  | round decision => exact ⟨[], by simp [StateOp.apply, StateOp.cost, round_eq decision on.keys]⟩
  | nextByte first second =>
    refine ⟨[tapped (s.advanced ring 2).w], ?_⟩
    simp only [StateOp.apply, StateOp.cost, nextByte_eq whole first second on.keys, Option.bind_eq_bind,
      Option.bind_some]
  | fillKeystream decision n => exact ⟨_, fillKeystream_eq decision on.flat n⟩

theorem run_nextByte (on : OnRing ring s) (decisions : List (Decision × Decision)) :
    run StateOp.apply (decisions.map fun (first, second) => .nextByte first second) s =
      some (s.keystream ring decisions.length, s.advanced ring (2 * decisions.length)) := by
  induction decisions generalizing s with
  | nil => simp [run, keystream, emit, advanced_zero]
  | cons pair decisions ih =>
    obtain ⟨first, second⟩ := pair
    have byte : StateOp.apply (.nextByte first second) s = some (s.keystream ring 1, s.advanced ring 2) := by
      simp only [StateOp.apply, nextByte_eq whole first second on.keys, Option.bind_eq_bind, Option.bind_some]
      rfl
    have count : 2 * (decisions.length + 1) = 2 + 2 * decisions.length := by omega
    rw [List.map_cons, run_cons byte (ih (on.advanced 2)), List.length_cons, count, Nat.add_comm decisions.length,
      keystream_add whole, advanced_advanced whole, Nat.mul_one]

/-- The two paths emit the same bytes and end in the same state, operation by operation. -/
theorem run_unfilled {ops bytewise : List StateOp} (on : OnRing ring s) (unfilled : Unfilled ops bytewise) :
    ∃ out t, run StateOp.apply ops s = some (out, t) ∧ run StateOp.apply bytewise s = some (out, t) := by
  induction unfilled generalizing s with
  | nil => exact ⟨[], s, rfl, rfl⟩
  | @keep ops bytewise op rest ih =>
    obtain ⟨out, first⟩ := apply_eq whole on op
    obtain ⟨later, t, bulk, single⟩ := ih (on.advanced op.cost)
    exact ⟨out ++ later, t, run_cons first bulk, run_cons first single⟩
  | @fill ops bytewise decision decisions rest ih =>
    obtain ⟨later, t, bulk, single⟩ := ih (on.advanced (2 * decisions.length))
    have filled : StateOp.apply (.fillKeystream decision decisions.length) s =
        some (s.keystream ring decisions.length, s.advanced ring (2 * decisions.length)) :=
      fillKeystream_eq decision on.flat decisions.length
    exact ⟨_, t, run_cons filled bulk, run_append (run_nextByte whole on decisions) single⟩

end

/-- The bulk path refines the byte-at-a-time path from any word and any counter, and all along both paths the
sixteen round keys and their flattened copy are the ones that `new` built. -/
theorem bulk_refines_nextByte (platform : Platform) (ke : I128) {s : State}
    (keys : s.subKeys = genSubKeys platform ke) (flat : s.schedule = s.subKeys.map Roundkey.subKey)
    {ops bytewise : List StateOp} (unfilled : Unfilled ops bytewise) :
    (∃ out t, run StateOp.apply ops s = some (out, t) ∧ run StateOp.apply bytewise s = some (out, t)) ∧
      ∀ done, done <+: ops ∨ done <+: bytewise → ∃ out t, run StateOp.apply done s = some (out, t) ∧
        t.subKeys = s.subKeys ∧ t.schedule = s.schedule ∧ t.subKeys.length = 16 ∧ t.schedule.length = 16 ∧
        ∀ i < 16, t.schedule[i]? = t.subKeys[i]?.map Roundkey.subKey := by
  have on : OnRing (keyRing platform ke) s := ⟨by rw [keys, keyRing], by rw [flat, keys, keyRing]⟩
  have whole := keyRing_whole platform ke
  refine ⟨run_unfilled whole on unfilled, fun done _ => ?_⟩
  obtain ⟨out, t, reached, _, sameKeys, sameSchedule⟩ := run_total
    (fun t => OnRing (keyRing platform ke) t ∧ t.subKeys = s.subKeys ∧ t.schedule = s.schedule)
    (fun op u kept => by
      obtain ⟨out, applied⟩ := apply_eq whole kept.1 op
      exact ⟨out, _, applied, kept.1.advanced op.cost, kept.2⟩) done ⟨on, rfl, rfl⟩
  refine ⟨out, t, reached, sameKeys, sameSchedule, ?_, ?_, fun i _ => ?_⟩
  · rw [sameKeys, keys, genSubKeys_length]
  · rw [sameSchedule, flat, List.length_map, keys, genSubKeys_length]
  · rw [sameKeys, sameSchedule, flat, List.getElem?_map]

theorem bulk_refines_nextByte_wrapping :
    ∃ out t,
      run StateOp.apply [.round .portable, .fillKeystream .portable 2]
        { initial ⟨false, false⟩ 0 0 with roundIndex := 0xffffffffffffffff } = some (out, t) ∧
      run StateOp.apply [.round .portable, .nextByte .portable .portable, .nextByte .portable .portable]
        { initial ⟨false, false⟩ 0 0 with roundIndex := 0xffffffffffffffff } = some (out, t) :=
  (bulk_refines_nextByte ⟨false, false⟩ 0 (by simp only [initial]) (by simp only [initial])
    (.keep (.round .portable) (.fill .portable [(.portable, .portable), (.portable, .portable)] .nil))).1

end State

end Pich
