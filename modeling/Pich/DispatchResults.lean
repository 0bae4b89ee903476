import Pich.DispatchSafety

namespace Pich.Dispatch
open Runs Selection

namespace Outcome

/-- What a request that ended here returns: what its kernel does, or what the portable code does. -/
def subBytes : Outcome → List U8 → Option (List U8)
  | .entered (.subBytes strategy), bytes => strategy.subBytes bytes
  | .portable, bytes => some (Fallback.subBytes bytes)
  | _, _ => none

def round128 (upper : Nat → BitVec 384) : Outcome → U128 → U128 → Option U128
  | .entered (.round128 strategy), w, subKey => some (strategy.round128 upper w subKey)
  | .portable, w, subKey => some (Fallback.round128 w subKey)
  | _, _, _ => none

def fillKeystream (upper : Nat → BitVec 384) :
    Outcome → U128 → List U128 → Usize → Nat → Option (U128 × Usize × List U8)
  | .entered (.fillKeystream strategy), w, schedule, roundIndex, out =>
    strategy.fillKeystream upper w schedule roundIndex out
  | .portable, w, schedule, roundIndex, out => keystreamCore w schedule roundIndex out Fallback.round128
  | _, _, _, _, _ => none

def xorInto : Outcome → List U8 → List U8 → Option (List U8)
  | .entered .xorIntoAvx2, dst, src => X86.xorIntoAvx2 dst src
  | .entered .xorIntoSse2, dst, src => X86.xorIntoSse2 dst src
  | .portable, dst, src => some (Fallback.xorInto dst src)
  | _, _, _ => none

def sha256Compress : Outcome → Vector U32 8 → List U8 → Option (Vector U32 8)
  | .entered .sha256CompressShani, state, blocks => some (X86.sha256CompressShani state blocks)
  | .portable, state, blocks => some (Fallback.sha256Compress state blocks)
  | _, _, _ => none

end Outcome

/-- What a dispatch on this host observes when `backend` answers `b`. -/
def decision (host : Host) (b : Backend) (upper : Nat → BitVec 384) : Decision where
  backend := if host.simd then b else .fallback
  hasAvx2 := host.avx2
  upper := upper

/-- The outcome returns what the dispatcher returns under that decision. -/
def Selecting.Simulates (host : Host) (b : Backend) (outcome : Outcome) : Selecting → Prop
  | .backend => outcome = .returned b
  | .subBytes => ∀ upper bytes, outcome.subBytes bytes = Arch.subBytes (decision host b upper) bytes
  | .round128 => ∀ upper w subKey,
    outcome.round128 upper w subKey = some (Arch.round128 (decision host b upper) w subKey)
  | .fillKeystream => ∀ upper w schedule roundIndex out, outcome.fillKeystream upper w schedule roundIndex out =
    Arch.fillKeystream (decision host b upper) w schedule roundIndex out
  | .xorInto => ∀ upper dst src, outcome.xorInto dst src = Arch.xorInto (decision host b upper) dst src

def Hashing.Simulates (host : Host) (outcome : Outcome) : Hashing → Prop
  | .hasShaNi => outcome = .answered (Dispatch.hasShaNi host)
  | .sha256Compress => ∀ asm state blocks,
    outcome.sha256Compress state blocks = some (Arch.sha256Compress ⟨asm, Dispatch.hasShaNi host⟩ state blocks)

def Event.Simulates (host : Host) (b : Backend) (event : Event) : Prop :=
  match event.request with
  | .selecting request => request.Simulates host b event.outcome
  | .hashing request => request.Simulates host event.outcome

/-- The outcome returns what the portable code does. -/
def Event.Portable (event : Event) : Prop :=
  match event.request with
  | .selecting .backend | .hashing .hasShaNi => True
  | .selecting .subBytes => ∀ bytes, event.outcome.subBytes bytes = some (Fallback.subBytes bytes)
  | .selecting .round128 => ∀ upper w subKey,
    event.outcome.round128 upper w subKey = some (Fallback.round128 w subKey)
  | .selecting .fillKeystream => ∀ upper w schedule roundIndex out,
    event.outcome.fillKeystream upper w schedule roundIndex out =
      keystreamCore w schedule roundIndex out Fallback.round128
  | .selecting .xorInto => ∀ dst src, event.outcome.xorInto dst src = some (Fallback.xorInto dst src)
  | .hashing .sha256Compress => ∀ state blocks,
    event.outcome.sha256Compress state blocks = some (Fallback.sha256Compress state blocks)

section Results
variable {host : Host} {b : Backend}

theorem settled_simulates (request : Selecting) : request.Simulates host b (request.settled host b) := by
  cases simd : host.simd with
  | false =>
    have closed (other : request ≠ .backend) : request.settled host b = .portable := by
      rw [Selecting.settled, simd, Bool.false_or, if_neg (by simpa using other)]
    have observed (upper) : decision host b upper = ⟨.fallback, host.avx2, upper⟩ := by
      rw [decision, simd, if_neg Bool.false_ne_true]
    cases request with
    | backend => simp [Selecting.Simulates, Selecting.settled, Selecting.outcome]
    | subBytes =>
      rw [closed (by decide)]
      intro upper bytes
      rw [observed]
      rfl
    | round128 =>
      rw [closed (by decide)]
      intro upper w subKey
      rw [observed]
      rfl
    | fillKeystream =>
      rw [closed (by decide)]
      intro upper w schedule roundIndex out
      rw [observed]
      rfl
    | xorInto =>
      rw [closed (by decide)]
      intro upper dst src
      rw [observed]
      rfl
  | true =>
    have opened (request : Selecting) : request.settled host b = request.outcome host.avx2 b := by
      rw [Selecting.settled, simd, Bool.true_or, if_pos rfl]
    have observed (upper) : decision host b upper = ⟨b, host.avx2, upper⟩ := by rw [decision, simd, if_pos rfl]
    rw [opened]
    cases request with
    | backend => exact rfl
    | subBytes =>
      intro upper bytes
      rw [observed, Arch.subBytes_strategy]
      cases chosen : b.strategy <;> simp [Selecting.outcome, enter, chosen, Outcome.subBytes]
    | round128 =>
      intro upper w subKey
      rw [observed, Arch.round128_strategy]
      cases chosen : b.strategy <;> simp [Selecting.outcome, enter, chosen, Outcome.round128]
    | fillKeystream =>
      intro upper w schedule roundIndex out
      rw [observed, Arch.fillKeystream_strategy]
      cases chosen : b.strategy <;> simp [Selecting.outcome, enter, chosen, Outcome.fillKeystream]
    | xorInto =>
      intro upper dst src
      rw [observed, Arch.xorInto, Selecting.outcome]
      split
      · cases host.avx2 <;> rfl
      · rfl

theorem hashed_simulates (request : Hashing) : request.Simulates host (request.outcome (hasShaNi host)) := by
  cases request with
  | hasShaNi => exact rfl
  | sha256Compress =>
    intro asm state blocks
    rw [Hashing.outcome, Arch.sha256Compress]
    cases hasShaNi host <;> rfl

theorem Event.Simulates.portable {event : Event} (simulates : event.Simulates host b) : event.Portable := by
  obtain ⟨thread, request, outcome⟩ := event
  cases request with
  | selecting request =>
    cases request with
    | backend => trivial
    | subBytes => exact fun bytes => (simulates (fun _ => 0) bytes).trans (Arch.subBytes_eq _ bytes)
    | round128 =>
      exact fun upper w subKey => (simulates upper w subKey).trans (congrArg some (Arch.round128_eq _ w subKey))
    | fillKeystream =>
      exact fun upper w schedule roundIndex out =>
        (simulates upper w schedule roundIndex out).trans (Arch.fillKeystream_eq _ w schedule roundIndex out)
    | xorInto => exact fun dst src => (simulates (fun _ => 0) dst src).trans (Arch.xorInto_eq _ dst src)
  | hashing request =>
    cases request with
    | hasShaNi => trivial
    | sha256Compress =>
      exact fun state blocks =>
        (simulates false state blocks).trans (congrArg some (Arch.sha256Compress_eq _ state blocks))

/-- Wherever the host sends a request, the portable code would return the same. -/
theorem Event.Settled.portable {allowed : Backend → Prop} {event : Event} (settled : event.Settled host allowed) :
    event.Portable := by
  obtain ⟨thread, request, outcome⟩ := event
  cases request with
  | selecting request =>
    obtain ⟨b, _, rfl⟩ := settled
    exact Event.Simulates.portable (b := b) (settled_simulates request : request.Simulates host b _)
  | hashing request =>
    cases Eq.symm settled
    exact Event.Simulates.portable (b := .fallback) (hashed_simulates request : request.Simulates host _)

/-- However threads interleave that dispatch, force and reset, each dispatch ends where one answer of `backend` sends
it, detected or forced by somebody, and returns what the portable code returns. -/
theorem races_invisible (host : Host) (actions : List Action) {events : List Event} {c : Config}
    (ran : run (step host) actions .start = some (events, c)) :
    ∀ event ∈ events, event.Portable ∧
      event.Settled host fun b => b = detect host.toCpu ∨ ∃ thread, .force thread b ∈ actions := by
  intro event member
  have settled := run_settled (fun b => b = detect host.toCpu ∨ ∃ thread, .force thread b ∈ actions) (.inl rfl)
    (fun action among => by
      cases action with
      | force thread b => exact .inr ⟨thread, among⟩
      | start | resume | reset => trivial) ran event member
  exact ⟨settled.portable, settled⟩

end Results

/-- One thread probes while another forces, and then dispatches itself. -/
theorem races_invisible_forced : ∃ events c,
    run (step aesHost) [.start 0 (.selecting .round128), .force 1 .gfni, .resume 0, .start 1 (.selecting .round128)]
      .start = some (events, c) ∧ events.length = 2 ∧ ∀ event ∈ events, event.Portable := by
  refine ⟨_, _, rfl, rfl, fun event member => ?_⟩
  exact (races_invisible aesHost [.start 0 (.selecting .round128), .force 1 .gfni, .resume 0,
    .start 1 (.selecting .round128)] rfl event member).1

end Pich.Dispatch
