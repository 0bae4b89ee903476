import Pich.Dispatch

namespace Pich.Dispatch
open Runs Selection

theorem enter_eq_entered {kernel : Option Kernel} {k : Kernel} (entered : enter kernel = .entered k) :
    kernel = some k := by
  cases kernel with
  | none => cases entered
  | some kernel => exact congrArg some (Outcome.entered.inj entered)

/-- Only the XOR enters a kernel of either width, and it asks for the width. -/
theorem settled_width {host : Host} {b : Backend} {request : Selecting} (wide : Bool)
    (entered : request.settled host b = .entered (if wide then .xorIntoAvx2 else .xorIntoSse2)) : host.avx2 = wide := by
  have family (make : Strategy → Kernel)
      (other : ∀ strategy, make strategy ≠ if wide then .xorIntoAvx2 else .xorIntoSse2)
      (reached : enter (b.strategy.map make) = .entered (if wide then .xorIntoAvx2 else .xorIntoSse2)) :
      host.avx2 = wide := by
    obtain ⟨strategy, _, same⟩ := Option.map_eq_some_iff.mp (enter_eq_entered reached)
    exact (other strategy same).elim
  rw [Selecting.settled] at entered
  split at entered
  · cases request with
    | backend => cases entered
    | subBytes => exact family .subBytes (fun strategy => by cases wide <;> exact Kernel.noConfusion) entered
    | round128 => exact family .round128 (fun strategy => by cases wide <;> exact Kernel.noConfusion) entered
    | fillKeystream => exact family .fillKeystream (fun strategy => by cases wide <;> exact Kernel.noConfusion) entered
    | xorInto =>
      rw [Selecting.outcome] at entered
      split at entered
      · cases measured : host.avx2 <;> cases wide <;> simp_all
      · cases entered
  · cases entered

theorem hashed_width {ok : Bool} (wide : Bool) {request : Hashing}
    (entered : request.outcome ok = .entered (if wide then .xorIntoAvx2 else .xorIntoSse2)) : False := by
  cases request <;> cases ok <;> cases wide <;> cases entered

/-- The races of the probes are benign. Whatever is forced, `has_sha_ni` and the choice of the vector width answer
as the probes do; and where nothing is forced, resets or not, every request ends where detection sends it. -/
theorem probes_settle (host : Host) (actions : List Action) {events : List Event} {c : Config}
    (ran : run (step host) actions .start = some (events, c)) :
    (∀ event ∈ events, ∀ request, event.request = .hashing request → event.outcome = request.outcome (hasShaNi host)) ∧
      (∀ event ∈ events, (event.outcome = .entered .xorIntoAvx2 → host.avx2 = true) ∧
        (event.outcome = .entered .xorIntoSse2 → host.avx2 = false)) ∧
      ((∀ thread b, .force thread b ∉ actions) → ∀ event ∈ events, ∀ request, event.request = .selecting request →
        event.outcome = request.settled host (detect host.toCpu)) := by
  have settled := run_settled (fun _ => True) trivial
    (fun action _ => by cases action <;> exact trivial) ran
  refine ⟨fun event member request hashing => ?_, fun event member => ?_,
    fun unforced event member request selecting => ?_⟩
  · have reached := settled event member
    rwa [Event.Settled, hashing] at reached
  · have reached := settled event member
    obtain ⟨thread, request, outcome⟩ := event
    cases request with
    | selecting request =>
      obtain ⟨b, _, rfl⟩ := reached
      exact ⟨fun entered => settled_width true entered, fun entered => settled_width false entered⟩
    | hashing request =>
      cases Eq.symm reached
      exact ⟨fun entered => (hashed_width true entered).elim,
        fun entered => (hashed_width false entered).elim⟩
  · have reached := run_settled (· = detect host.toCpu) rfl (fun action among => ?_) ran event member
    · rw [Event.Settled, selecting] at reached
      obtain ⟨_, rfl, reached⟩ := reached
      exact reached
    · cases action with
      | force thread b => exact (unforced thread b among).elim
      | start | resume | reset => trivial

def aesHost : Host := { aesCpu with sse41 := true, sha := false }

/-- Two threads probe at once, each for its own XOR. -/
theorem probes_settle_race : ∃ events c,
    run (step aesHost) [.start 0 (.selecting .xorInto), .start 1 (.selecting .xorInto), .resume 0, .resume 1, .resume 0,
      .resume 1, .resume 1, .resume 0] .start = some (events, c) ∧ events.length = 2 ∧
    ∀ event ∈ events, event.request = .selecting .xorInto → event.outcome = .entered .xorIntoAvx2 := by
  refine ⟨_, _, rfl, rfl, fun event member selecting => ?_⟩
  have settled := probes_settle aesHost [.start 0 (.selecting .xorInto), .start 1 (.selecting .xorInto),
    .resume 0, .resume 1, .resume 0, .resume 1, .resume 1, .resume 0] rfl
  exact settled.2.2 (by simp) event member .xorInto selecting

end Pich.Dispatch
