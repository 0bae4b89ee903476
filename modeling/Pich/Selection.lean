import Pich.Arch
import Pich.Base.Runs

namespace Pich
open Runs

namespace Backend

def toU8 : Backend → U8
  | .fallback => 0
  | .sse2 => 1
  | .ssse3 => 2
  | .avx2 => 3
  | .avx512Vbmi => 4
  | .aesNi => 5
  | .gfni => 6

def fromU8 (v : U8) : Backend :=
  match v with
  | 1 => .sse2
  | 2 => .ssse3
  | 3 => .avx2
  | 4 => .avx512Vbmi
  | 5 => .aesNi
  | 6 => .gfni
  | _ => .fallback

@[simp] theorem fromU8_toU8 (b : Backend) : fromU8 b.toU8 = b := by cases b <;> rfl

theorem toU8_injective {b c : Backend} (same : b.toU8 = c.toU8) : b = c := by
  rw [← fromU8_toU8 b, same, fromU8_toU8]

end Backend

/-- The CPU features that detection asks for, and whether the build has the `simd` feature on x86_64. -/
structure Cpu where
  simd : Bool
  aes : Bool
  gfni : Bool
  avx512f : Bool
  avx512bw : Bool
  avx512vl : Bool
  avx512vbmi : Bool
  avx2 : Bool
  ssse3 : Bool
  deriving DecidableEq, Repr

namespace Selection

def UNPROBED : U8 := 0xff

def detect (cpu : Cpu) : Backend :=
  if cpu.simd then
    if cpu.aes && cpu.ssse3 then .aesNi
    else if cpu.gfni then .gfni
    else if cpu.avx512f && cpu.avx512bw && cpu.avx512vl && cpu.avx512vbmi then .avx512Vbmi
    else if cpu.avx2 then .avx2
    else if cpu.ssse3 then .ssse3
    else .sse2
  else .fallback

/-- Every backend the host can execute, widest first. -/
def supportedBackends (cpu : Cpu) : List Backend :=
  let all : List Backend :=
    if cpu.simd then
      let all := if cpu.aes && cpu.ssse3 then [.aesNi] else []
      let all := if cpu.gfni then all ++ [.gfni] else all
      let all := if cpu.avx512f && cpu.avx512bw && cpu.avx512vl && cpu.avx512vbmi then all ++ [.avx512Vbmi] else all
      let all := if cpu.avx2 then all ++ [.avx2] else all
      let all := if cpu.ssse3 then all ++ [.ssse3] else all
      all ++ [.sse2]
    else []
  all ++ [.fallback]

theorem toU8_ne_unprobed (b : Backend) : b.toU8 ≠ UNPROBED := by cases b <;> decide

/-- The atomic, the calls of `backend` in flight between their load and their store with the time of the load,
and the clock. -/
structure Config where
  selected : U8
  probing : Nat → Option Nat
  time : Nat

def Config.start : Config := { selected := UNPROBED, probing := fun _ => none, time := 0 }

inductive Action
  | load (thread : Nat)
  | store (thread : Nat)
  | force (thread : Nat) (b : Backend)
  | reset (thread : Nat)

structure Returned where
  began : Nat
  value : Backend
  deriving DecidableEq, Repr

/-- A thread inside a call of `backend` can only store; any other thread starts one of the three functions. -/
def step (cpu : Cpu) : Action → Config → Option (List Returned × Config)
  | .load thread, c =>
    if (c.probing thread).isSome then none
    else
      let cached := c.selected
      if cached ≠ UNPROBED then
        some ([{ began := c.time, value := .fromU8 cached }], { c with time := c.time + 1 })
      else
        some ([], { c with
          probing := fun t => if t = thread then some c.time else c.probing t
          time := c.time + 1 })
  | .store thread, c => do
    let began ← c.probing thread
    let chosen := detect cpu
    some ([{ began, value := chosen }],
      { selected := chosen.toU8, probing := fun t => if t = thread then none else c.probing t, time := c.time + 1 })
  | .force thread b, c =>
    if (c.probing thread).isSome then none
    else some ([], { c with selected := b.toU8, time := c.time + 1 })
  | .reset thread, c =>
    if (c.probing thread).isSome then none
    else some ([], { c with selected := UNPROBED, time := c.time + 1 })

def Action.Quiet : Action → Prop
  | .load _ | .store _ => True
  | .force _ _ | .reset _ => False

/-- In the run of these actions, what a force selects is what every later call returns until the next force or
reset, whatever the run goes on with after that. -/
def ForcedStays (cpu : Cpu) (actions : List Action) : Prop :=
  ∀ before thread b after rest, actions = before ++ .force thread b :: (after ++ rest) →
    (∀ action ∈ after, action.Quiet) →
    ∀ earlier c forced d returned e, run (step cpu) before .start = some (earlier, c) →
      step cpu (.force thread b) c = some (forced, d) → run (step cpu) after d = some (returned, e) →
      ∀ call ∈ returned, d.time ≤ call.began → call.value = b

/-- A probe that is about to store finds nothing selected, or the backend it has detected. -/
def Action.Unforced (cpu : Cpu) : Action → Config → Prop
  | .store _, c => c.selected = UNPROBED ∨ c.selected = (detect cpu).toU8
  | _, _ => True

/-- A probe never stores over a forced backend other than the one it detected. -/
def StoresUnforced (cpu : Cpu) (actions : List Action) : Prop :=
  Guarded (step cpu) (Action.Unforced cpu) actions .start

theorem selected_of_force {cpu : Cpu} {thread : Nat} {b : Backend} {c d : Config} {returned : List Returned}
    (stepped : step cpu (.force thread b) c = some (returned, d)) : d.selected = b.toU8 := by
  simp only [step] at stepped
  split at stepped
  · cases stepped
  · obtain ⟨_, rfl⟩ := Prod.mk.inj (Option.some.inj stepped)
    rfl

theorem step_forced {cpu : Cpu} {action : Action} {c d : Config} {b : Backend} {returned : List Returned}
    (quiet : action.Quiet) (unforced : action.Unforced cpu c) (forced : c.selected = b.toU8)
    (stepped : step cpu action c = some (returned, d)) :
    d.selected = b.toU8 ∧ ∀ call ∈ returned, call.value = b := by
  cases action with
  | load thread =>
    have cached : c.selected ≠ UNPROBED := by rw [forced]; exact toU8_ne_unprobed b
    simp only [step] at stepped
    split at stepped
    · cases stepped
    · obtain ⟨rfl, rfl⟩ := Prod.mk.inj (Option.some.inj stepped)
      refine ⟨forced, fun call member => ?_⟩
      rw [List.mem_singleton.mp member, forced, Backend.fromU8_toU8]
  | store thread =>
    have detected : b = detect cpu := by
      rcases unforced with unprobed | same
      · exact absurd (forced ▸ unprobed) (toU8_ne_unprobed b)
      · exact Backend.toU8_injective (forced ▸ same)
    simp only [step, Option.bind_eq_bind, Option.bind_eq_some_iff, Option.some.injEq, Prod.mk.injEq] at stepped
    obtain ⟨began, _, rfl, rfl⟩ := stepped
    refine ⟨by rw [detected], fun call member => ?_⟩
    rw [List.mem_singleton.mp member, detected]
  | force thread b => exact quiet.elim
  | reset thread => exact quiet.elim

/-- From a forced backend on, quiet actions whose stores are unforced return that backend. -/
theorem run_forced {cpu : Cpu} {after : List Action} {returned : List Returned} {c e : Config} {b : Backend}
    (quiet : ∀ action ∈ after, action.Quiet) (unforced : Guarded (step cpu) (Action.Unforced cpu) after c)
    (forced : c.selected = b.toU8) (ran : run (step cpu) after c = some (returned, e)) :
    ∀ call ∈ returned, call.value = b := by
  have empty : c.selected = b.toU8 ∧ ∀ call ∈ ([] : List Returned), call.value = b :=
    ⟨forced, fun call none => nomatch none⟩
  have guarded := (guarded_of_forall (fun action among _ => quiet action among) c).and unforced
  refine (run_trace _ (fun seen c => c.selected = b.toU8 ∧ ∀ call ∈ seen, call.value = b)
    (fun action seen c out d guard kept stepped => ?_) guarded empty ran).2
  obtain ⟨next, values⟩ := step_forced guard.1 guard.2 kept.1 stepped
  exact ⟨next, fun call among => (List.mem_append.mp among).elim (kept.2 call) (values call)⟩

/-- In every run in which no probe stores over a forced backend it did not detect, a forced backend stays
forced. -/
theorem forced_stays_of_unforced (cpu : Cpu) (actions : List Action) (unforced : StoresUnforced cpu actions) :
    ForcedStays cpu actions := by
  intro before thread b after rest split quiet earlier c forced d returned e reached stepped ran call member _
  have whole : Guarded (step cpu) (Action.Unforced cpu) (before ++ [.force thread b] ++ (after ++ rest)) .start := by
    rw [List.append_assoc, List.singleton_append, ← split]
    exact unforced
  have left := (whole.rest (run_append reached (run_single stepped))).front
  exact run_forced quiet left (selected_of_force stepped) ran call member

def aesCpu : Cpu :=
  { simd := true, aes := true, gfni := false, avx512f := false, avx512bw := false, avx512vl := false,
    avx512vbmi := false, avx2 := true, ssse3 := true }

/-- The probe stores before the force, and the reset comes after the call. -/
theorem forced_stays_after_probe :
    ForcedStays aesCpu [.load 0, .store 0, .force 1 .fallback, .load 0, .reset 1] := by
  refine forced_stays_of_unforced aesCpu _ ⟨trivial, fun _ c probed => ⟨.inl ?_, fun _ _ _ => ?_⟩⟩
  · cases Option.some.inj probed
    rfl
  · exact guarded_of_forall (fun action among c => by
      simp only [List.mem_cons, List.not_mem_nil, or_false] at among
      rcases among with rfl | rfl | rfl <;> trivial) _

/-- A probe that loaded before the force stores after it, and the next call returns what was detected. -/
theorem forced_overwritten :
    ¬ ForcedStays aesCpu [.load 0, .force 1 .fallback, .store 0, .load 1] := by
  intro stays
  have wrong := stays [.load 0] 1 .fallback [.store 0, .load 1] [] rfl (by simp [Action.Quiet]) [] _ [] _
    [⟨0, .aesNi⟩, ⟨3, .aesNi⟩] _ rfl rfl rfl ⟨3, .aesNi⟩ (by simp) (by decide)
  exact absurd wrong (by decide)

/-- Nothing is selected, or one of these. -/
def Among (allowed : Backend → Prop) (c : Config) : Prop :=
  c.selected = UNPROBED ∨ ∃ b, allowed b ∧ c.selected = b.toU8

def Action.ForcesOnly (allowed : Backend → Prop) : Action → Prop
  | .force _ b => allowed b
  | _ => True

/-- What is selected and returned is what was detected or forced. -/
theorem step_among {cpu : Cpu} (allowed : Backend → Prop) {c d : Config} {returned : List Returned}
    (detected : allowed (detect cpu)) (action : Action) (forces : action.ForcesOnly allowed) (among : Among allowed c)
    (stepped : step cpu action c = some (returned, d)) : Among allowed d ∧ ∀ call ∈ returned, allowed call.value := by
  cases action with
  | load thread =>
    simp only [step] at stepped
    split at stepped
    · cases stepped
    · split at stepped
      · rename_i cached
        obtain ⟨rfl, rfl⟩ := Prod.mk.inj (Option.some.inj stepped)
        obtain ⟨b, permitted, selected⟩ := among.resolve_left cached
        refine ⟨.inr ⟨b, permitted, selected⟩, fun call member => ?_⟩
        rw [List.mem_singleton.mp member, selected, Backend.fromU8_toU8]
        exact permitted
      · obtain ⟨rfl, rfl⟩ := Prod.mk.inj (Option.some.inj stepped)
        exact ⟨among, fun call none => nomatch none⟩
  | store thread =>
    simp only [step, Option.bind_eq_bind, Option.bind_eq_some_iff, Option.some.injEq, Prod.mk.injEq] at stepped
    obtain ⟨began, _, rfl, rfl⟩ := stepped
    refine ⟨.inr ⟨_, detected, rfl⟩, fun call member => ?_⟩
    rw [List.mem_singleton.mp member]
    exact detected
  | force thread b =>
    have selected := selected_of_force stepped
    simp only [step] at stepped
    split at stepped
    · cases stepped
    · obtain ⟨rfl, _⟩ := Prod.mk.inj (Option.some.inj stepped)
      exact ⟨.inr ⟨b, forces, selected⟩, fun call none => nomatch none⟩
  | reset thread =>
    simp only [step] at stepped
    split at stepped
    · cases stepped
    · obtain ⟨rfl, rfl⟩ := Prod.mk.inj (Option.some.inj stepped)
      exact ⟨.inl rfl, fun call none => nomatch none⟩

def Action.IsForce : Action → Prop
  | .force _ _ => True
  | _ => False

/-- In the run of these actions, every call that ends after a reset, whenever it began, returns what detection
chooses, up to the next force. -/
def ResetRestores (cpu : Cpu) (actions : List Action) : Prop :=
  ∀ before thread after, actions = before ++ .reset thread :: after → (∀ action ∈ after, ¬ action.IsForce) →
    ∀ earlier c none d returned e, run (step cpu) before .start = some (earlier, c) →
      step cpu (.reset thread) c = some (none, d) → run (step cpu) after d = some (returned, e) →
      Among (· = detect cpu) e ∧ ∀ call ∈ returned, call.value = detect cpu

/-- Unlike a force, a reset needs no condition: the probe still in flight stores what the next one would. -/
theorem reset_restores (cpu : Cpu) (actions : List Action) : ResetRestores cpu actions := by
  intro before thread after _ unforced earlier c none d returned e _ stepped ran
  have cleared : Among (· = detect cpu) d := by
    simp only [step] at stepped
    split at stepped
    · cases stepped
    · obtain ⟨_, rfl⟩ := Prod.mk.inj (Option.some.inj stepped)
      exact .inl rfl
  refine run_emits (Action.ForcesOnly (· = detect cpu)) ?_ (fun action member => ?_) cleared ran
  · exact fun action c returned d forces among stepped => step_among _ rfl action forces among stepped
  · cases action with
    | force thread b => exact (unforced _ member trivial).elim
    | load | store | reset => trivial

end Selection

end Pich
