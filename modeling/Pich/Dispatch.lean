import Pich.Kernels

namespace Pich
open Runs

namespace Dispatch
open Selection

/-- The functions that begin with a call of `backend`, and `backend` itself. -/
inductive Selecting
  | backend
  | subBytes
  | round128
  | fillKeystream
  | xorInto
  deriving DecidableEq, Repr

/-- The functions that begin with a call of `has_sha_ni`, and `has_sha_ni` itself. -/
inductive Hashing
  | hasShaNi
  | sha256Compress
  deriving DecidableEq, Repr

inductive Request
  | selecting (request : Selecting)
  | hashing (request : Hashing)
  deriving DecidableEq, Repr

inductive Outcome
  | returned (b : Backend)
  | answered (ok : Bool)
  | entered (kernel : Kernel)
  | portable
  deriving DecidableEq, Repr

structure Event where
  thread : Nat
  request : Request
  outcome : Outcome
  deriving DecidableEq, Repr

/-- Where a thread is between two accesses of the atomics. -/
inductive Status
  | idle
  | probing (request : Selecting)
  | measuring
  | probingAvx2
  | probingShaNi (request : Hashing)
  deriving DecidableEq, Repr

/-- The three atomics, and where each thread is. -/
structure Config where
  selection : Selection.Config
  avx2 : U8
  shaNi : U8
  status : Nat → Status

def Config.start : Config :=
  { selection := .start, avx2 := UNPROBED, shaNi := UNPROBED, status := fun _ => .idle }

def Config.moved (c : Config) (thread : Nat) (status : Status) : Config :=
  { c with status := fun t => if t = thread then status else c.status t }

def flag (ok : Bool) : U8 := if ok then 1 else 0

/-- `sha256rnds2` needs the SHA extensions, the transposition around it the other two. -/
def probeShaNi (host : Host) : Bool := host.sha && host.ssse3 && host.sse41

def enter (kernel : Option Kernel) : Outcome := (kernel.map Outcome.entered).getD .portable

/-- What follows the choice of a backend: the XOR asks for the vector width, the others end here. -/
def Config.chosen (c : Config) (thread : Nat) (request : Selecting) (b : Backend) : List Event × Config :=
  match request with
  | .backend => ([⟨thread, .selecting request, .returned b⟩], c.moved thread .idle)
  | .subBytes => ([⟨thread, .selecting request, enter (b.strategy.map .subBytes)⟩], c.moved thread .idle)
  | .round128 => ([⟨thread, .selecting request, enter (b.strategy.map .round128)⟩], c.moved thread .idle)
  | .fillKeystream => ([⟨thread, .selecting request, enter (b.strategy.map .fillKeystream)⟩], c.moved thread .idle)
  | .xorInto =>
    if b ≠ .fallback then ([], c.moved thread .measuring)
    else ([⟨thread, .selecting request, .portable⟩], c.moved thread .idle)

/-- A step of `backend` inside a request: it returns nothing when it has just found the atomic unprobed. -/
def Config.asked (c : Config) (thread : Nat) (request : Selecting) :
    List Selection.Returned × Selection.Config → List Event × Config
  | ([], selection) => ([], { c with selection }.moved thread (.probing request))
  | (returned :: _, selection) => { c with selection }.chosen thread request returned.value

def Config.measured (c : Config) (thread : Nat) (wide : Bool) : List Event × Config :=
  ([⟨thread, .selecting .xorInto, .entered (if wide then .xorIntoAvx2 else .xorIntoSse2)⟩], c.moved thread .idle)

def Config.hashed (c : Config) (thread : Nat) (request : Hashing) (ok : Bool) : List Event × Config :=
  match request with
  | .hasShaNi => ([⟨thread, .hashing request, .answered ok⟩], c.moved thread .idle)
  | .sha256Compress =>
    ([⟨thread, .hashing request, if ok then .entered .sha256CompressShani else .portable⟩], c.moved thread .idle)

inductive Action
  | start (thread : Nat) (request : Request)
  | resume (thread : Nat)
  | force (thread : Nat) (b : Backend)
  | reset (thread : Nat)

/-- One access of an atomic by one thread. Without the `simd` feature only `backend` itself reads one. -/
def step (host : Host) : Action → Config → Option (List Event × Config)
  | .start thread (.selecting request), c =>
    if c.status thread ≠ .idle then none
    else if host.simd || request = .backend then
      (Selection.step host.toCpu (.load thread) c.selection).map (c.asked thread request)
    else some ([⟨thread, .selecting request, .portable⟩], c)
  | .start thread (.hashing request), c =>
    if c.status thread ≠ .idle then none
    else if host.simd then
      let cached := c.shaNi
      if cached ≠ UNPROBED then some (c.hashed thread request (cached == 1))
      else some ([], c.moved thread (.probingShaNi request))
    else some (c.hashed thread request false)
  | .resume thread, c =>
    match c.status thread with
    | .idle => none
    | .probing request => (Selection.step host.toCpu (.store thread) c.selection).map (c.asked thread request)
    | .measuring =>
      let cached := c.avx2
      if cached ≠ UNPROBED then some (c.measured thread (cached == 1))
      else some ([], c.moved thread .probingAvx2)
    | .probingAvx2 =>
      let ok := host.avx2
      some ({ c with avx2 := flag ok }.measured thread ok)
    | .probingShaNi request =>
      let ok := probeShaNi host
      some ({ c with shaNi := flag ok }.hashed thread request ok)
  | .force thread b, c =>
    if c.status thread ≠ .idle then none
    else (Selection.step host.toCpu (.force thread b) c.selection).map fun (_, selection) => ([], { c with selection })
  | .reset thread, c =>
    if c.status thread ≠ .idle then none
    else (Selection.step host.toCpu (.reset thread) c.selection).map fun (_, selection) => ([], { c with selection })

def Selecting.outcome (wide : Bool) (b : Backend) : Selecting → Outcome
  | .backend => .returned b
  | .subBytes => enter (b.strategy.map .subBytes)
  | .round128 => enter (b.strategy.map .round128)
  | .fillKeystream => enter (b.strategy.map .fillKeystream)
  | .xorInto => if b ≠ .fallback then .entered (if wide then .xorIntoAvx2 else .xorIntoSse2) else .portable

/-- Where a request ends on this host when `backend` answers `b`. -/
def Selecting.settled (host : Host) (b : Backend) (request : Selecting) : Outcome :=
  if host.simd || request = .backend then request.outcome host.avx2 b else .portable

def Hashing.outcome (ok : Bool) : Hashing → Outcome
  | .hasShaNi => .answered ok
  | .sha256Compress => if ok then .entered .sha256CompressShani else .portable

def hasShaNi (host : Host) : Bool := host.simd && probeShaNi host

/-- A request ends where the host sends it, for one of the allowed answers of `backend`. -/
def Event.Settled (host : Host) (allowed : Backend → Prop) (event : Event) : Prop :=
  match event.request with
  | .selecting request => ∃ b, allowed b ∧ event.outcome = request.settled host b
  | .hashing request => event.outcome = request.outcome (hasShaNi host)

def Action.ForcesOnly (allowed : Backend → Prop) : Action → Prop
  | .force _ b => allowed b
  | _ => True

section Soundness
variable {host : Host} {allowed : Backend → Prop}

def Status.Fits (host : Host) (allowed : Backend → Prop) : Status → Prop
  | .idle => True
  | .probing request => (host.simd || request = .backend) = true
  | .measuring | .probingAvx2 => host.simd = true ∧ ∃ b, allowed b ∧ b ≠ .fallback
  | .probingShaNi _ => host.simd = true

/-- What every interleaving keeps: each atomic holds nothing or what its probe would store. -/
structure Sound (host : Host) (allowed : Backend → Prop) (c : Config) : Prop where
  selected : Among allowed c.selection
  avx2 : c.avx2 = UNPROBED ∨ c.avx2 = flag host.avx2
  shaNi : c.shaNi = UNPROBED ∨ c.shaNi = flag (probeShaNi host)
  status : ∀ thread, (c.status thread).Fits host allowed

theorem flag_eq_one (ok : Bool) : (flag ok == 1) = ok := by cases ok <;> rfl

theorem Sound.moved {c : Config} (sound : Sound host allowed c) (thread : Nat) (status : Status)
    (fits : status.Fits host allowed) : Sound host allowed (c.moved thread status) where
  selected := sound.selected
  avx2 := sound.avx2
  shaNi := sound.shaNi
  status t := by
    simp only [Config.moved]
    split
    · exact fits
    · exact sound.status t

/-- A step that keeps this and ends only in what the host decides. -/
def Kept (host : Host) (allowed : Backend → Prop) (result : List Event × Config) : Prop :=
  Sound host allowed result.2 ∧ ∀ event ∈ result.1, event.Settled host allowed

theorem Sound.silent {c : Config} (sound : Sound host allowed c) : Kept host allowed ([], c) :=
  ⟨sound, fun _ none => nomatch none⟩

theorem Sound.ended {c : Config} (sound : Sound host allowed c) {thread : Nat} {event : Event}
    (settled : event.Settled host allowed) : Kept host allowed ([event], c.moved thread .idle) :=
  ⟨sound.moved thread .idle trivial, fun _ member => List.mem_singleton.mp member ▸ settled⟩

theorem Sound.chosen {c : Config} (sound : Sound host allowed c) {request : Selecting} {b : Backend}
    (reads : (host.simd || request = .backend) = true) (permitted : allowed b) (thread : Nat) :
    Kept host allowed (c.chosen thread request b) := by
  have ends (outcome : Outcome) (reached : outcome = request.outcome host.avx2 b) :
      Event.Settled host allowed ⟨thread, .selecting request, outcome⟩ :=
    ⟨b, permitted, by rw [Selecting.settled, if_pos reads, reached]⟩
  cases request with
  | xorInto =>
    have simd : host.simd = true := by simpa using reads
    simp only [Config.chosen]
    split
    · rename_i vector
      exact (sound.moved thread .measuring ⟨simd, b, permitted, vector⟩).silent
    · rename_i scalar
      exact sound.ended (ends _ (by rw [Selecting.outcome, if_neg scalar]))
  | backend | subBytes | round128 | fillKeystream => exact sound.ended (ends _ rfl)

/-- A step of `backend` inside a request keeps what the selection keeps. -/
theorem Sound.asked {c : Config} (sound : Sound host allowed c) {request : Selecting}
    (reads : (host.simd || request = .backend) = true) {thread : Nat} {returned : List Selection.Returned}
    {selection : Selection.Config} (among : Among allowed selection)
    (values : ∀ call ∈ returned, allowed call.value) :
    Kept host allowed (c.asked thread request (returned, selection)) := by
  have next : Sound host allowed { c with selection } := ⟨among, sound.avx2, sound.shaNi, sound.status⟩
  cases returned with
  | nil => exact (next.moved thread (.probing request) reads).silent
  | cons call later => exact next.chosen reads (values call List.mem_cons_self) thread

theorem Sound.measured {c : Config} (sound : Sound host allowed c) (thread : Nat) (simd : host.simd = true)
    (vector : ∃ b, allowed b ∧ b ≠ .fallback) : Kept host allowed (c.measured thread host.avx2) := by
  obtain ⟨b, permitted, vector⟩ := vector
  refine sound.ended ⟨b, permitted, ?_⟩
  rw [Selecting.settled, simd, Bool.true_or, if_pos rfl, Selecting.outcome, if_pos vector]

theorem Sound.hashed {c : Config} (sound : Sound host allowed c) (thread : Nat) (request : Hashing) :
    Kept host allowed (c.hashed thread request (hasShaNi host)) := by
  cases request with
  | hasShaNi => exact sound.ended rfl
  | sha256Compress => exact sound.ended rfl

theorem hasShaNi_of_simd (simd : host.simd = true) : hasShaNi host = probeShaNi host := by
  rw [hasShaNi, simd, Bool.true_and]

theorem start_kept {c : Config} (detected : allowed (detect host.toCpu)) (sound : Sound host allowed c) {thread : Nat}
    {request : Request} {result : List Event × Config}
    (stepped : step host (.start thread request) c = some result) : Kept host allowed result := by
  cases request with
  | selecting request =>
    simp only [step] at stepped
    split at stepped
    · cases stepped
    · split at stepped
      · rename_i reads
        obtain ⟨⟨returned, selection⟩, inner, rfl⟩ := Option.map_eq_some_iff.mp stepped
        obtain ⟨among, values⟩ := step_among allowed detected (.load thread) trivial sound.selected inner
        exact sound.asked reads among values
      · rename_i closed
        cases Option.some.inj stepped
        refine ⟨sound, fun event member => List.mem_singleton.mp member ▸ ⟨_, detected, ?_⟩⟩
        rw [Selecting.settled, if_neg closed]
  | hashing request =>
    simp only [step] at stepped
    split at stepped
    · cases stepped
    · split at stepped
      · rename_i simd
        split at stepped
        · rename_i cached
          rw [← Option.some.inj stepped, sound.shaNi.resolve_left cached, flag_eq_one, ← hasShaNi_of_simd simd]
          exact sound.hashed thread request
        · cases Option.some.inj stepped
          exact (sound.moved thread (.probingShaNi request) simd).silent
      · rename_i closed
        have answer : hasShaNi host = false := by rw [hasShaNi, Bool.eq_false_of_not_eq_true closed, Bool.false_and]
        rw [← Option.some.inj stepped, ← answer]
        exact sound.hashed thread request

theorem resume_kept {c : Config} (detected : allowed (detect host.toCpu)) (sound : Sound host allowed c) {thread : Nat}
    {result : List Event × Config} (stepped : step host (.resume thread) c = some result) : Kept host allowed result := by
  have fits := sound.status thread
  simp only [step] at stepped
  split at stepped
  · cases stepped
  · rename_i request at_probe
    rw [at_probe] at fits
    obtain ⟨⟨returned, selection⟩, inner, rfl⟩ := Option.map_eq_some_iff.mp stepped
    obtain ⟨among, values⟩ := step_among allowed detected (.store thread) trivial sound.selected inner
    exact sound.asked fits among values
  · rename_i at_width
    rw [at_width] at fits
    split at stepped
    · rename_i cached
      rw [← Option.some.inj stepped, sound.avx2.resolve_left cached, flag_eq_one]
      exact sound.measured thread fits.1 fits.2
    · cases Option.some.inj stepped
      exact (sound.moved thread .probingAvx2 fits).silent
  · rename_i at_probe
    rw [at_probe] at fits
    have stored : Sound host allowed { c with avx2 := flag host.avx2 } :=
      ⟨sound.selected, .inr rfl, sound.shaNi, sound.status⟩
    rw [← Option.some.inj stepped]
    exact stored.measured thread fits.1 fits.2
  · rename_i request at_probe
    rw [at_probe] at fits
    have stored : Sound host allowed { c with shaNi := flag (probeShaNi host) } :=
      ⟨sound.selected, sound.avx2, .inr rfl, sound.status⟩
    have answered := stored.hashed thread request
    rw [hasShaNi_of_simd fits] at answered
    rw [← Option.some.inj stepped]
    exact answered

theorem step_kept {action : Action} {c : Config} {result : List Event × Config} (detected : allowed (detect host.toCpu))
    (forces : action.ForcesOnly allowed) (sound : Sound host allowed c) (stepped : step host action c = some result) :
    Kept host allowed result := by
  have selecting (action : Selection.Action) (among : action.ForcesOnly allowed) (stepped : (Selection.step host.toCpu
      action c.selection).map (fun (_, selection) => (([] : List Event), { c with selection })) = some result) :
      Kept host allowed result := by
    obtain ⟨⟨_, selection⟩, inner, rfl⟩ := Option.map_eq_some_iff.mp stepped
    obtain ⟨among, _⟩ := step_among allowed detected action among sound.selected inner
    exact Sound.silent ⟨among, sound.avx2, sound.shaNi, sound.status⟩
  cases action with
  | start thread request => exact start_kept detected sound stepped
  | resume thread => exact resume_kept detected sound stepped
  | force thread b =>
    simp only [step] at stepped
    split at stepped
    · cases stepped
    · exact selecting (.force thread b) forces stepped
  | reset thread =>
    simp only [step] at stepped
    split at stepped
    · cases stepped
    · exact selecting (.reset thread) trivial stepped

/-- In every interleaving each request ends where the host sends it, for a backend that was forced or detected. -/
theorem run_settled (allowed : Backend → Prop) (detected : allowed (detect host.toCpu)) {actions : List Action}
    (forces : ∀ action ∈ actions, action.ForcesOnly allowed) {events : List Event} {c : Config}
    (ran : run (step host) actions .start = some (events, c)) : ∀ event ∈ events, event.Settled host allowed := by
  have start : Sound host allowed .start := ⟨.inl rfl, .inl rfl, .inl rfl, fun _ => trivial⟩
  have kept := run_emits (Action.ForcesOnly allowed)
    (fun action c events d forces sound stepped => step_kept detected forces sound stepped) forces start ran
  exact kept.2

end Soundness

end Dispatch

end Pich
