import Pich.ForEachBackend

namespace Pich.ForEachBackend
open Runs Selection

section Steps
variable {cpu : Cpu} {events : List Event} {c : Config}

theorem inside_of_caller {status : Status} {b : Backend} (caller : status.caller = some (some b)) :
    ∃ rest, status = .inside b rest := by
  cases status with
  | inside b' rest =>
    cases caller
    exact ⟨rest, rfl⟩
  | idle => cases caller
  | between | unwinding | restored => cases caller

theorem inside_of_busy {status : Status} {pinned : Option Backend} (caller : status.caller = some pinned)
    (busy : status ≠ .idle) : ∃ b rest, status = .inside b rest := by
  cases status with
  | inside b rest => exact ⟨b, rest, rfl⟩
  | idle => exact (busy rfl).elim
  | between | unwinding | restored => cases caller

/-- No backend is pinned, or no longer. -/
def Status.Quiet : Status → Prop
  | .idle | .restored _ => True
  | _ => False

/-- Detection decides when no call is between its first pin and its reset. -/
def Restoring (cpu : Cpu) (c : Config) : Prop :=
  (∀ t, (c.status t).Quiet) → Among (· = detect cpu) c.selection

theorem Restoring.of_busy {d : Config} (thread : Nat) (busy : ¬ (d.status thread).Quiet) : Restoring cpu d :=
  fun calm => (busy (calm thread)).elim

theorem moved_status (c : Config) (thread : Nat) (status : Status) : (c.moved thread status).status thread = status :=
  if_pos rfl

/-- An access that forces nothing keeps it. -/
theorem Restoring.accessed (restoring : Restoring cpu c) (action : Selection.Action)
    (unforced : action.ForcesOnly (· = detect cpu)) {returned : List Returned} {selection : Selection.Config}
    (stepped : Selection.step cpu action c.selection = some (returned, selection)) :
    Restoring cpu { c with selection } :=
  fun calm => (step_among (· = detect cpu) rfl action unforced (restoring calm) stepped).1

/-- Only bodies force, not anybody outside of `for_each_backend`. -/
def ForcesInside : Action → Config → Prop
  | .force thread _, c => c.status thread ≠ .idle
  | _, _ => True

theorem Restoring.step (restoring : Restoring cpu c) {action : Action} {out : List Event} {d : Config}
    (inside : ForcesInside action c) (stepped : Step cpu c action out d) : Restoring cpu d := by
  cases stepped with
  | @acquire thread _ _ => exact .of_busy thread (by simp [Config.moved, Status.Quiet])
  | @pin thread _ _ _ _ _ _ => exact .of_busy thread (by rw [moved_status]; exact id)
  | @finish thread _ _ _ => exact .of_busy thread (by rw [moved_status]; exact id)
  | @panic thread _ _ _ => exact .of_busy thread (by rw [moved_status]; exact id)
  | @restore thread returned selection panicked _ cleared =>
    have unprobed : selection.selected = UNPROBED := by
      simp only [Selection.step] at cleared
      split at cleared
      · cases cleared
      · cases cleared
        rfl
    exact fun _ => .inl unprobed
  | @release thread panicked held =>
    refine fun calm => restoring fun t => ?_
    by_cases same : t = thread
    · rw [same, held]
      trivial
    · simpa [Config.moved, same] using calm t
  | load _ inner => exact restoring.accessed (.load _) trivial inner
  | store _ inner => exact restoring.accessed (.store _) trivial inner
  | @force thread pinned _ _ _ calls _ =>
    -- the body's own reset is still to come
    obtain ⟨b, rest, running⟩ := inside_of_busy calls inside
    exact .of_busy thread (by rw [running]; exact id)
  | reset _ inner => exact restoring.accessed (.reset _) trivial inner

/-- While a body runs, what is selected is what was pinned for it. -/
def Pinned (c : Config) : Prop := ∀ t b rest, c.status t = .inside b rest → c.selection.selected = b.toU8

/-- An access that leaves a running body its backend, be it from outside or the body's own. -/
def Harmless (cpu : Cpu) : Action → Config → Prop
  | .store _, c => ∀ t b rest, c.status t = .inside b rest → b = detect cpu
  | .force _ forced, c => ∀ t b rest, c.status t = .inside b rest → b = forced
  | .reset _, c => ∀ t b rest, c.status t ≠ .inside b rest
  | _, _ => True

def Obeyed (events : List Event) : Prop := ∀ t b value, .observed t (some b) value ∈ events → value = b

/-- A call of `backend` inside or outside of a body. -/
theorem Pinned.called (pinned : Pinned c) {thread : Nat} {caller : Option Backend} (action : Selection.Action)
    (calls : (c.status thread).caller = some caller) (quiet : action.Quiet)
    (harmless : ∀ t b rest, c.status t = .inside b rest → ∀ storing, action = .store storing → b = detect cpu)
    {returned : List Returned} {selection : Selection.Config}
    (stepped : Selection.step cpu action c.selection = some (returned, selection)) :
    Pinned { c with selection } ∧ Obeyed (returned.map fun call => .observed thread caller call.value) := by
  have forced (t : Nat) (b : Backend) (rest : List Backend) (running : c.status t = .inside b rest) :
      selection.selected = b.toU8 ∧ ∀ call ∈ returned, call.value = b := by
    have unforced : action.Unforced cpu c.selection := by
      cases action with
      | store storing => exact .inr (harmless t b rest running storing rfl ▸ pinned t b rest running)
      | load | force | reset => trivial
    exact step_forced quiet unforced (pinned t b rest running) stepped
  refine ⟨fun t b rest running => (forced t b rest running).1, fun t b value member => ?_⟩
  obtain ⟨call, among, same⟩ := List.mem_map.mp member
  cases same
  obtain ⟨rest, running⟩ := inside_of_caller calls
  exact (forced thread b rest running).2 call among

theorem Pinned.step (pinned : Pinned c) (sound : Sound cpu events c) {action : Action} {out : List Event} {d : Config}
    (harmless : Harmless cpu action c) (stepped : Step cpu c action out d) : Pinned d ∧ Obeyed out := by
  -- whoever moves on holds the lock, and a body of another thread would hold it too
  have moves {thread : Nat} (busy : c.status thread ≠ .idle) {selection : Selection.Config} {status : Status}
      (own : ∀ b rest, status = .inside b rest → selection.selected = b.toU8) :
      Pinned ({ c with selection }.moved thread status) := by
    intro t b rest running
    simp only [Config.moved] at running
    split at running
    · exact own b rest running
    · rename_i other
      exact (other (sound.alone (by rw [running]; exact Status.noConfusion) busy)).elim
  have still {thread : Nat} {status : Status} (out_of_body : ∀ b rest, status ≠ .inside b rest) :
      Pinned (c.moved thread status) := by
    intro t b rest running
    simp only [Config.moved] at running
    split at running
    · exact (out_of_body b rest running).elim
    · exact pinned t b rest running
  have silent : Obeyed [] := fun t b value member => by simp at member
  cases stepped with
  | acquire _ _ =>
    exact ⟨still fun _ _ => Status.noConfusion, fun t b value member => by simp at member⟩
  | @pin thread b _ _ _ head forced =>
    refine ⟨moves (by rw [head]; exact Status.noConfusion) fun b' rest inside => ?_,
      fun t b value member => by simp at member⟩
    rw [selected_of_force forced, (Status.inside.inj inside).1]
  | finish _ => exact ⟨still fun _ _ => Status.noConfusion, silent⟩
  | panic _ => exact ⟨still fun _ _ => Status.noConfusion, silent⟩
  | @restore thread _ _ panicked head _ =>
    refine ⟨moves (fun idle => ?_) (fun _ _ inside => nomatch inside), silent⟩
    cases panicked <;> simp [head] at idle
  | release _ => exact ⟨still fun _ _ => Status.noConfusion, fun t b value member => by simp at member⟩
  | load calls inner => exact pinned.called (.load _) calls trivial (fun _ _ _ _ _ store => nomatch store) inner
  | store calls inner =>
    exact pinned.called (.store _) calls trivial (fun t b rest running _ _ => harmless t b rest running) inner
  | force _ inner =>
    exact ⟨fun t b rest running => (selected_of_force inner).trans (harmless t b rest running ▸ rfl), silent⟩
  | reset _ _ => exact ⟨fun t b rest running => (harmless t b rest running).elim, silent⟩

end Steps

/-- Whatever threads do, inside and outside, and bodies force and reset as well: two threads are never in
`for_each_backend` together; each call of it has entered the body once for every supported backend in order, or for the
first of them up to a panic; and between two calls, panics or not, detection decides again unless somebody outside
forces a backend. -/
theorem forEachBackend_visits (cpu : Cpu) (actions : List Action) {events : List Event} {c : Config}
    (ran : run (step cpu) actions .start = some (events, c)) :
    (∀ t t', c.status t ≠ .idle → c.status t' ≠ .idle → t = t') ∧
      (∀ before t panicked after, events = before ++ .ended t panicked :: after →
        Visits (supportedBackends cpu) (visited t before) panicked) ∧
      (Guarded (step cpu) ForcesInside actions .start → (∀ t, c.status t = .idle) →
        Among (· = detect cpu) c.selection) := by
  have sound := run_sound ran
  refine ⟨fun t t' busy busy' => sound.alone busy busy', sound.ended, fun inside idle => ?_⟩
  have kept := run_keeps ForcesInside (Restoring cpu)
    (fun action c out d inside kept stepped => kept.step inside (step_cases stepped)) inside (fun _ => .inl rfl) ran
  refine kept fun t => ?_
  rw [idle t]
  trivial

/-- The first body forces another backend, and panics. -/
theorem forEachBackend_visits_panicked : ∃ c,
    run (step aesCpu) [.acquire 0, .pin 0, .force 0 .gfni, .panic 0, .restore 0, .release 0] .start =
      some ([.acquired 0, .entered 0 .aesNi, .ended 0 true], c) ∧
    Visits (supportedBackends aesCpu) (visited 0 [.acquired 0, .entered 0 .aesNi]) true := by
  obtain ⟨_, visits, _⟩ := forEachBackend_visits aesCpu
    [.acquire 0, .pin 0, .force 0 .gfni, .panic 0, .restore 0, .release 0] rfl
  exact ⟨_, rfl, visits [.acquired 0, .entered 0 .aesNi] 0 true [] rfl⟩

/-- As long as no access, from outside or of a body itself, takes a running body its backend, every call of `backend` in
a body returns the backend pinned for it. -/
theorem bodies_pinned (cpu : Cpu) (actions : List Action) {events : List Event} {c : Config}
    (harmless : Guarded (step cpu) (Harmless cpu) actions .start)
    (ran : run (step cpu) actions .start = some (events, c)) :
    ∀ t b value, .observed t (some b) value ∈ events → value = b := by
  have kept := run_trace (Harmless cpu)
    (fun events c => Sound cpu events c ∧ Pinned c ∧ Obeyed events)
    (fun action seen c out d harmless kept stepped => by
      obtain ⟨sound, pinned, obeyed⟩ := kept
      obtain ⟨next, obeys⟩ := pinned.step sound harmless (step_cases stepped)
      refine ⟨sound.step (step_cases stepped), next, fun t b value member => ?_⟩
      exact (List.mem_append.mp member).elim (obeyed t b value) (obeys t b value))
    harmless ⟨sound_start cpu, (fun t b rest running => nomatch running), fun t b value none => nomatch none⟩ ran
  exact kept.2.2

theorem bodies_pinned_second : ∃ events c,
    run (step aesCpu) [.acquire 0, .pin 0, .load 0, .load 1, .finish 0, .pin 0, .load 0] .start = some (events, c) ∧
    ∀ value, .observed 0 (some .avx2) value ∈ events → value = .avx2 := by
  refine ⟨_, _, rfl, bodies_pinned aesCpu [.acquire 0, .pin 0, .load 0, .load 1, .finish 0, .pin 0, .load 0]
    (guarded_of_forall (fun action among c => ?_) Config.start) rfl 0 .avx2⟩
  simp only [List.mem_cons, List.not_mem_nil, or_false] at among
  rcases among with rfl | rfl | rfl | rfl | rfl | rfl | rfl <;> trivial

end Pich.ForEachBackend
