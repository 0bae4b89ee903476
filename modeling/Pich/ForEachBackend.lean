import Pich.Selection

namespace Pich.ForEachBackend
open Runs Selection

/-- Where a thread is in `for_each_backend`: at the head of the loop with the backends still to come, inside the
body, after a panic of the body, or after the reset with the lock still held. -/
inductive Status
  | idle
  | between (rest : List Backend)
  | inside (b : Backend) (rest : List Backend)
  | unwinding
  | restored (panicked : Bool)
  deriving DecidableEq, Repr

structure Config where
  selection : Selection.Config
  lock : Option Nat
  poisoned : Bool
  status : Nat → Status

def Config.start : Config := { selection := .start, lock := none, poisoned := false, status := fun _ => .idle }

def Config.moved (c : Config) (thread : Nat) (status : Status) : Config :=
  { c with status := fun t => if t = thread then status else c.status t }

inductive Event
  | acquired (thread : Nat)
  | entered (thread : Nat) (b : Backend)
  | observed (thread : Nat) (pinned : Option Backend) (value : Backend)
  | ended (thread : Nat) (panicked : Bool)
  deriving DecidableEq, Repr

inductive Action
  | acquire (thread : Nat)
  | pin (thread : Nat)
  | finish (thread : Nat)
  | panic (thread : Nat)
  | restore (thread : Nat)
  | release (thread : Nat)
  | load (thread : Nat)
  | store (thread : Nat)
  | force (thread : Nat) (b : Backend)
  | reset (thread : Nat)

/-- Code that may call `backend`, `force_backend` and `reset_backend`: outside of `for_each_backend`, or a body with the
backend pinned for it. -/
def Status.caller : Status → Option (Option Backend)
  | .idle => some none
  | .inside b _ => some (some b)
  | _ => none

/-- One access of the lock or of the atomic by one thread. A poisoned lock is taken like any other. -/
def step (cpu : Cpu) : Action → Config → Option (List Event × Config)
  | .acquire thread, c =>
    if c.status thread = .idle ∧ c.selection.probing thread = none ∧ c.lock = none then
      some ([.acquired thread], { c.moved thread (.between (supportedBackends cpu)) with lock := some thread })
    else none
  | .pin thread, c =>
    match c.status thread with
    | .between (b :: rest) => (Selection.step cpu (.force thread b) c.selection).map fun (_, selection) =>
      ([.entered thread b], { c with selection }.moved thread (.inside b rest))
    | _ => none
  | .finish thread, c =>
    match c.status thread, c.selection.probing thread with
    | .inside _ rest, none => some ([], c.moved thread (.between rest))
    | _, _ => none
  | .panic thread, c =>
    match c.status thread, c.selection.probing thread with
    | .inside _ _, none => some ([], c.moved thread .unwinding)
    | _, _ => none
  | .restore thread, c =>
    match c.status thread with
    | .between [] => (Selection.step cpu (.reset thread) c.selection).map fun (_, selection) =>
      ([], { c with selection }.moved thread (.restored false))
    | .unwinding => (Selection.step cpu (.reset thread) c.selection).map fun (_, selection) =>
      ([], { c with selection }.moved thread (.restored true))
    | _ => none
  | .release thread, c =>
    match c.status thread with
    | .restored panicked =>
      some ([.ended thread panicked], { c.moved thread .idle with lock := none, poisoned := c.poisoned || panicked })
    | _ => none
  | .load thread, c => do
    let pinned ← (c.status thread).caller
    let (returned, selection) ← Selection.step cpu (.load thread) c.selection
    some (returned.map fun call => .observed thread pinned call.value, { c with selection })
  | .store thread, c => do
    let pinned ← (c.status thread).caller
    let (returned, selection) ← Selection.step cpu (.store thread) c.selection
    some (returned.map fun call => .observed thread pinned call.value, { c with selection })
  | .force thread b, c => do
    let _ ← (c.status thread).caller
    let (_, selection) ← Selection.step cpu (.force thread b) c.selection
    some ([], { c with selection })
  | .reset thread, c => do
    let _ ← (c.status thread).caller
    let (_, selection) ← Selection.step cpu (.reset thread) c.selection
    some ([], { c with selection })

/-- Everything one action can do. -/
inductive Step (cpu : Cpu) (c : Config) : Action → List Event → Config → Prop
  | acquire {thread} : c.status thread = .idle → c.lock = none →
      Step cpu c (.acquire thread) [.acquired thread]
        { c.moved thread (.between (supportedBackends cpu)) with lock := some thread }
  | pin {thread b rest returned selection} : c.status thread = .between (b :: rest) →
      Selection.step cpu (.force thread b) c.selection = some (returned, selection) →
      Step cpu c (.pin thread) [.entered thread b] ({ c with selection }.moved thread (.inside b rest))
  | finish {thread b rest} : c.status thread = .inside b rest →
      Step cpu c (.finish thread) [] (c.moved thread (.between rest))
  | panic {thread b rest} : c.status thread = .inside b rest →
      Step cpu c (.panic thread) [] (c.moved thread .unwinding)
  | restore {thread returned selection} (panicked : Bool) :
      c.status thread = (if panicked then .unwinding else .between []) →
      Selection.step cpu (.reset thread) c.selection = some (returned, selection) →
      Step cpu c (.restore thread) [] ({ c with selection }.moved thread (.restored panicked))
  | release {thread panicked} : c.status thread = .restored panicked →
      Step cpu c (.release thread) [.ended thread panicked]
        { c.moved thread .idle with lock := none, poisoned := c.poisoned || panicked }
  | load {thread pinned returned selection} : (c.status thread).caller = some pinned →
      Selection.step cpu (.load thread) c.selection = some (returned, selection) →
      Step cpu c (.load thread) (returned.map fun call => .observed thread pinned call.value) { c with selection }
  | store {thread pinned returned selection} : (c.status thread).caller = some pinned →
      Selection.step cpu (.store thread) c.selection = some (returned, selection) →
      Step cpu c (.store thread) (returned.map fun call => .observed thread pinned call.value) { c with selection }
  | force {thread pinned b returned selection} : (c.status thread).caller = some pinned →
      Selection.step cpu (.force thread b) c.selection = some (returned, selection) →
      Step cpu c (.force thread b) [] { c with selection }
  | reset {thread pinned returned selection} : (c.status thread).caller = some pinned →
      Selection.step cpu (.reset thread) c.selection = some (returned, selection) →
      Step cpu c (.reset thread) [] { c with selection }

theorem step_cases {cpu : Cpu} {action : Action} {c d : Config} {events : List Event}
    (stepped : step cpu action c = some (events, d)) : Step cpu c action events d := by
  cases action with
  | acquire thread =>
    simp only [step] at stepped
    split at stepped
    · rename_i free
      cases Option.some.inj stepped
      exact .acquire free.1 free.2.2
    · cases stepped
  | pin thread =>
    simp only [step] at stepped
    split at stepped
    · rename_i b rest head
      obtain ⟨⟨_, selection⟩, forced, same⟩ := Option.map_eq_some_iff.mp stepped
      cases same
      exact .pin head forced
    · cases stepped
  | finish thread =>
    simp only [step] at stepped
    split at stepped
    · rename_i b rest running _
      cases Option.some.inj stepped
      exact .finish running
    · cases stepped
  | panic thread =>
    simp only [step] at stepped
    split at stepped
    · rename_i b rest running _
      cases Option.some.inj stepped
      exact .panic running
    · cases stepped
  | restore thread =>
    simp only [step] at stepped
    split at stepped
    · rename_i head
      obtain ⟨⟨_, selection⟩, cleared, same⟩ := Option.map_eq_some_iff.mp stepped
      cases same
      exact .restore false head cleared
    · rename_i head
      obtain ⟨⟨_, selection⟩, cleared, same⟩ := Option.map_eq_some_iff.mp stepped
      cases same
      exact .restore true head cleared
    · cases stepped
  | release thread =>
    simp only [step] at stepped
    split at stepped
    · rename_i panicked held
      cases Option.some.inj stepped
      exact .release held
    · cases stepped
  | load thread =>
    simp only [step, Option.bind_eq_bind, Option.bind_eq_some_iff, Option.some.injEq] at stepped
    obtain ⟨pinned, caller, ⟨returned, selection⟩, inner, same⟩ := stepped
    cases same
    exact .load caller inner
  | store thread =>
    simp only [step, Option.bind_eq_bind, Option.bind_eq_some_iff, Option.some.injEq] at stepped
    obtain ⟨pinned, caller, ⟨returned, selection⟩, inner, same⟩ := stepped
    cases same
    exact .store caller inner
  | force thread b =>
    simp only [step, Option.bind_eq_bind, Option.bind_eq_some_iff, Option.some.injEq] at stepped
    obtain ⟨pinned, caller, ⟨returned, selection⟩, inner, same⟩ := stepped
    cases same
    exact .force caller inner
  | reset thread =>
    simp only [step, Option.bind_eq_bind, Option.bind_eq_some_iff, Option.some.injEq] at stepped
    obtain ⟨pinned, caller, ⟨returned, selection⟩, inner, same⟩ := stepped
    cases same
    exact .reset caller inner

def visit (thread : Nat) (seen : List Backend) : Event → List Backend
  | .acquired t => if t = thread then [] else seen
  | .entered t b => if t = thread then seen ++ [b] else seen
  | .observed _ _ _ | .ended _ _ => seen

/-- The backends whose body the thread has entered since it last took the lock. -/
def visited (thread : Nat) (events : List Event) : List Backend := events.foldl (visit thread) []

/-- What a call of `for_each_backend` has visited when it ends: everything, or up to the panic. -/
def Visits (all seen : List Backend) (panicked : Bool) : Prop :=
  if panicked then seen ≠ [] ∧ seen <+: all else seen = all

def Status.Fits (all seen : List Backend) : Status → Prop
  | .idle => True
  | .between rest => seen ++ rest = all
  | .inside b rest => seen ++ rest = all ∧ seen.getLast? = some b
  | .unwinding => Visits all seen true
  | .restored panicked => Visits all seen panicked

theorem visited_append (thread : Nat) (events more : List Event) :
    visited thread (events ++ more) = more.foldl (visit thread) (visited thread events) := List.foldl_append

theorem visited_observed (thread : Nat) (events : List Event) (t : Nat) (pinned : Option Backend)
    (returned : List Returned) :
    visited thread (events ++ returned.map fun call => .observed t pinned call.value) = visited thread events := by
  rw [visited_append]
  generalize visited thread events = seen
  induction returned with
  | nil => rfl
  | cons call returned ih => exact ih

theorem split_append {α : Type} {xs ys before after : List α} {e : α} (split : xs ++ ys = before ++ e :: after) :
    (∃ mid, xs = before ++ e :: mid) ∨ ∃ mid, before = xs ++ mid ∧ ys = mid ++ e :: after := by
  rcases List.append_eq_append_iff.mp split with ⟨mid, front, back⟩ | ⟨mid, front, back⟩
  · exact .inr ⟨mid, front, back⟩
  · cases mid with
    | nil => exact .inr ⟨[], by simpa using front.symm, back.symm⟩
    | cons first mid =>
      obtain ⟨rfl, _⟩ := List.cons.inj back
      exact .inl ⟨mid, front⟩

def EndedWell (all : List Backend) (events : List Event) : Prop :=
  ∀ before thread panicked after, events = before ++ .ended thread panicked :: after →
    Visits all (visited thread before) panicked

theorem EndedWell.append {all : List Backend} {events more : List Event} (well : EndedWell all events)
    (none : ∀ thread panicked, .ended thread panicked ∉ more) : EndedWell all (events ++ more) := by
  intro before thread panicked after split
  rcases split_append split with ⟨mid, earlier⟩ | ⟨mid, _, later⟩
  · exact well before thread panicked mid earlier
  · exact (none thread panicked (later ▸ List.mem_append_right mid List.mem_cons_self)).elim

theorem EndedWell.ended {all : List Backend} {events : List Event} (well : EndedWell all events) {thread : Nat}
    {panicked : Bool} (visits : Visits all (visited thread events) panicked) :
    EndedWell all (events ++ [.ended thread panicked]) := by
  intro before t p after split
  rcases split_append split with ⟨mid, earlier⟩ | ⟨mid, front, last⟩
  · exact well before t p mid earlier
  · cases mid with
    | nil =>
      cases last
      rwa [front, List.append_nil]
    | cons first mid => cases mid <;> cases (List.cons.inj last).2

/-- The lock is held by whoever is not idle, and everyone is as far as it has visited. -/
structure Sound (cpu : Cpu) (events : List Event) (c : Config) : Prop where
  holder : ∀ thread, c.status thread ≠ .idle → c.lock = some thread
  visits : ∀ thread, (c.status thread).Fits (supportedBackends cpu) (visited thread events)
  ended : EndedWell (supportedBackends cpu) events

section Steps
variable {cpu : Cpu} {events : List Event} {c : Config}

theorem Sound.alone (sound : Sound cpu events c) {t t' : Nat} (busy : c.status t ≠ .idle)
    (busy' : c.status t' ≠ .idle) : t = t' :=
  Option.some.inj ((sound.holder t busy).symm.trans (sound.holder t' busy'))

/-- One thread moves on, and the others have neither the lock nor an event. -/
theorem Sound.moved (sound : Sound cpu events c) {thread : Nat} {out : List Event} {selection : Selection.Config}
    {lock : Option Nat} {poisoned : Bool} {status : Status} (busy : status ≠ .idle → lock = some thread)
    (others : ∀ t, t ≠ thread → c.status t ≠ .idle → lock = some t)
    (fits : status.Fits (supportedBackends cpu) (visited thread (events ++ out)))
    (apart : ∀ t, t ≠ thread → visited t (events ++ out) = visited t events)
    (ended : EndedWell (supportedBackends cpu) (events ++ out)) :
    Sound cpu (events ++ out)
      { selection, lock, poisoned, status := fun t => if t = thread then status else c.status t } where
  holder t active := by
    simp only at active
    split at active
    · rename_i same
      exact same ▸ busy active
    · rename_i other
      exact others t other active
  visits t := by
    simp only
    split
    · rename_i same
      exact same ▸ fits
    · rename_i other
      rw [apart t other]
      exact sound.visits t
  ended := ended

/-- The holder moves on with the lock in its hands. -/
theorem Sound.onward (sound : Sound cpu events c) {thread : Nat} (busy : c.status thread ≠ .idle) {out : List Event}
    {selection : Selection.Config} {status : Status}
    (fits : status.Fits (supportedBackends cpu) (visited thread (events ++ out)))
    (apart : ∀ t, t ≠ thread → visited t (events ++ out) = visited t events)
    (none : ∀ t p, .ended t p ∉ out) : Sound cpu (events ++ out) ({ c with selection }.moved thread status) :=
  sound.moved (fun _ => sound.holder thread busy) (fun t _ active => sound.holder t active) fits apart
    (sound.ended.append none)

theorem Sound.called (sound : Sound cpu events c) (thread : Nat) (pinned : Option Backend) (returned : List Returned)
    (selection : Selection.Config) :
    Sound cpu (events ++ returned.map fun call => .observed thread pinned call.value) { c with selection } where
  holder := sound.holder
  visits t := by
    rw [visited_observed]
    exact sound.visits t
  ended := sound.ended.append fun t p member => by simp at member

theorem Sound.silent (sound : Sound cpu events c) (selection : Selection.Config) :
    Sound cpu (events ++ []) { c with selection } := sound.called 0 none [] selection

theorem Sound.step (sound : Sound cpu events c) {action : Action} {out : List Event} {d : Config}
    (stepped : Step cpu c action out d) : Sound cpu (events ++ out) d := by
  cases stepped with
  | @acquire thread idle free =>
    have nobody : ∀ t, c.status t = .idle := fun t => by
      by_contra busy
      exact absurd ((sound.holder t busy).symm.trans free) (Option.some_ne_none t)
    refine sound.moved (fun _ => rfl) (fun t _ busy => (busy (nobody t)).elim) ?_ (fun t other => ?_) ?_
    · simp [visited_append, visit, Status.Fits]
    · simp [visited_append, visit, Ne.symm other]
    · exact sound.ended.append fun t p member => by simp at member
  | @pin thread b rest returned selection head _ =>
    have fits := sound.visits thread
    rw [head] at fits
    refine sound.onward (by rw [head]; exact Status.noConfusion) ?_ (fun t other => ?_)
      (fun t p member => by simp at member)
    · simpa [visited_append, visit, Status.Fits] using fits
    · simp [visited_append, visit, Ne.symm other]
  | @finish thread b rest running =>
    have fits := sound.visits thread
    rw [running] at fits
    refine sound.onward (by rw [running]; exact Status.noConfusion) ?_ (fun t _ => ?_) (fun t p none => nomatch none)
    · rw [List.append_nil]
      exact fits.1
    · rw [List.append_nil]
  | @panic thread b rest running =>
    have fits := sound.visits thread
    rw [running] at fits
    refine sound.onward (by rw [running]; exact Status.noConfusion) ?_ (fun t _ => ?_) (fun t p none => nomatch none)
    · rw [List.append_nil]
      have some : visited thread events ≠ [] := fun empty => by
        rw [empty] at fits
        cases fits.2
      exact ⟨some, ⟨rest, fits.1⟩⟩
    · rw [List.append_nil]
  | @restore thread returned selection panicked head _ =>
    have fits := sound.visits thread
    refine sound.onward (fun idle => ?_) ?_ (fun t _ => ?_) (fun t p none => nomatch none)
    · cases panicked <;> simp [head] at idle
    · rw [List.append_nil]
      cases panicked with
      | false => simpa [head, Status.Fits, Visits] using fits
      | true => simpa [head, Status.Fits, Visits] using fits
    · rw [List.append_nil]
  | @release thread panicked held =>
    have fits := sound.visits thread
    rw [held] at fits
    have busy : c.status thread ≠ .idle := by rw [held]; exact Status.noConfusion
    refine sound.moved (fun active => (active rfl).elim) (fun t other active => (other (sound.alone active busy)).elim)
      trivial (fun t _ => ?_) (sound.ended.ended fits)
    simp [visited_append, visit]
  | load _ _ => exact sound.called _ _ _ _
  | store _ _ => exact sound.called _ _ _ _
  | force _ _ => exact sound.silent _
  | reset _ _ => exact sound.silent _

end Steps

theorem sound_start (cpu : Cpu) : Sound cpu [] .start where
  holder _ busy := (busy rfl).elim
  visits _ := trivial
  ended before _ _ _ split := by cases before <;> cases split

theorem run_sound {cpu : Cpu} {actions : List Action} {events : List Event} {c : Config}
    (ran : run (step cpu) actions .start = some (events, c)) : Sound cpu events c := by
  have kept := run_trace (fun _ _ => True) (Sound cpu)
    (fun action seen c out d _ sound stepped => sound.step (step_cases stepped))
    (guarded_of_forall (fun _ _ _ => trivial) .start) (sound_start cpu) ran
  rwa [List.nil_append] at kept

end Pich.ForEachBackend
