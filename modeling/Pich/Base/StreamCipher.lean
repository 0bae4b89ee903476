import Pich.Base.Runs

/-! Synchronous stream ciphers: a key names an endless keystream, and an instance is a place in it. -/

namespace StreamCipher
open Runs

/-- An instance: its key, and how much of the keystream is used up. -/
structure Instance (κ : Type) where
  key : κ
  used : Nat

inductive Op (κ β : Type)
  | new (key : κ)
  | call (handle : Nat) (msg : List β)

section
variable {κ β : Type}

def keys : List (Op κ β) → List κ
  | [] => []
  | .new key :: ops => key :: keys ops
  | .call _ _ :: ops => keys ops

def sent (h : Nat) : List (Op κ β) → List (List β)
  | [] => []
  | .new _ :: ops => sent h ops
  | .call handle msg :: ops => if handle = h then msg :: sent h ops else sent h ops

/-- What the calls of one handle have returned, out of the outputs of all calls. -/
def received (h : Nat) : List (Op κ β) → List (List β) → List (List β)
  | .new _ :: ops, outs => received h ops outs
  | .call handle _ :: ops, out :: outs => if handle = h then out :: received h ops outs else received h ops outs
  | _, _ => []

variable (keystream : κ → Nat → β) (mix : β → β → β)

/-- The message folded into the keystream from a place on. -/
def folded (key : κ) (used : Nat) (msg : List β) : List β := msg.mapIdx fun i m => mix (keystream key (used + i)) m

def encrypt (cipher : Instance κ) (msg : List β) : List β × Instance κ :=
  (folded keystream mix cipher.key cipher.used msg, { cipher with used := cipher.used + msg.length })

/-- One operation; a call of an instance that is not there fails. -/
def apply : Op κ β → List (Instance κ) → Option (List (List β) × List (Instance κ))
  | .new key, ciphers => some ([], ciphers ++ [{ key, used := 0 }])
  | .call handle msg, ciphers => do
    let cipher ← ciphers[handle]?
    let (out, cipher) := encrypt keystream mix cipher msg
    some ([out], ciphers.set handle cipher)

theorem folded_append (key : κ) (used : Nat) (msg rest : List β) :
    folded keystream mix key used (msg ++ rest) =
      folded keystream mix key used msg ++ folded keystream mix key (used + msg.length) rest := by
  simp only [folded, List.mapIdx_append, Nat.add_assoc, Nat.add_comm msg.length]

theorem folded_folded (cancels : ∀ k m, mix k (mix k m) = m) (key : κ) (used : Nat) (msg : List β) :
    folded keystream mix key used (folded keystream mix key used msg) = msg := by
  refine List.ext_getElem (by simp only [folded, List.length_mapIdx]) fun i _ _ => ?_
  simp only [folded, List.getElem_mapIdx, cancels]

@[simp] theorem folded_length (key : κ) (used : Nat) (msg : List β) :
    (folded keystream mix key used msg).length = msg.length := List.length_mapIdx

/-- Whatever part of a ciphertext has arrived is turned into exactly as much of the message. -/
theorem folded_arrived (cancels : ∀ k m, mix k (mix k m) = m) {key : κ} {used : Nat} {msg arrived : List β}
    (part : arrived <+: folded keystream mix key used msg) :
    folded keystream mix key used arrived = msg.take arrived.length := by
  obtain ⟨rest, whole⟩ := part
  have opened : msg = folded keystream mix key used arrived ++
      folded keystream mix key (used + arrived.length) rest := by
    rw [← folded_append, whole, folded_folded keystream mix cancels]
  rw [opened, List.take_left' (folded_length keystream mix key used arrived)]

variable {keystream mix}

/-- The instances a program has at its end are those it began with and those it made, in order, and each has turned
what was sent to it, and nothing else, into what it returned. -/
theorem run_received {ops : List (Op κ β)} {ciphers last : List (Instance κ)} {outs : List (List β)}
    (ran : run (apply keystream mix) ops ciphers = some (outs, last)) {h : Nat} {cipher : Instance κ}
    (made : (ciphers ++ (keys ops).map fun key => ⟨key, 0⟩)[h]? = some cipher) :
    (received h ops outs).map List.length = (sent h ops).map List.length ∧
      (received h ops outs).flatten = folded keystream mix cipher.key cipher.used (sent h ops).flatten ∧
      last[h]? = some { cipher with used := cipher.used + (sent h ops).flatten.length } := by
  induction ops generalizing ciphers outs cipher with
  | nil =>
    obtain ⟨rfl, rfl⟩ := Prod.mk.inj (Option.some.inj ran)
    simp only [keys, List.map_nil, List.append_nil] at made
    exact ⟨rfl, rfl, made⟩
  | cons op ops ih =>
    simp only [run, Option.bind_eq_bind, Option.bind_eq_some_iff, Prod.exists, Option.some.injEq, Prod.mk.injEq] at ran
    obtain ⟨now, mid, first, later, last, rest, rfl, rfl⟩ := ran
    cases op with
    | new key =>
      obtain ⟨rfl, rfl⟩ := Prod.mk.inj (Option.some.inj first)
      simp only [keys, List.map_cons] at made
      exact ih rest (by rwa [List.append_assoc, List.singleton_append])
    | call handle msg =>
      simp only [apply, Option.bind_eq_bind, Option.bind_eq_some_iff, Option.some.injEq, Prod.mk.injEq] at first
      obtain ⟨called, found, rfl, rfl⟩ := first
      have within : handle < ciphers.length := (List.getElem?_eq_some_iff.mp found).1
      simp only [keys] at made
      simp only [List.cons_append, List.nil_append, received, sent]
      by_cases addressed : handle = h
      · subst addressed
        have same : cipher = called := by
          rw [List.getElem?_append_left within, found] at made
          exact (Option.some.inj made).symm
        subst same
        have next : ((ciphers.set handle (encrypt keystream mix cipher msg).2) ++
            (keys ops).map fun key => ⟨key, 0⟩)[handle]? = some (encrypt keystream mix cipher msg).2 := by
          rw [List.getElem?_append_left (by rwa [List.length_set]), List.getElem?_set_self within]
        obtain ⟨lengths, outputs, stands⟩ := ih rest next
        simp only [if_true, List.map_cons, List.flatten_cons, lengths, outputs, stands, folded_append,
          List.length_append, Nat.add_assoc, encrypt, folded_length]
        exact ⟨trivial, trivial, trivial⟩
      · have next : ((ciphers.set handle (encrypt keystream mix called msg).2) ++
            (keys ops).map fun key => ⟨key, 0⟩)[h]? = some cipher := by
          rw [← made, List.getElem?_append, List.getElem?_append, List.length_set, List.getElem?_set_ne addressed]
        simp only [addressed, if_false]
        exact ih rest next

end

end StreamCipher
