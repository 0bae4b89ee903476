namespace Generator

/-- Keys that are used in turn, at least one of them. -/
structure KeyRing (κ : Type) where
  keys : List κ
  nonempty : 0 < keys.length

namespace KeyRing
variable {κ : Type} (ring : KeyRing κ)

theorem of_nonempty {keys : List κ} (nonempty : keys ≠ []) : ∃ ring : KeyRing κ, ring.keys = keys :=
  ⟨⟨keys, List.length_pos_iff.mpr nonempty⟩, rfl⟩

def key (i : Nat) : κ := ring.keys.get ⟨i % ring.keys.length, Nat.mod_lt i ring.nonempty⟩

/-- The next position on the ring, as a loop without a division computes it. -/
def advance (pos : Nat) : Nat := if pos + 1 = ring.keys.length then 0 else pos + 1

theorem getElem?_mod (i : Nat) : ring.keys[i % ring.keys.length]? = some (ring.key i) :=
  List.getElem?_eq_getElem (Nat.mod_lt i ring.nonempty)

/-- Positions kept so are the round numbers modulo the length. -/
theorem advance_mod (i : Nat) : ring.advance (i % ring.keys.length) = (i + 1) % ring.keys.length := by
  have small := Nat.mod_lt i ring.nonempty
  rw [advance, ← Nat.mod_add_mod]
  split
  · rename_i last
    rw [last, Nat.mod_self]
  · exact (Nat.mod_eq_of_lt (by omega)).symm

theorem key_congr {i j : Nat} (same : i % ring.keys.length = j % ring.keys.length) : ring.key i = ring.key j := by
  simp only [key, same]

end KeyRing

variable {σ κ β : Type}

/-- `n` rounds, the first of them numbered `i`; round `j` uses `key j`. -/
def rounds (step : σ → κ → σ) (key : Nat → κ) : Nat → Nat → σ → σ
  | _, 0, s => s
  | i, n + 1, s => rounds step key (i + 1) n (step s (key i))

/-- `n` outputs, each tapped after `cost` rounds. -/
def emit (step : σ → κ → σ) (tap : σ → β) (cost : Nat) (key : Nat → κ) : Nat → Nat → σ → List β
  | _, 0, _ => []
  | i, n + 1, s => tap (rounds step key i cost s) :: emit step tap cost key (i + cost) n (rounds step key i cost s)

section Laws
variable (step : σ → κ → σ) (tap : σ → β) (cost : Nat) (key : Nat → κ)

theorem rounds_add (i n m : Nat) (s : σ) :
    rounds step key i (n + m) s = rounds step key (i + n) m (rounds step key i n s) := by
  induction n generalizing i s with
  | zero => rw [Nat.zero_add, Nat.add_zero, rounds]
  | succ n ih =>
    rw [Nat.succ_add, rounds, ih, rounds]
    congr 1
    omega

@[simp] theorem emit_length (i n : Nat) (s : σ) : (emit step tap cost key i n s).length = n := by
  induction n generalizing i s with
  | zero => rfl
  | succ n ih => simp only [emit, List.length_cons, ih]

theorem emit_add (i n m : Nat) (s : σ) :
    emit step tap cost key i (n + m) s =
      emit step tap cost key i n s ++
        emit step tap cost key (i + cost * n) m (rounds step key i (cost * n) s) := by
  induction n generalizing i s with
  | zero => simp [emit, rounds]
  | succ n ih =>
    have count : cost * (n + 1) = cost + cost * n := by rw [Nat.mul_succ, Nat.add_comm]
    rw [Nat.succ_add, emit, ih, emit, List.cons_append, count, rounds_add, Nat.add_assoc]

/-- Output `j` is tapped after its own rounds and those of the outputs before it. -/
theorem emit_eq (i n : Nat) (s : σ) :
    emit step tap cost key i n s = (List.range n).map fun j => tap (rounds step key i (cost * (j + 1)) s) := by
  induction n with
  | zero => rfl
  | succ n ih =>
    rw [emit_add, ih, List.range_succ, List.map_append, List.map_singleton, Nat.mul_succ, rounds_add]
    rfl

variable {key}

theorem rounds_congr {key' : Nat → κ} {i i' : Nat} (same : ∀ j, key (i + j) = key' (i' + j)) (n : Nat) (s : σ) :
    rounds step key i n s = rounds step key' i' n s := by
  induction n generalizing i i' s with
  | zero => rfl
  | succ n ih =>
    have first : key i = key' i' := by simpa only [Nat.add_zero] using same 0
    rw [rounds, rounds, first]
    exact ih (fun j => by simpa only [Nat.add_assoc, Nat.add_comm 1] using same (j + 1)) _

theorem emit_congr {key' : Nat → κ} {i i' : Nat} (same : ∀ j, key (i + j) = key' (i' + j)) (n : Nat) (s : σ) :
    emit step tap cost key i n s = emit step tap cost key' i' n s := by
  induction n generalizing i i' s with
  | zero => rfl
  | succ n ih =>
    rw [emit, emit, rounds_congr step same]
    congr 1
    exact ih (fun j => by simpa only [Nat.add_assoc] using same (cost + j)) _

/-- Rounds that never merge two states do not do so in any number. -/
theorem rounds_injective (invertible : ∀ k, Function.Injective fun s => step s k) (i n : Nat) :
    Function.Injective (rounds step key i n) := by
  induction n generalizing i with
  | zero => exact fun _ _ same => same
  | succ n ih => exact fun _ _ same => invertible _ (ih (i + 1) same)

end Laws

/-- What a loop that keeps a position passes through: its state and position after `i` rounds. -/
inductive Reach (round : σ → Nat → Option (σ × Nat)) (s : σ) (pos : Nat) : Nat → σ → Nat → Prop
  | start : Reach round s pos 0 s pos
  | next {i t t' q q'} (reach : Reach round s pos i t q) (ran : round t q = some (t', q')) :
      Reach round s pos (i + 1) t' q'

namespace Reach
variable {τ : Type} {round : σ → Nat → Option (σ × Nat)} {round' : τ → Nat → Option (τ × Nat)} {s t : σ}
  {pos i q : Nat}

/-- A loop whose every round is the image of a round of another passes through the images. -/
theorem image {f : σ → τ} (simulates : ∀ t q, round' (f t) q = (round t q).map fun (t, q) => (f t, q))
    (reach : Reach round s pos i t q) : Reach round' (f s) pos i (f t) q := by
  induction reach with
  | start => exact .start
  | @next _ t _ q _ _ ran ih => exact .next ih (by rw [simulates, ran, Option.map_some])

theorem preimage {f : σ → τ} (simulates : ∀ t q, round' (f t) q = (round t q).map fun (t, q) => (f t, q))
    {u : τ} (reach : Reach round' (f s) pos i u q) : ∃ t, u = f t ∧ Reach round s pos i t q := by
  induction reach with
  | start => exact ⟨s, rfl, .start⟩
  | next _ ran ih =>
    obtain ⟨t, rfl, before⟩ := ih
    rw [simulates, Option.map_eq_some_iff] at ran
    obtain ⟨⟨next, last⟩, ran, same⟩ := ran
    obtain ⟨rfl, rfl⟩ := Prod.mk.inj same
    exact ⟨next, rfl, .next before ran⟩

end Reach

end Generator
