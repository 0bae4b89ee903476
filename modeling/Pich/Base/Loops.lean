namespace Loops

/-- A loop that writes entry `i + off` in pass `i`, computed from the entries below it, leaves in every entry
below the end its intended value. -/
theorem getElem_fold_set {α : Type} {size : Nat} (off n : Nat) (room : n + off ≤ size)
    (value : (i : Nat) → i < n → Vector α size → α) (target : Nat → α) (start : Vector α size)
    (before : ∀ t (_ : t < off), start[t] = target t)
    (step : ∀ i (within : i < n) (w : Vector α size), (∀ t (_ : t < i + off), w[t] = target t) →
      value i within w = target (i + off)) :
    ∀ t (_ : t < n + off),
      (Nat.fold n (fun i within w => w.set (i + off) (value i within w)) start)[t] = target t := by
  induction n with
  | zero => exact fun t below => by simpa using before t (by omega)
  | succ n ih =>
    have reached := ih (by omega) (fun i within => value i (by omega)) before fun i within => step i (by omega)
    intro t below
    simp only [Nat.fold_succ]
    rw [Vector.getElem_set]
    split
    · rename_i last
      rw [step n (by omega) _ fun t below => reached t below, last]
    · exact reached t (by omega)

theorem fold_pair {α β : Type} {n : Nat} (f : (i : Nat) → i < n → α → α)
    (g : (i : Nat) → i < n → β → β) (a : α) (b : β) :
    Nat.fold n (fun i within (x, y) => (f i within x, g i within y)) (a, b) = (Nat.fold n f a, Nat.fold n g b) := by
  induction n with
  | zero => rfl
  | succ n ih =>
    have earlier := ih (fun i within => f i (by omega)) fun i within => g i (by omega)
    simp only [Nat.fold_succ]
    rw [earlier]

end Loops
