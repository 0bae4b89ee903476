namespace Chunks
variable {α β : Type}

/-- `chunks_exact_mut` and its remainder: `body` rewrites every whole chunk of `n`, `tail` what is left over.
Positivity of the chunk size, which holds at every size in use, only serves termination. -/
def chunksExactMut (n : Nat) (body tail : List α → Option (List α)) (xs : List α) : Option (List α) :=
  if _ : 0 < n ∧ n ≤ xs.length then do
    let chunk ← body (xs.take n)
    let rest ← chunksExactMut n body tail (xs.drop n)
    some (chunk ++ rest)
  else tail xs
termination_by xs.length

/-- A map done chunk by chunk is the map. -/
theorem chunksExactMut_map {n : Nat} {body tail : List α → Option (List α)} {f : α → α} (positive : 0 < n)
    (whole : ∀ chunk, chunk.length = n → body chunk = some (chunk.map f))
    (rest : ∀ xs, xs.length < n → tail xs = some (xs.map f)) (xs : List α) :
    chunksExactMut n body tail xs = some (xs.map f) := by
  fun_induction chunksExactMut n body tail xs with
  | case1 xs room ih =>
    have size : (xs.take n).length = n := by
      rw [List.length_take]
      omega
    simp only [whole _ size, ih, Option.bind_eq_bind, Option.bind_some]
    rw [← List.map_append, List.take_append_drop]
  | case2 xs done => exact rest xs (by omega)

/-- Pieces of one length, joined, are cut apart where they were joined. -/
theorem drop_flatMap {f : α → List β} {n : Nat} (size : ∀ a, (f a).length = n) (xs : List α) (i : Nat) :
    (xs.flatMap f).drop (n * i) = (xs.drop i).flatMap f := by
  induction xs generalizing i with
  | nil => simp only [List.flatMap_nil, List.drop_nil]
  | cons x xs ih =>
    cases i with
    | zero => rfl
    | succ i =>
      rw [List.flatMap_cons, List.drop_succ_cons, ← ih i, Nat.mul_succ, Nat.add_comm, List.drop_append,
        List.drop_of_length_le (by rw [size]; omega), List.nil_append, size, Nat.add_sub_cancel_left]

theorem piece_flatMap {f : α → List β} {n : Nat} (size : ∀ a, (f a).length = n) {xs : List α} {i : Nat}
    (within : i < xs.length) : (xs.flatMap f).extract (n * i) (n * i + n) = f xs[i] := by
  rw [List.extract_eq_take_drop, drop_flatMap size, List.drop_eq_getElem_cons within, List.flatMap_cons,
    Nat.add_sub_cancel_left, List.take_left' (size _)]

end Chunks
