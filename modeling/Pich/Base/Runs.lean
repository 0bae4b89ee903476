namespace Runs

section
variable {ω σ β : Type}

/-- A sequence of operations that each may fail, with everything they emit. -/
def run (apply : ω → σ → Option (List β × σ)) : List ω → σ → Option (List β × σ)
  | [], s => some ([], s)
  | op :: ops, s => do
    let (out, s) ← apply op s
    let (later, s) ← run apply ops s
    some (out ++ later, s)

variable {apply : ω → σ → Option (List β × σ)}

theorem run_cons {op : ω} {ops : List ω} {s t u : σ} {out later : List β} (first : apply op s = some (out, t))
    (rest : run apply ops t = some (later, u)) : run apply (op :: ops) s = some (out ++ later, u) := by
  simp only [run, first, rest, Option.bind_eq_bind, Option.bind_some]

theorem run_single {op : ω} {s t : σ} {out : List β} (first : apply op s = some (out, t)) :
    run apply [op] s = some (out, t) := by
  simp only [run, first, Option.bind_eq_bind, Option.bind_some, List.append_nil]

theorem run_append {ops more : List ω} {s t u : σ} {out later : List β} (first : run apply ops s = some (out, t))
    (rest : run apply more t = some (later, u)) : run apply (ops ++ more) s = some (out ++ later, u) := by
  induction ops generalizing s out with
  | nil =>
    obtain ⟨rfl, rfl⟩ := Prod.mk.inj (Option.some.inj first)
    exact rest
  | cons op ops ih =>
    simp only [run, Option.bind_eq_bind, Option.bind_eq_some_iff, Prod.exists, Option.some.injEq,
      Prod.mk.injEq] at first
    obtain ⟨out₁, mid, atOp, out₂, last, atOps, rfl, rfl⟩ := first
    rw [List.append_assoc]
    exact run_cons atOp (ih atOps)

/-- Operations that succeed and keep an invariant make runs that succeed and keep it. -/
theorem run_total (invariant : σ → Prop)
    (step : ∀ op s, invariant s → ∃ out t, apply op s = some (out, t) ∧ invariant t) (ops : List ω) {s : σ}
    (start : invariant s) : ∃ out t, run apply ops s = some (out, t) ∧ invariant t := by
  induction ops generalizing s with
  | nil => exact ⟨[], s, rfl, start⟩
  | cons op ops ih =>
    obtain ⟨out, t, first, kept⟩ := step op s start
    obtain ⟨later, u, rest, last⟩ := ih kept
    exact ⟨out ++ later, u, run_cons first rest, last⟩

/-- Every operation of the run meets the guard in the state it starts from. -/
def Guarded (apply : ω → σ → Option (List β × σ)) (guard : ω → σ → Prop) : List ω → σ → Prop
  | [], _ => True
  | op :: ops, s => guard op s ∧ ∀ out t, apply op s = some (out, t) → Guarded apply guard ops t

theorem guarded_of_forall {guard : ω → σ → Prop} {ops : List ω} (all : ∀ op ∈ ops, ∀ s, guard op s) (s : σ) :
    Guarded apply guard ops s := by
  induction ops generalizing s with
  | nil => trivial
  | cons op ops ih =>
    exact ⟨all op List.mem_cons_self s, fun _ t _ => ih (fun op among => all op (List.mem_cons_of_mem _ among)) t⟩

theorem Guarded.and {guard guard' : ω → σ → Prop} {ops : List ω} {s : σ} (guarded : Guarded apply guard ops s)
    (guarded' : Guarded apply guard' ops s) : Guarded apply (fun op s => guard op s ∧ guard' op s) ops s := by
  induction ops generalizing s with
  | nil => trivial
  | cons op ops ih =>
    exact ⟨⟨guarded.1, guarded'.1⟩, fun out t first => ih (guarded.2 out t first) (guarded'.2 out t first)⟩

theorem Guarded.front {guard : ω → σ → Prop} {ops more : List ω} {s : σ}
    (guarded : Guarded apply guard (ops ++ more) s) : Guarded apply guard ops s := by
  induction ops generalizing s with
  | nil => trivial
  | cons op ops ih => exact ⟨guarded.1, fun out t first => ih (guarded.2 out t first)⟩

/-- The guard of a run is one of what is left of it. -/
theorem Guarded.rest {guard : ω → σ → Prop} {ops more : List ω} {s t : σ} {out : List β}
    (guarded : Guarded apply guard (ops ++ more) s) (ran : run apply ops s = some (out, t)) :
    Guarded apply guard more t := by
  induction ops generalizing s out with
  | nil =>
    obtain ⟨_, rfl⟩ := Prod.mk.inj (Option.some.inj ran)
    exact guarded
  | cons op ops ih =>
    simp only [run, Option.bind_eq_bind, Option.bind_eq_some_iff, Prod.exists, Option.some.injEq, Prod.mk.injEq] at ran
    obtain ⟨now, mid, first, later, last, rest, _, rfl⟩ := ran
    exact ih (guarded.2 now mid first) rest

/-- What each guarded operation keeps of the state and of all that was emitted so far, the run keeps. -/
theorem run_trace (guard : ω → σ → Prop) (kept : List β → σ → Prop)
    (step : ∀ op seen s out t, guard op s → kept seen s → apply op s = some (out, t) → kept (seen ++ out) t)
    {ops : List ω} {seen out : List β} {s t : σ} (guarded : Guarded apply guard ops s) (start : kept seen s)
    (ran : run apply ops s = some (out, t)) : kept (seen ++ out) t := by
  induction ops generalizing seen out s with
  | nil =>
    obtain ⟨rfl, rfl⟩ := Prod.mk.inj (Option.some.inj ran)
    rwa [List.append_nil]
  | cons op ops ih =>
    simp only [run, Option.bind_eq_bind, Option.bind_eq_some_iff, Prod.exists, Option.some.injEq, Prod.mk.injEq] at ran
    obtain ⟨now, mid, first, later, last, rest, rfl, rfl⟩ := ran
    rw [← List.append_assoc]
    exact ih (guarded.2 now mid first) (step op seen s now mid guarded.1 start first) rest

/-- What each guarded operation keeps of the state, the run keeps. -/
theorem run_keeps (guard : ω → σ → Prop) (invariant : σ → Prop)
    (step : ∀ op s out t, guard op s → invariant s → apply op s = some (out, t) → invariant t) {ops : List ω}
    {out : List β} {s t : σ} (guarded : Guarded apply guard ops s) (start : invariant s)
    (ran : run apply ops s = some (out, t)) : invariant t :=
  @run_trace _ _ _ apply guard (fun _ => invariant) (fun op _ => step op) ops [] out s t guarded start ran

/-- An invariant of the states, with what holds of everything emitted under it. -/
theorem run_emits (allowed : ω → Prop) {invariant : σ → Prop} {good : β → Prop}
    (step : ∀ op s out t, allowed op → invariant s → apply op s = some (out, t) → invariant t ∧ ∀ b ∈ out, good b)
    {ops : List ω} {out : List β} {s t : σ} (all : ∀ op ∈ ops, allowed op) (start : invariant s)
    (ran : run apply ops s = some (out, t)) : invariant t ∧ ∀ b ∈ out, good b := by
  have empty : invariant s ∧ ∀ b ∈ ([] : List β), good b := ⟨start, fun b none => nomatch none⟩
  refine run_trace (fun op _ => allowed op) (fun seen s => invariant s ∧ ∀ b ∈ seen, good b)
    (fun op seen s out t permitted kept applied => ?_) (guarded_of_forall (fun op among _ => all op among) s) empty ran
  obtain ⟨next, emitted⟩ := step op s out t permitted kept.1 applied
  exact ⟨next, fun b among => (List.mem_append.mp among).elim (kept.2 b) (emitted b)⟩

/-- Operations that run on the image of a state as others run on the state. -/
theorem run_image {ω' τ : Type} {apply' : ω' → τ → Option (List β × τ)} {spec : ω → ω'} {f : τ → σ}
    (simulates : ∀ op s, apply op (f s) = (apply' (spec op) s).map fun (out, s) => (out, f s)) (ops : List ω) (s : τ) :
    run apply ops (f s) = (run apply' (ops.map spec) s).map fun (out, s) => (out, f s) := by
  induction ops generalizing s with
  | nil => rfl
  | cons op ops ih =>
    rw [List.map_cons, run, run, simulates]
    cases apply' (spec op) s with
    | none => rfl
    | some first =>
      obtain ⟨out, t⟩ := first
      simp only [Option.map_some, Option.bind_eq_bind, Option.bind_some, ih]
      cases run apply' (ops.map spec) t <;> rfl

theorem run_map {f : ω → ω} (same : ∀ op s, apply (f op) s = apply op s) (ops : List ω) (s : σ) :
    run apply (ops.map f) s = run apply ops s := by
  induction ops generalizing s with
  | nil => rfl
  | cons op ops ih => simp only [List.map_cons, run, same, ih]

end

end Runs
