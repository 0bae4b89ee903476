import Pich.Base.Generator

/-! Light cones: how far a part of the state is seen from when every step looks one part ahead. -/

namespace Generator

section Locality
variable {σ κ β γ : Type}

/-- Part `j` of the next state comes from the parts `j` and `j + 1` of the state and part `j` of the key. -/
def Local (look : σ → Nat → β) (lookKey : κ → Nat → γ) (step : σ → κ → σ) : Prop :=
  ∀ s s' k k' j, look s j = look s' j → look s (j + 1) = look s' (j + 1) → lookKey k j = lookKey k' j →
    look (step s k) j = look (step s' k') j

variable {look : σ → Nat → β} {lookKey : κ → Nat → γ} {step : σ → κ → σ}

/-- After `n` rounds part `j` has seen the parts up to `j + n` of the state, and of each key the parts that the rounds
after it could still carry to `j`. -/
theorem Local.rounds (near : Local look lookKey step) {key key' : Nat → κ} {n i i' j : Nat} {s s' : σ}
    (states : ∀ m ≤ n, look s (j + m) = look s' (j + m))
    (keys : ∀ t m, t + m < n → lookKey (key (i + t)) (j + m) = lookKey (key' (i' + t)) (j + m)) :
    look (rounds step key i n s) j = look (rounds step key' i' n s') j := by
  induction n generalizing i i' s s' with
  | zero => exact states 0 (Nat.le_refl 0)
  | succ n ih =>
    refine ih (fun m within => ?_) fun t m within => ?_
    · exact near s s' _ _ _ (states m (by omega)) (states (m + 1) (by omega)) (keys 0 m (by omega))
    · have later := keys (t + 1) m (by omega)
      rwa [Nat.add_comm t 1, ← Nat.add_assoc, ← Nat.add_assoc] at later

end Locality

end Generator
