namespace Lanes

/-- Lane `i` of width `w`, counted from the least significant end. -/
def lane {m : Nat} (w : Nat) (x : BitVec m) (i : Nat) : BitVec w := x.extractLsb' (w * i) w

/-- The `m`-bit register whose first `n` lanes are `f 0, f 1, ...`; the rest is zero. -/
def ofLanes {w : Nat} (m : Nat) (f : Nat → BitVec w) : Nat → BitVec m
  | 0 => 0
  | n + 1 => ofLanes m f n ||| ((f n).setWidth m <<< (w * n))

theorem getLsbD_lane {m w : Nat} (x : BitVec m) (i j : Nat) :
    (lane w x i).getLsbD j = (decide (j < w) && x.getLsbD (w * i + j)) := by
  simp [lane, BitVec.getLsbD_extractLsb']

/-- Bit by bit, which lane a bit of the register comes from. -/
theorem getLsbD_ofLanes {w : Nat} (m : Nat) (f : Nat → BitVec w) (n k : Nat) :
    (ofLanes m f n).getLsbD k =
      (decide (k < m) && decide (k < w * n) && (f (k / w)).getLsbD (k % w)) := by
  induction n with
  | zero => simp [ofLanes]
  | succ n ih =>
    have expanded : w * (n + 1) = w * n + w := Nat.mul_succ w n
    simp only [ofLanes, BitVec.getLsbD_or, ih, BitVec.getLsbD_shiftLeft, BitVec.getLsbD_setWidth]
    by_cases inside : k < m
    · by_cases old : k < w * n
      · have bound : k < w * (n + 1) := by omega
        simp [inside, old, bound]
      · by_cases new : k < w * (n + 1)
        · have quotient : k / w = n :=
            Nat.div_eq_of_lt_le (by rw [Nat.mul_comm]; omega) (by rw [Nat.mul_comm]; omega)
          have remainder : k % w = k - w * n := by
            rw [Nat.mod_eq_sub_mul_div, quotient]
          have small : k - w * n < m := by omega
          simp [inside, old, new, quotient, remainder, small]
        · have above : w ≤ k - w * n := by omega
          simp [inside, old, new, BitVec.getLsbD_of_ge _ _ above]
    · simp [inside]

/-- A lane that lies whole within the register is read back as it was put in. -/
theorem lane_ofLanes {m w n i : Nat} (f : Nat → BitVec w) (within : i < n) (room : w * (i + 1) ≤ m) :
    lane w (ofLanes m f n) i = f i := by
  apply BitVec.eq_of_getLsbD_eq
  intro j hj
  have expanded : w * (i + 1) = w * i + w := Nat.mul_succ w i
  have reach : w * (i + 1) ≤ w * n := Nat.mul_le_mul_left w within
  have quotient : (w * i + j) / w = i := by
    rw [Nat.mul_add_div (by omega), Nat.div_eq_of_lt hj, Nat.add_zero]
  have remainder : (w * i + j) % w = j := by
    rw [Nat.mul_add_mod, Nat.mod_eq_of_lt hj]
  have inside : w * i + j < m := by omega
  have bound : w * i + j < w * n := by omega
  simp only [getLsbD_lane, getLsbD_ofLanes, hj, quotient, remainder, inside, bound, decide_true, Bool.true_and]

/-- Registers that agree on enough lanes to cover them are equal. -/
theorem eq_of_lanes {m : Nat} (w : Nat) {x y : BitVec m} (n : Nat) (covers : m ≤ w * n)
    (same : ∀ i, i < n → lane w x i = lane w y i) : x = y := by
  apply BitVec.eq_of_getLsbD_eq
  intro k hk
  have positive : 0 < w := by
    rcases Nat.eq_zero_or_pos w with rfl | positive
    · omega
    · exact positive
  have within : k / w < n := Nat.div_lt_of_lt_mul (by omega)
  have at_k := congrArg (fun v => v.getLsbD (k % w)) (same (k / w) within)
  simpa only [getLsbD_lane, Nat.mod_lt k positive, Nat.div_add_mod, decide_true, Bool.true_and] using at_k

theorem getLsbD_eq_lane {m w : Nat} (positive : 0 < w) (x : BitVec m) (k : Nat) :
    x.getLsbD k = (lane w x (k / w)).getLsbD (k % w) := by
  simp only [getLsbD_lane, Nat.mod_lt k positive, Nat.div_add_mod, decide_true, Bool.true_and]

@[simp] theorem lane_xor {m w : Nat} (x y : BitVec m) (i : Nat) :
    lane w (x ^^^ y) i = lane w x i ^^^ lane w y i := by
  apply BitVec.eq_of_getLsbD_eq
  intro j hj
  simp only [getLsbD_lane, BitVec.getLsbD_xor, hj, decide_true, Bool.true_and]

@[simp] theorem lane_or {m w : Nat} (x y : BitVec m) (i : Nat) :
    lane w (x ||| y) i = lane w x i ||| lane w y i := by
  apply BitVec.eq_of_getLsbD_eq
  intro j hj
  simp only [getLsbD_lane, BitVec.getLsbD_or, hj, decide_true, Bool.true_and]

/-- A narrow lane of a wide lane is a narrow lane of the register. -/
theorem lane_lane {m w v r : Nat} (split : w = v * r) (x : BitVec m) (i : Nat) {j : Nat} (within : j < r) :
    lane v (lane w x i) j = lane v x (r * i + j) := by
  apply BitVec.eq_of_getLsbD_eq
  intro k hk
  have room : v * j + k < w := by
    have reach : v * (j + 1) ≤ v * r := Nat.mul_le_mul_left v within
    rw [Nat.mul_succ] at reach
    omega
  have place : w * i + (v * j + k) = v * (r * i + j) + k := by
    rw [split, Nat.mul_add, Nat.mul_assoc, Nat.add_assoc]
  simp only [getLsbD_lane, hk, room, place, decide_true, Bool.true_and]

theorem lane_setWidth {m m' w i : Nat} (x : BitVec m) (room : w * (i + 1) ≤ m') :
    lane w (x.setWidth m') i = lane w x i := by
  apply BitVec.eq_of_getLsbD_eq
  intro j hj
  have inside : w * i + j < m' := by
    rw [Nat.mul_succ] at room
    omega
  simp only [getLsbD_lane, BitVec.getLsbD_setWidth, hj, inside, decide_true, Bool.true_and]

theorem lane_append_low {m m' w i : Nat} (high : BitVec m') (x : BitVec m) (room : w * (i + 1) ≤ m) :
    lane w (high ++ x) i = lane w x i := by
  apply BitVec.eq_of_getLsbD_eq
  intro j hj
  have inside : w * i + j < m := by
    rw [Nat.mul_succ] at room
    omega
  simp only [getLsbD_lane, BitVec.getLsbD_append, hj, inside, decide_true, Bool.true_and, if_true]

/-- Behind the `r` lanes of the low part come those of the high one. -/
theorem lane_append_high {m m' w r : Nat} (split : m = w * r) (high : BitVec m') (low : BitVec m) (j : Nat) :
    lane w (high ++ low) (r + j) = lane w high j := by
  apply BitVec.eq_of_getLsbD_eq
  intro k hk
  have expanded : w * (r + j) = m + w * j := by rw [Nat.mul_add, split]
  have above : ¬ w * (r + j) + k < m := by omega
  have place : w * (r + j) + k - m = w * j + k := by omega
  simp only [getLsbD_lane, BitVec.getLsbD_append, hk, above, place, decide_true, Bool.true_and, if_false]

theorem lane_ushiftRight {m w : Nat} (x : BitVec m) (r i : Nat) : lane w (x >>> (w * r)) i = lane w x (r + i) := by
  apply BitVec.eq_of_getLsbD_eq
  intro j hj
  have place : w * r + (w * i + j) = w * (r + i) + j := by rw [Nat.mul_add, Nat.add_assoc]
  simp only [getLsbD_lane, BitVec.getLsbD_ushiftRight, hj, place, decide_true, Bool.true_and]

theorem lane_self {m : Nat} (x : BitVec m) : lane m x 0 = x := by
  apply BitVec.eq_of_getLsbD_eq
  intro j hj
  simp only [getLsbD_lane, hj, decide_true, Bool.true_and, Nat.mul_zero, Nat.zero_add]

theorem lane_halves {m : Nat} (hi lo : BitVec m) {j : Nat} (half : j < 2) :
    lane m (hi ++ lo) j = if j = 0 then lo else hi := by
  have cases : j = 0 ∨ j = 1 := by omega
  rcases cases with rfl | rfl
  · rw [lane_append_low hi lo (Nat.le_of_eq (Nat.mul_one m)), lane_self, if_pos rfl]
  · rw [lane_append_high (r := 1) (Nat.mul_one m).symm hi lo 0, lane_self, if_neg (by omega)]

def mapLanes {m : Nat} (w : Nat) (f : BitVec w → BitVec w) (x : BitVec m) : BitVec m :=
  ofLanes m (fun i => f (lane w x i)) (m / w)

def zipLanes {m : Nat} (w : Nat) (f : BitVec w → BitVec w → BitVec w) (x y : BitVec m) : BitVec m :=
  ofLanes m (fun i => f (lane w x i) (lane w y i)) (m / w)

theorem lane_room {m w i : Nat} (within : i < m / w) : w * (i + 1) ≤ m :=
  Nat.le_trans (Nat.mul_le_mul_left w within) (Nat.mul_div_le m w)

theorem lane_mapLanes {m w i : Nat} (f : BitVec w → BitVec w) (x : BitVec m) (within : i < m / w) :
    lane w (mapLanes w f x) i = f (lane w x i) :=
  lane_ofLanes _ within (lane_room within)

theorem lane_zipLanes {m w i : Nat} (f : BitVec w → BitVec w → BitVec w) (x y : BitVec m)
    (within : i < m / w) : lane w (zipLanes w f x y) i = f (lane w x i) (lane w y i) :=
  lane_ofLanes _ within (lane_room within)

end Lanes
