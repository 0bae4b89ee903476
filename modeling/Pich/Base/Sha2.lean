namespace Sha2

def ch (x y z : BitVec 32) : BitVec 32 := (x &&& y) ^^^ (~~~x &&& z)

def maj (x y z : BitVec 32) : BitVec 32 := (x &&& y) ^^^ (x &&& z) ^^^ (y &&& z)

def bigSigma0 (x : BitVec 32) : BitVec 32 := x.rotateRight 2 ^^^ x.rotateRight 13 ^^^ x.rotateRight 22

def bigSigma1 (x : BitVec 32) : BitVec 32 := x.rotateRight 6 ^^^ x.rotateRight 11 ^^^ x.rotateRight 25

def sigma0 (x : BitVec 32) : BitVec 32 := x.rotateRight 7 ^^^ x.rotateRight 18 ^^^ (x >>> 3)

def sigma1 (x : BitVec 32) : BitVec 32 := x.rotateRight 17 ^^^ x.rotateRight 19 ^^^ (x >>> 10)

structure Words where
  a : BitVec 32
  b : BitVec 32
  c : BitVec 32
  d : BitVec 32
  e : BitVec 32
  f : BitVec 32
  g : BitVec 32
  h : BitVec 32
  deriving DecidableEq

def Words.add (x y : Words) : Words :=
  ⟨x.a + y.a, x.b + y.b, x.c + y.c, x.d + y.d, x.e + y.e, x.f + y.f, x.g + y.g, x.h + y.h⟩

/-- One round with its constant and its word of the schedule. -/
def oneRound (k w : BitVec 32) (v : Words) : Words :=
  let t1 := v.h + bigSigma1 v.e + ch v.e v.f v.g + k + w
  let t2 := bigSigma0 v.a + maj v.a v.b v.c
  { a := t1 + t2, b := v.a, c := v.b, d := v.c, e := v.d + t1, f := v.e, g := v.f, h := v.g }

/-- The message schedule as the recurrence it is, over all numbers. -/
def schedule (block : Nat → BitVec 32) (t : Nat) : BitVec 32 :=
  if t < 16 then block t
  else sigma1 (schedule block (t - 2)) + schedule block (t - 7) + sigma0 (schedule block (t - 15)) +
    schedule block (t - 16)
termination_by t

/-- The first `t` rounds, over any constants and any words. -/
def rounds (k w : Nat → BitVec 32) : Nat → Words → Words
  | 0, v => v
  | t + 1, v => oneRound (k t) (w t) (rounds k w t v)

/-- The compression of one block, whose words are `block 0` to `block 15`. -/
def compress (k block : Nat → BitVec 32) (v : Words) : Words := v.add (rounds k (schedule block) 64 v)

theorem schedule_of_lt {block : Nat → BitVec 32} {t : Nat} (first : t < 16) : schedule block t = block t := by
  rw [schedule, if_pos first]

/-- The recurrence with no subtraction in it. -/
theorem schedule_add_sixteen (block : Nat → BitVec 32) (t : Nat) :
    schedule block (t + 16) = sigma1 (schedule block (t + 14)) + schedule block (t + 9) +
      sigma0 (schedule block (t + 1)) + schedule block t := by
  rw [schedule, if_neg (by omega)]
  rfl

/-- Only the first sixteen words of the block are ever read. -/
theorem schedule_congr {block block' : Nat → BitVec 32} (same : ∀ t, t < 16 → block t = block' t) (t : Nat) :
    schedule block t = schedule block' t := by
  induction t using Nat.strongRecOn with
  | ind t ih =>
    by_cases first : t < 16
    · rw [schedule_of_lt first, schedule_of_lt first, same t first]
    · obtain ⟨t, rfl⟩ := Nat.exists_eq_add_of_le' (Nat.le_of_not_lt first)
      simp only [schedule_add_sixteen]
      rw [ih (t + 14) (by omega), ih (t + 9) (by omega), ih (t + 1) (by omega), ih t (by omega)]

theorem rounds_congr {k k' w w' : Nat → BitVec 32} {t : Nat} (v : Words)
    (constants : ∀ i, i < t → k i = k' i) (words : ∀ i, i < t → w i = w' i) :
    rounds k w t v = rounds k' w' t v := by
  induction t with
  | zero => rfl
  | succ t ih =>
    rw [rounds, rounds, constants t (by omega), words t (by omega),
      ih (fun i bound => constants i (by omega)) fun i bound => words i (by omega)]

/-- Sixty-four constants and sixteen words determine the compression. -/
theorem compress_congr {k k' block block' : Nat → BitVec 32} (v : Words)
    (constants : ∀ i, i < 64 → k i = k' i) (words : ∀ t, t < 16 → block t = block' t) :
    compress k block v = compress k' block' v := by
  rw [compress, compress, rounds_congr v constants fun i _ => schedule_congr words i]

end Sha2
