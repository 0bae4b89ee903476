import Pich.Base.Intel

namespace Intel
open Lanes

/-- A register from its four words, the most significant first. -/
def dwords (d3 d2 d1 d0 : BitVec 32) : BitVec 128 := d3 ++ d2 ++ d1 ++ d0

def setEpi64x (hi lo : BitVec 64) : BitVec 128 := hi ++ lo

/-- A load of sixteen bytes that lie within the array. -/
def loadBytes {n : Nat} (bytes : Vector (BitVec 8) n) (off : Nat) (_ : off + 16 ≤ n) : BitVec 128 :=
  Bytes.fromLeBytes 128 (bytes.toList.drop off)

def loadDwords {n : Nat} (words : Vector (BitVec 32) n) (off : Nat) (_ : off + 4 ≤ n) : BitVec 128 :=
  dwords words[off + 3] words[off + 2] words[off + 1] words[off]

def storeDwords {n : Nat} (words : Vector (BitVec 32) n) (off : Nat) (x : BitVec 128) (_ : off + 4 ≤ n) :
    Vector (BitVec 32) n :=
  let words := words.set off (lane 32 x 0)
  let words := words.set (off + 1) (lane 32 x 1)
  let words := words.set (off + 2) (lane 32 x 2)
  words.set (off + 3) (lane 32 x 3)

/-- One round with the constant already added to the schedule word, summed in the order of the manual. -/
def shaRound (wk : BitVec 32) (v : Sha2.Words) : Sha2.Words :=
  let sum := Sha2.ch v.e v.f v.g + Sha2.bigSigma1 v.e + wk + v.h
  { a := sum + Sha2.maj v.a v.b v.c + Sha2.bigSigma0 v.a, b := v.a, c := v.b, d := v.c,
    e := sum + v.d, f := v.e, g := v.f, h := v.g }

/-- `sha256rnds2`: two rounds. The destination holds `C D G H`, the source `A B E F`, and the result is
the new `A B E F`. -/
def sha256rnds2 (dest src wk : BitVec 128) : BitVec 128 :=
  let v : Sha2.Words :=
    { a := lane 32 src 3, b := lane 32 src 2, e := lane 32 src 1, f := lane 32 src 0,
      c := lane 32 dest 3, d := lane 32 dest 2, g := lane 32 dest 1, h := lane 32 dest 0 }
  let v := shaRound (lane 32 wk 0) v
  let v := shaRound (lane 32 wk 1) v
  dwords v.a v.b v.e v.f

/-- `sha256msg1`: the sums with sigma 0 of the word behind, the last of which is in the source operand. -/
def sha256msg1 (dest src : BitVec 128) : BitVec 128 :=
  let w4 := lane 32 src 0
  dwords (lane 32 dest 3 + Sha2.sigma0 w4) (lane 32 dest 2 + Sha2.sigma0 (lane 32 dest 3))
    (lane 32 dest 1 + Sha2.sigma0 (lane 32 dest 2)) (lane 32 dest 0 + Sha2.sigma0 (lane 32 dest 1))

/-- `sha256msg2`: the upper two words depend on the lower two of the result. -/
def sha256msg2 (dest src : BitVec 128) : BitVec 128 :=
  let w14 := lane 32 src 2
  let w15 := lane 32 src 3
  let w16 := lane 32 dest 0 + Sha2.sigma1 w14
  let w17 := lane 32 dest 1 + Sha2.sigma1 w15
  let w18 := lane 32 dest 2 + Sha2.sigma1 w16
  let w19 := lane 32 dest 3 + Sha2.sigma1 w17
  dwords w19 w18 w17 w16

section Dwords
variable (d3 d2 d1 d0 : BitVec 32)

@[simp] theorem lane_dwords_zero : lane 32 (dwords d3 d2 d1 d0) 0 = d0 := by
  rw [dwords, lane_append_low _ d0 (by omega), lane_self]

@[simp] theorem lane_dwords_one : lane 32 (dwords d3 d2 d1 d0) 1 = d1 := by
  rw [dwords, lane_append_high (r := 1) (by omega) _ d0 0, lane_append_low _ d1 (by omega), lane_self]

@[simp] theorem lane_dwords_two : lane 32 (dwords d3 d2 d1 d0) 2 = d2 := by
  rw [dwords, lane_append_high (r := 1) (by omega) _ d0 1, lane_append_high (r := 1) (by omega) _ d1 0,
    lane_append_low _ d2 (by omega), lane_self]

@[simp] theorem lane_dwords_three : lane 32 (dwords d3 d2 d1 d0) 3 = d3 := by
  rw [dwords, lane_append_high (r := 1) (by omega) _ d0 2, lane_append_high (r := 1) (by omega) _ d1 1,
    lane_append_high (r := 1) (by omega) _ d2 0, lane_self]

end Dwords

/-- A register is known by its four words. -/
theorem eq_dwords {x : BitVec 128} {d3 d2 d1 d0 : BitVec 32} (three : lane 32 x 3 = d3) (two : lane 32 x 2 = d2)
    (one : lane 32 x 1 = d1) (zero : lane 32 x 0 = d0) : x = dwords d3 d2 d1 d0 := by
  refine eq_of_lanes 32 4 (by omega) fun i within => ?_
  match i, within with
  | 0, _ => rw [zero, lane_dwords_zero]
  | 1, _ => rw [one, lane_dwords_one]
  | 2, _ => rw [two, lane_dwords_two]
  | 3, _ => rw [three, lane_dwords_three]

theorem ofLanes_four (f : Nat → BitVec 32) : ofLanes 128 f 4 = dwords (f 3) (f 2) (f 1) (f 0) :=
  eq_dwords (lane_ofLanes f (by omega) (by omega)) (lane_ofLanes f (by omega) (by omega))
    (lane_ofLanes f (by omega) (by omega)) (lane_ofLanes f (by omega) (by omega))

section Moves
variable (a3 a2 a1 a0 b3 b2 b1 b0 : BitVec 32)

/-- Addition goes word by word. -/
@[simp] theorem paddd_dwords :
    paddd (dwords a3 a2 a1 a0) (dwords b3 b2 b1 b0) = dwords (a3 + b3) (a2 + b2) (a1 + b1) (a0 + b0) := by
  rw [paddd, zipLanes, ofLanes_four]
  simp only [lane_dwords_zero, lane_dwords_one, lane_dwords_two, lane_dwords_three]

@[simp] theorem pshufd_0E : pshufd (dwords a3 a2 a1 a0) 0x0E = dwords a0 a0 a3 a2 := by
  rw [pshufd, ofLanes_four]
  simp

/-- The immediate that reverses the four words. -/
@[simp] theorem pshufd_1B : pshufd (dwords a3 a2 a1 a0) 0x1B = dwords a0 a1 a2 a3 := by
  rw [pshufd, ofLanes_four]
  simp

@[simp] theorem pshufd_B1 : pshufd (dwords a3 a2 a1 a0) 0xB1 = dwords a2 a3 a0 a1 := by
  rw [pshufd, ofLanes_four]
  simp

/-- A byte shift by whole words moves the words of the pair. -/
theorem lane_palignr (a b : BitVec 128) {r i : Nat} (within : i < 4) :
    lane 32 (palignr a b (4 * r)) i = lane 32 (a ++ b) (r + i) := by
  rw [palignr, lane_setWidth _ (by omega), show 8 * (4 * r) = 32 * r by omega, lane_ushiftRight]

@[simp] theorem palignr_four : palignr (dwords a3 a2 a1 a0) (dwords b3 b2 b1 b0) 4 = dwords a0 b3 b2 b1 := by
  refine eq_dwords ?_ ?_ ?_ ?_
  · rw [lane_palignr (r := 1) _ _ (by omega), lane_append_high (r := 4) (by omega) _ _ 0, lane_dwords_zero]
  · rw [lane_palignr (r := 1) _ _ (by omega), lane_append_low _ _ (by omega), lane_dwords_three]
  · rw [lane_palignr (r := 1) _ _ (by omega), lane_append_low _ _ (by omega), lane_dwords_two]
  · rw [lane_palignr (r := 1) _ _ (by omega), lane_append_low _ _ (by omega), lane_dwords_one]

@[simp] theorem palignr_eight : palignr (dwords a3 a2 a1 a0) (dwords b3 b2 b1 b0) 8 = dwords a1 a0 b3 b2 := by
  refine eq_dwords ?_ ?_ ?_ ?_
  · rw [lane_palignr (r := 2) _ _ (by omega), lane_append_high (r := 4) (by omega) _ _ 1, lane_dwords_one]
  · rw [lane_palignr (r := 2) _ _ (by omega), lane_append_high (r := 4) (by omega) _ _ 0, lane_dwords_zero]
  · rw [lane_palignr (r := 2) _ _ (by omega), lane_append_low _ _ (by omega), lane_dwords_three]
  · rw [lane_palignr (r := 2) _ _ (by omega), lane_append_low _ _ (by omega), lane_dwords_two]

/-- The mask of the upper four half-words takes the upper two words from the second operand. -/
@[simp] theorem pblendw_F0 : pblendw (dwords a3 a2 a1 a0) (dwords b3 b2 b1 b0) 0xF0 = dwords b3 b2 a1 a0 := by
  have halves : ∀ (x y : BitVec 128) (q : Nat), lane 32 x q = lane 32 y q → ∀ r, r < 2 →
      lane 16 x (2 * q + r) = lane 16 y (2 * q + r) := fun x y q same r within => by
    rw [← lane_lane (w := 32) (r := 2) (by omega) x q within, same, lane_lane (by omega) y q within]
  refine eq_of_lanes 16 8 (by omega) fun i within => ?_
  rw [pblendw, lane_ofLanes _ within (by omega)]
  match i, within with
  | 0, _ => exact halves _ _ 0 (by simp) 0 (by omega)
  | 1, _ => exact halves _ _ 0 (by simp) 1 (by omega)
  | 2, _ => exact halves _ _ 1 (by simp) 0 (by omega)
  | 3, _ => exact halves _ _ 1 (by simp) 1 (by omega)
  | 4, _ => exact halves _ _ 2 (by simp) 0 (by omega)
  | 5, _ => exact halves _ _ 2 (by simp) 1 (by omega)
  | 6, _ => exact halves _ _ 3 (by simp) 0 (by omega)
  | 7, _ => exact halves _ _ 3 (by simp) 1 (by omega)

end Moves

/-- The manual's sum is that of the standard in another order. -/
theorem shaRound_eq (k w : BitVec 32) (v : Sha2.Words) : shaRound (w + k) v = Sha2.oneRound k w v := by
  simp only [shaRound, Sha2.oneRound, Sha2.Words.mk.injEq, and_true, true_and]
  constructor <;> ac_rfl

end Intel
