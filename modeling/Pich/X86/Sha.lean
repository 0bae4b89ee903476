import Pich.Base.IntelSha
import Pich.Sha256.Portable

namespace Pich.X86
open Lanes Intel Fallback Sha2

def BYTE_SWAP : BitVec 128 := setEpi64x 0x0c0d0e0f08090a0b 0x0405060700010203

/-- Rounds `4 * group ..` on the two state registers, with the four schedule words in `cur`. -/
def fourRounds (group : Nat) (room : 4 * group + 4 ≤ 64) (cur state0 state1 : BitVec 128) :
    BitVec 128 × BitVec 128 :=
  let k := loadDwords SHA256_K (4 * group) room
  let msg := paddd cur k
  let state1 := sha256rnds2 state1 state0 msg
  let msgHigh := pshufd msg 0x0E
  let state0 := sha256rnds2 state0 state1 msgHigh
  (state0, state1)

/-- The `sigma1` half of the schedule: the new value of `next`. -/
def scheduleMsg2 (cur next prev : BitVec 128) : BitVec 128 :=
  let carried := palignr cur prev 4
  let next := paddd next carried
  sha256msg2 next cur

/-- One chunk, written out: the four schedule registers take turns, one group of rounds behind another. -/
def sha256ChunkShani (state0 state1 : BitVec 128) (chunk : Vector U8 64) : BitVec 128 × BitVec 128 :=
  let abefSave := state0
  let cdghSave := state1
  let m0 := pshufb (loadBytes chunk 0 (by omega)) BYTE_SWAP
  let m1 := pshufb (loadBytes chunk 16 (by omega)) BYTE_SWAP
  let m2 := pshufb (loadBytes chunk 32 (by omega)) BYTE_SWAP
  let m3 := pshufb (loadBytes chunk 48 (by omega)) BYTE_SWAP
  let (state0, state1) := fourRounds 0 (by omega) m0 state0 state1
  let (state0, state1) := fourRounds 1 (by omega) m1 state0 state1
  let m0 := sha256msg1 m0 m1
  let (state0, state1) := fourRounds 2 (by omega) m2 state0 state1
  let m1 := sha256msg1 m1 m2
  let (state0, state1) := fourRounds 3 (by omega) m3 state0 state1
  let m0 := scheduleMsg2 m3 m0 m2
  let m2 := sha256msg1 m2 m3
  let (state0, state1) := fourRounds 4 (by omega) m0 state0 state1
  let m1 := scheduleMsg2 m0 m1 m3
  let m3 := sha256msg1 m3 m0
  let (state0, state1) := fourRounds 5 (by omega) m1 state0 state1
  let m2 := scheduleMsg2 m1 m2 m0
  let m0 := sha256msg1 m0 m1
  let (state0, state1) := fourRounds 6 (by omega) m2 state0 state1
  let m3 := scheduleMsg2 m2 m3 m1
  let m1 := sha256msg1 m1 m2
  let (state0, state1) := fourRounds 7 (by omega) m3 state0 state1
  let m0 := scheduleMsg2 m3 m0 m2
  let m2 := sha256msg1 m2 m3
  let (state0, state1) := fourRounds 8 (by omega) m0 state0 state1
  let m1 := scheduleMsg2 m0 m1 m3
  let m3 := sha256msg1 m3 m0
  let (state0, state1) := fourRounds 9 (by omega) m1 state0 state1
  let m2 := scheduleMsg2 m1 m2 m0
  let m0 := sha256msg1 m0 m1
  let (state0, state1) := fourRounds 10 (by omega) m2 state0 state1
  let m3 := scheduleMsg2 m2 m3 m1
  let m1 := sha256msg1 m1 m2
  let (state0, state1) := fourRounds 11 (by omega) m3 state0 state1
  let m0 := scheduleMsg2 m3 m0 m2
  let m2 := sha256msg1 m2 m3
  let (state0, state1) := fourRounds 12 (by omega) m0 state0 state1
  let m1 := scheduleMsg2 m0 m1 m3
  let m3 := sha256msg1 m3 m0
  let (state0, state1) := fourRounds 13 (by omega) m1 state0 state1
  let m2 := scheduleMsg2 m1 m2 m0
  let (state0, state1) := fourRounds 14 (by omega) m2 state0 state1
  let m3 := scheduleMsg2 m2 m3 m1
  let (state0, state1) := fourRounds 15 (by omega) m3 state0 state1
  (paddd state0 abefSave, paddd state1 cdghSave)

/-- Both state registers are transposed before the loop and back behind it. -/
def sha256CompressShani (state : Vector U32 8) (blocks : List U8) : Vector U32 8 :=
  let tmp := loadDwords state 0 (by omega)
  let state1 := loadDwords state 4 (by omega)
  let tmp := pshufd tmp 0xB1
  let state1 := pshufd state1 0x1B
  let state0 := palignr tmp state1 8
  let state1 := pblendw state1 tmp 0xF0
  let (state0, state1) := (chunksExact 64 blocks).foldl
    (fun (state0, state1) chunk => sha256ChunkShani state0 state1 chunk) (state0, state1)
  let tmp := pshufd state0 0x1B
  let state1 := pshufd state1 0xB1
  let state0 := pblendw tmp state1 0xF0
  let state1 := palignr state1 tmp 8
  let state := storeDwords state 0 state0 (by omega)
  storeDwords state 4 state1 (by omega)

def abef (v : Words) : BitVec 128 := dwords v.a v.b v.e v.f

def cdgh (v : Words) : BitVec 128 := dwords v.c v.d v.g v.h

/-- Four consecutive schedule words from word `4 * group` on. -/
def quad (w : Nat → U32) (group : Nat) : BitVec 128 :=
  dwords (w (4 * group + 3)) (w (4 * group + 2)) (w (4 * group + 1)) (w (4 * group))

/-- Two rounds turn `A B E F` into the new one, and the old one is already the new `C D G H`. -/
theorem sha256rnds2_eq (k0 k1 w0 w1 d2 d3 : U32) (v : Words) :
    sha256rnds2 (cdgh v) (abef v) (dwords d3 d2 (w1 + k1) (w0 + k0)) = abef (oneRound k1 w1 (oneRound k0 w0 v)) ∧
      abef v = cdgh (oneRound k1 w1 (oneRound k0 w0 v)) := by
  constructor
  · simp only [sha256rnds2, abef, cdgh, lane_dwords_zero, lane_dwords_one, lane_dwords_two, lane_dwords_three,
      shaRound_eq]
  · rfl

/-- A group of four rounds, over any schedule words that `cur` holds. -/
theorem fourRounds_eq (group : Nat) (room : 4 * group + 4 ≤ 64) (w : Nat → U32) (v : Words) :
    fourRounds group room (quad w group) (abef (rounds roundConstant w (4 * group) v))
        (cdgh (rounds roundConstant w (4 * group) v)) =
      (abef (rounds roundConstant w (4 * (group + 1)) v), cdgh (rounds roundConstant w (4 * (group + 1)) v)) := by
  have constants : ∀ j (_ : j < 64), SHA256_K[j] = roundConstant j := fun j below => by
    simp [roundConstant, Vector.getD, below]
  have expanded : 4 * (group + 1) = 4 * group + 1 + 1 + 1 + 1 := by omega
  obtain ⟨first, carried⟩ := sha256rnds2_eq (roundConstant (4 * group)) (roundConstant (4 * group + 1))
    (w (4 * group)) (w (4 * group + 1)) (w (4 * group + 2) + roundConstant (4 * group + 2))
    (w (4 * group + 3) + roundConstant (4 * group + 3)) (rounds roundConstant w (4 * group) v)
  obtain ⟨second, kept⟩ := sha256rnds2_eq (roundConstant (4 * group + 2)) (roundConstant (4 * group + 3))
    (w (4 * group + 2)) (w (4 * group + 3)) (w (4 * group) + roundConstant (4 * group))
    (w (4 * group) + roundConstant (4 * group)) (rounds roundConstant w (4 * group + 1 + 1) v)
  simp only [fourRounds, quad, loadDwords, constants, paddd_dwords, pshufd_0E, first]
  rw [carried]
  simp only [expanded, rounds] at second kept ⊢
  rw [second, kept]

theorem schedule_step (block : Nat → U32) (t : Nat) :
    schedule block t + sigma0 (schedule block (t + 1)) + schedule block (t + 9) + sigma1 (schedule block (t + 14)) =
      schedule block (t + 16) := by
  rw [schedule_add_sixteen]
  ac_rfl

/-- Both halves of the schedule instruction together give the next four words. -/
theorem scheduleMsg2_eq (block : Nat → U32) (group : Nat) :
    scheduleMsg2 (quad (schedule block) (group + 3))
        (sha256msg1 (quad (schedule block) group) (quad (schedule block) (group + 1)))
        (quad (schedule block) (group + 2)) =
      quad (schedule block) (group + 4) := by
  have shifted : ∀ r, quad (schedule block) (group + r) = dwords (schedule block (4 * group + (4 * r + 3)))
      (schedule block (4 * group + (4 * r + 2))) (schedule block (4 * group + (4 * r + 1)))
      (schedule block (4 * group + 4 * r)) := fun r => by
    simp only [quad, Nat.mul_add, Nat.add_assoc]
  have w16 := schedule_step block (4 * group)
  have w17 := schedule_step block (4 * group + 1)
  have w18 := schedule_step block (4 * group + 2)
  have w19 := schedule_step block (4 * group + 3)
  simp only [Nat.add_assoc, Nat.reduceAdd] at w17 w18 w19
  simp only [shifted, Nat.reduceMul, Nat.reduceAdd]
  simp only [scheduleMsg2, quad, sha256msg1, sha256msg2, palignr_four, paddd_dwords, lane_dwords_zero,
    lane_dwords_one, lane_dwords_two, lane_dwords_three, w16, w17, w18, w19]

theorem lane_quad (w : Nat → U32) (group : Nat) {q : Nat} (within : q < 4) :
    lane 32 (quad w group) q = w (4 * group + q) := by
  match q, within with
  | 0, _ => exact lane_dwords_zero _ _ _ _
  | 1, _ => exact lane_dwords_one _ _ _ _
  | 2, _ => exact lane_dwords_two _ _ _ _
  | 3, _ => exact lane_dwords_three _ _ _ _

theorem byteSwap_gather : ∀ i < 16, (lane 8 BYTE_SWAP i).msb = false ∧
    ((lane 8 BYTE_SWAP i) &&& 0x0f).toNat = 4 * (i / 4) + (3 - i % 4) := by decide +kernel

theorem pshufb_loadBytes (chunk : Vector U8 64) (group : Nat) (room : 16 * group + 16 ≤ 64) :
    pshufb (loadBytes chunk (16 * group) room) BYTE_SWAP = quad (chunkWord chunk) group := by
  refine eq_of_lanes 8 16 (by omega) fun i within => ?_
  obtain ⟨low, target⟩ := byteSwap_gather i within
  have one : 16 * (i / 16) = 0 := by omega
  have place : i = 4 * (i / 4) + i % 4 := by omega
  have right : lane 8 (quad (chunkWord chunk) group) i =
      chunk.getD ((4 * group + i / 4) * 4 + (3 - i % 4)) 0 := by
    rw [place, ← lane_lane (w := 32) (r := 4) (by omega) _ _ (by omega), lane_quad _ _ (by omega),
      lane_chunkWord _ _ (by omega)]
    congr 1
    omega
  have byte : ∀ j, chunk.toList.getD j 0 = chunk.getD j 0 := by
    intro j
    simp [Vector.getD, List.getD_eq_getElem?_getD]
  rw [right, pshufb, lane_ofLanes _ within (by omega)]
  simp only [low, target, one, Bool.false_eq_true, if_false, Nat.zero_add]
  rw [loadBytes, Bytes.lane_fromLeBytes _ (by omega), List.getD_eq_getElem?_getD, List.getElem?_drop,
    ← List.getD_eq_getElem?_getD, byte]
  congr 1
  omega

theorem fourRounds_at {group t : Nat} (start : t = 4 * group) (room : 4 * group + 4 ≤ 64) (w : Nat → U32)
    (v : Words) :
    fourRounds group room (quad w group) (abef (rounds roundConstant w t v)) (cdgh (rounds roundConstant w t v)) =
      (abef (rounds roundConstant w (t + 4) v), cdgh (rounds roundConstant w (t + 4) v)) := by
  subst start
  exact fourRounds_eq group room w v

theorem paddd_state (v x : Words) :
    paddd (abef x) (abef v) = abef (v.add x) ∧ paddd (cdgh x) (cdgh v) = cdgh (v.add x) := by
  simp only [abef, cdgh, paddd_dwords, Words.add]
  constructor <;> congr 1 <;> exact BitVec.add_comm _ _

theorem sha256ChunkShani_eq (v : Words) (chunk : Vector U8 64) :
    sha256ChunkShani (abef v) (cdgh v) chunk =
      (abef (compress roundConstant (chunkWord chunk) v), cdgh (compress roundConstant (chunkWord chunk) v)) := by
  have loaded : ∀ group (room : 16 * group + 16 ≤ 64),
      pshufb (loadBytes chunk (16 * group) room) BYTE_SWAP = quad (schedule (chunkWord chunk)) group := by
    intro group room
    rw [pshufb_loadBytes, quad, quad, schedule_of_lt (by omega), schedule_of_lt (by omega),
      schedule_of_lt (by omega), schedule_of_lt (by omega)]
  have m0 := loaded 0 (by omega)
  have m1 := loaded 1 (by omega)
  have m2 := loaded 2 (by omega)
  have m3 := loaded 3 (by omega)
  change sha256ChunkShani (abef (rounds roundConstant (schedule (chunkWord chunk)) 0 v))
    (cdgh (rounds roundConstant (schedule (chunkWord chunk)) 0 v)) chunk = _
  simp only [Nat.reduceMul] at m0 m1 m2 m3
  simp only [sha256ChunkShani, m0, m1, m2, m3, fourRounds_at, scheduleMsg2_eq, Nat.reduceMul, Nat.reduceAdd]
  obtain ⟨forward0, forward1⟩ := paddd_state v (rounds roundConstant (schedule (chunkWord chunk)) 64 v)
  exact Prod.ext forward0 forward1

/-- The two transpositions around the loop cancel, whatever the loop leaves in the registers. -/
theorem shani_layout (state : Vector U32 8) (v : Words) :
    palignr (pshufd (loadDwords state 0 (by omega)) 0xB1) (pshufd (loadDwords state 4 (by omega)) 0x1B) 8 =
        abef (toWords state) ∧
      pblendw (pshufd (loadDwords state 4 (by omega)) 0x1B) (pshufd (loadDwords state 0 (by omega)) 0xB1) 0xF0 =
        cdgh (toWords state) ∧
      storeDwords (storeDwords state 0 (pblendw (pshufd (abef v) 0x1B) (pshufd (cdgh v) 0xB1) 0xF0) (by omega)) 4
        (palignr (pshufd (cdgh v) 0xB1) (pshufd (abef v) 0x1B) 8) (by omega) = ofWords v := by
  refine ⟨?_, ?_, ?_⟩
  · simp only [loadDwords, pshufd_B1, pshufd_1B, palignr_eight]
    rfl
  · simp only [loadDwords, pshufd_B1, pshufd_1B, pblendw_F0]
    rfl
  · simp only [abef, cdgh, pshufd_B1, pshufd_1B, pblendw_F0, palignr_eight, storeDwords, lane_dwords_zero,
      lane_dwords_one, lane_dwords_two, lane_dwords_three]
    apply Vector.ext
    intro i within
    match i, within with
    | 0, _ | 1, _ | 2, _ | 3, _ | 4, _ | 5, _ | 6, _ | 7, _ => simp [ofWords]

theorem sha256CompressShani_eq (state : Vector U32 8) (blocks : List U8) :
    sha256CompressShani state blocks = ofWords ((chunksExact 64 blocks).foldl
      (fun v chunk => compress roundConstant (chunkWord chunk) v) (toWords state)) := by
  have loop : ∀ (chunks : List (Vector U8 64)) (v : Words),
      chunks.foldl (fun (regs : BitVec 128 × BitVec 128) chunk => sha256ChunkShani regs.1 regs.2 chunk)
        (abef v, cdgh v) =
      (abef (chunks.foldl (fun v chunk => compress roundConstant (chunkWord chunk) v) v),
        cdgh (chunks.foldl (fun v chunk => compress roundConstant (chunkWord chunk) v) v)) := by
    intro chunks
    induction chunks with
    | nil => exact fun v => rfl
    | cons chunk chunks ih => exact fun v => by rw [List.foldl_cons, List.foldl_cons, sha256ChunkShani_eq, ih]
  obtain ⟨packed0, packed1, _⟩ := shani_layout state (toWords state)
  obtain ⟨_, _, unpacked⟩ := shani_layout state ((chunksExact 64 blocks).foldl
    (fun v chunk => compress roundConstant (chunkWord chunk) v) (toWords state))
  rw [← unpacked]
  simp only [sha256CompressShani, packed0, packed1, loop]

/-- SHA-NI compression is the portable compression, from any state and for any number of blocks. -/
theorem sha256CompressShani_portable (state : Vector U32 8) (blocks : List U8) :
    sha256CompressShani state blocks = Fallback.sha256Compress state blocks := by
  rw [sha256CompressShani_eq, Fallback.sha256Compress_eq]

end Pich.X86
