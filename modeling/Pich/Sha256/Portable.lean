import Pich.Base.Bytes
import Pich.Base.Loops
import Pich.Base.Sha2
import Pich.Primitives

namespace Pich

theorem chunk_room {size n i j : Nat} (whole : i < size / n) (within : j < n) : n * i + j < size := by
  have full := Nat.mul_le_mul_left n whole
  have cut := Nat.mul_div_le size n
  rw [Nat.mul_succ] at full
  omega

/-- The whole chunks of a slice, the remainder left out. -/
def chunksExact {α : Type} (n : Nat) (xs : List α) : List (Vector α n) :=
  (List.finRange (xs.length / n)).map fun i : Fin (xs.length / n) =>
    Vector.ofFn fun j : Fin n => xs.get ⟨n * i + j, chunk_room i.isLt j.isLt⟩

namespace Fallback
open Lanes Sha2

def SHA256_K : Vector U32 64 :=
  #v[
    0x428a2f98, 0x71374491, 0xb5c0fbcf, 0xe9b5dba5, 0x3956c25b, 0x59f111f1, 0x923f82a4, 0xab1c5ed5,
    0xd807aa98, 0x12835b01, 0x243185be, 0x550c7dc3, 0x72be5d74, 0x80deb1fe, 0x9bdc06a7, 0xc19bf174,
    0xe49b69c1, 0xefbe4786, 0x0fc19dc6, 0x240ca1cc, 0x2de92c6f, 0x4a7484aa, 0x5cb0a9dc, 0x76f988da,
    0x983e5152, 0xa831c66d, 0xb00327c8, 0xbf597fc7, 0xc6e00bf3, 0xd5a79147, 0x06ca6351, 0x14292967,
    0x27b70a85, 0x2e1b2138, 0x4d2c6dfc, 0x53380d13, 0x650a7354, 0x766a0abb, 0x81c2c92e, 0x92722c85,
    0xa2bfe8a1, 0xa81a664b, 0xc24b8b70, 0xc76c51a3, 0xd192e819, 0xd6990624, 0xf40e3585, 0x106aa070,
    0x19a4c116, 0x1e376c08, 0x2748774c, 0x34b0bcb5, 0x391c0cb3, 0x4ed8aa4a, 0x5b9cca4f, 0x682e6ff3,
    0x748f82ee, 0x78a5636f, 0x84c87814, 0x8cc70208, 0x90befffa, 0xa4506ceb, 0xbef9a3f7, 0xc67178f2]

def u32FromBeBytes (b0 b1 b2 b3 : U8) : U32 := b0 ++ b1 ++ b2 ++ b3

/-- The 64-word array `w`: sixteen words read from the chunk, forty-eight computed from earlier ones. -/
def messageWords (chunk : Vector U8 64) : Vector U32 64 :=
  let w : Vector U32 64 := Vector.replicate 64 0
  let w := Nat.fold 16 (fun i _ w =>
    w.set i (u32FromBeBytes chunk[i * 4] chunk[i * 4 + 1] chunk[i * 4 + 2] chunk[i * 4 + 3])) w
  Nat.fold 48 (fun j _ w =>
    let x := w[j + 16 - 15]
    let y := w[j + 16 - 2]
    let s0 := x.rotateRight 7 ^^^ x.rotateRight 18 ^^^ (x >>> 3)
    let s1 := y.rotateRight 17 ^^^ y.rotateRight 19 ^^^ (y >>> 10)
    w.set (j + 16) (w[j + 16 - 16] + s0 + w[j + 16 - 7] + s1)) w

/-- One iteration of the main loop, the eight working variables moved along at its end. -/
def sha256Round (k w : U32) (v : Words) : Words :=
  let ⟨a, b, c, d, e, f, g, h⟩ := v
  let s1 := e.rotateRight 6 ^^^ e.rotateRight 11 ^^^ e.rotateRight 25
  let ch := (e &&& f) ^^^ (~~~e &&& g)
  let temp1 := h + s1 + ch + k + w
  let s0 := a.rotateRight 2 ^^^ a.rotateRight 13 ^^^ a.rotateRight 22
  let maj := (a &&& b) ^^^ (a &&& c) ^^^ (b &&& c)
  let temp2 := s0 + maj
  { a := temp1 + temp2, b := a, c := b, d := c, e := d + temp1, f := e, g := f, h := g }

/-- One chunk: its words, the sixty-four iterations, and the sums with the state it began with. -/
def sha256Chunk (state : Vector U32 8) (chunk : Vector U8 64) : Vector U32 8 :=
  let w := messageWords chunk
  let v : Words := ⟨state[0], state[1], state[2], state[3], state[4], state[5], state[6], state[7]⟩
  let v := Nat.fold 64 (fun i _ v => sha256Round SHA256_K[i] w[i] v) v
  #v[state[0] + v.a, state[1] + v.b, state[2] + v.c, state[3] + v.d, state[4] + v.e, state[5] + v.f,
    state[6] + v.g, state[7] + v.h]

/-- The portable compression function, chunk after chunk. -/
def sha256Compress (state : Vector U32 8) (blocks : List U8) : Vector U32 8 :=
  (chunksExact 64 blocks).foldl sha256Chunk state

/-- Word `t` of a chunk; total, so that the schedule can be over all numbers. -/
def chunkWord (chunk : Vector U8 64) (t : Nat) : U32 :=
  u32FromBeBytes (chunk.getD (t * 4) 0) (chunk.getD (t * 4 + 1) 0) (chunk.getD (t * 4 + 2) 0)
    (chunk.getD (t * 4 + 3) 0)

def roundConstant (t : Nat) : U32 := SHA256_K.getD t 0

def toWords (state : Vector U32 8) : Words :=
  ⟨state[0], state[1], state[2], state[3], state[4], state[5], state[6], state[7]⟩

def ofWords (v : Words) : Vector U32 8 := #v[v.a, v.b, v.c, v.d, v.e, v.f, v.g, v.h]

@[simp] theorem toWords_ofWords (v : Words) : toWords (ofWords v) = v := rfl

theorem ofWords_toWords (state : Vector U32 8) : ofWords (toWords state) = state := by
  apply Vector.ext
  intro i within
  match i, within with
  | 0, _ | 1, _ | 2, _ | 3, _ | 4, _ | 5, _ | 6, _ | 7, _ => rfl

theorem lane_u32FromBeBytes (b0 b1 b2 b3 : U8) :
    lane 8 (u32FromBeBytes b0 b1 b2 b3) 0 = b3 ∧ lane 8 (u32FromBeBytes b0 b1 b2 b3) 1 = b2 ∧
      lane 8 (u32FromBeBytes b0 b1 b2 b3) 2 = b1 ∧ lane 8 (u32FromBeBytes b0 b1 b2 b3) 3 = b0 := by
  refine ⟨?_, ?_, ?_, ?_⟩
  · rw [u32FromBeBytes, lane_append_low _ b3 (by omega), lane_self]
  · rw [u32FromBeBytes, lane_append_high (r := 1) (by omega) _ b3 0, lane_append_low _ b2 (by omega), lane_self]
  · rw [u32FromBeBytes, lane_append_high (r := 1) (by omega) _ b3 1,
      lane_append_high (r := 1) (by omega) _ b2 0, lane_append_low _ b1 (by omega), lane_self]
  · rw [u32FromBeBytes, lane_append_high (r := 1) (by omega) _ b3 2,
      lane_append_high (r := 1) (by omega) _ b2 1, lane_append_high (r := 1) (by omega) _ b1 0, lane_self]

/-- The bytes of a word stand in the chunk with the most significant one first. -/
theorem lane_chunkWord (chunk : Vector U8 64) (t : Nat) {r : Nat} (within : r < 4) :
    lane 8 (chunkWord chunk t) r = chunk.getD (t * 4 + (3 - r)) 0 := by
  obtain ⟨zero, one, two, three⟩ := lane_u32FromBeBytes (chunk.getD (t * 4) 0) (chunk.getD (t * 4 + 1) 0)
    (chunk.getD (t * 4 + 2) 0) (chunk.getD (t * 4 + 3) 0)
  match r, within with
  | 0, _ => exact zero
  | 1, _ => exact one
  | 2, _ => exact two
  | 3, _ => exact three

theorem sha256Round_eq (k w : U32) (v : Words) : sha256Round k w v = oneRound k w v := rfl

/-- The array is the message schedule. -/
theorem messageWords_eq (chunk : Vector U8 64) {t : Nat} (within : t < 64) :
    (messageWords chunk)[t] = schedule (chunkWord chunk) t := by
  unfold messageWords
  refine Loops.getElem_fold_set 16 48 (by omega) _ (schedule (chunkWord chunk)) _ ?_ ?_ t within
  · intro t first
    refine Loops.getElem_fold_set 0 16 (by omega) _ _ _ (fun t none => by omega) ?_ t first
    intro i within w _
    have bytes : ∀ j (below : j < 64), chunk.getD j 0 = chunk[j] := fun j below => by
      simp [Vector.getD, below]
    change _ = schedule (chunkWord chunk) i
    simp only [schedule_of_lt within, chunkWord, bytes (i * 4) (by omega), bytes (i * 4 + 1) (by omega),
      bytes (i * 4 + 2) (by omega), bytes (i * 4 + 3) (by omega)]
  · intro i within w filled
    simp only [filled (i + 16 - 15) (by omega), filled (i + 16 - 2) (by omega), filled (i + 16 - 16) (by omega),
      filled (i + 16 - 7) (by omega), schedule_add_sixteen]
    rw [Nat.add_sub_cancel, show i + 16 - 15 = i + 1 by omega, show i + 16 - 2 = i + 14 by omega,
      show i + 16 - 7 = i + 9 by omega]
    simp only [sigma0, sigma1]
    ac_rfl

/-- The main loop runs the rounds over the schedule that the array holds. -/
theorem fold_sha256Round (w : Vector U32 64) (v : Words) {target : Nat → U32} {n : Nat} (bound : n ≤ 64)
    (filled : ∀ t (_ : t < 64), w[t] = target t) :
    Nat.fold n (fun i _ v => sha256Round SHA256_K[i] w[i] v) v = rounds roundConstant target n v := by
  induction n with
  | zero => rfl
  | succ n ih =>
    have constant : SHA256_K[n] = roundConstant n := by
      simp [roundConstant, Vector.getD, show n < 64 by omega]
    rw [Nat.fold_succ, ih (by omega), rounds, filled n (by omega), constant, sha256Round_eq]

theorem sha256Chunk_eq (state : Vector U32 8) (chunk : Vector U8 64) :
    sha256Chunk state chunk = ofWords (compress roundConstant (chunkWord chunk) (toWords state)) := by
  have forward : sha256Chunk state chunk = ofWords ((toWords state).add (Nat.fold 64
      (fun i _ v => sha256Round SHA256_K[i] (messageWords chunk)[i] v) (toWords state))) := rfl
  rw [forward, compress, fold_sha256Round _ _ (Nat.le_refl 64) fun t within => messageWords_eq chunk within]

/-- The whole call is a left fold of the compression over the chunks. -/
theorem sha256Compress_eq (state : Vector U32 8) (blocks : List U8) :
    sha256Compress state blocks = ofWords ((chunksExact 64 blocks).foldl
      (fun v chunk => compress roundConstant (chunkWord chunk) v) (toWords state)) := by
  rw [sha256Compress]
  generalize chunksExact 64 blocks = chunks
  induction chunks generalizing state with
  | nil => exact (ofWords_toWords state).symm
  | cons chunk chunks ih => rw [List.foldl_cons, List.foldl_cons, ih, sha256Chunk_eq, toWords_ofWords]

end Fallback

end Pich
