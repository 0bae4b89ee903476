import Pich.Base.Bytes
import Pich.Base.Gf256
import Pich.Base.Sha2

namespace Intel
open Lanes Bytes

/-! Register-to-register instructions, at any register width where the hardware has several. -/

/-- `pshufb`: an index byte with its top bit set selects zero, any other selects by its low nibble
within its own 128-bit lane. -/
def pshufb {m : Nat} (table index : BitVec m) : BitVec m :=
  ofLanes m (fun i =>
    let sel := lane 8 index i
    if sel.msb then 0 else lane 8 table (16 * (i / 16) + (sel &&& 0x0f).toNat)) (m / 8)

def addSat (a b : BitVec 8) : BitVec 8 := if a.toNat + b.toNat < 256 then a + b else 0xff

def psubb {m : Nat} (a b : BitVec m) : BitVec m := zipLanes 8 (· - ·) a b

def paddusb {m : Nat} (a b : BitVec m) : BitVec m := zipLanes 8 addSat a b

def paddd {m : Nat} (a b : BitVec m) : BitVec m := zipLanes 32 (· + ·) a b

def set1Epi8 (m : Nat) (b : BitVec 8) : BitVec m := ofLanes m (fun _ => b) (m / 8)

def set1Epi64x (m : Nat) (q : BitVec 64) : BitVec m := ofLanes m (fun _ => q) (m / 64)

/-- `psrlq`: every quadword shifted on its own; no bit crosses over. -/
def psrlq {m : Nat} (x : BitVec m) (count : Nat) : BitVec m := mapLanes 64 (· >>> count) x

def psllq {m : Nat} (x : BitVec m) (count : Nat) : BitVec m := mapLanes 64 (· <<< count) x

/-- `pshufd`: two bits of the immediate name each dword's source within its 128-bit lane. -/
def pshufd {m : Nat} (x : BitVec m) (imm : BitVec 8) : BitVec m :=
  ofLanes m (fun i => lane 32 x (4 * (i / 4) + ((imm >>> (2 * (i % 4))) &&& 3).toNat)) (m / 32)

/-- `palignr`: the 32 bytes `a:b` shifted right by `imm` bytes, low half. -/
def palignr (a b : BitVec 128) (imm : Nat) : BitVec 128 := ((a ++ b) >>> (8 * imm)).setWidth 128

/-- `pblendw`: bit `i` of the immediate takes word `i` from `b` rather than `a`. -/
def pblendw (a b : BitVec 128) (imm : BitVec 8) : BitVec 128 :=
  ofLanes 128 (fun i => if imm.getLsbD i then lane 16 b i else lane 16 a i) 8

def vbroadcasti128 (x : BitVec 128) : BitVec 256 := x ++ x

def set128 (hi lo : BitVec 128) : BitVec 256 := hi ++ lo

def cast256to128 (x : BitVec 256) : BitVec 128 := x.setWidth 128

def vextracti128 (x : BitVec 256) (imm : Nat) : BitVec 128 := lane 128 x imm

/-- One half of `vperm2i128`: a zeroing bit, else a choice among the four source halves. -/
def perm128 (a b : BitVec 256) (control : BitVec 4) : BitVec 128 :=
  if control.getLsbD 3 then 0 else lane 128 (b ++ a) (control &&& 3).toNat

/-- `vperm2i128`: each half of the result under its own four bits of the immediate. -/
def vperm2i128 (a b : BitVec 256) (imm : BitVec 8) : BitVec 256 :=
  perm128 a b (lane 4 imm 1) ++ perm128 a b (lane 4 imm 0)

/-- Widening leaves the upper 384 bits undefined: here, whatever `upper` holds. -/
def cast128to512 (upper : BitVec 384) (x : BitVec 128) : BitVec 512 := upper ++ x

def cast512to128 (x : BitVec 512) : BitVec 128 := x.setWidth 128

/-- `vpermi2b`: the low seven bits of each index byte pick one of the 128 bytes of `a` then `b`. -/
def vpermi2b (a index b : BitVec 512) : BitVec 512 :=
  ofLanes 512 (fun i => lane 8 (b ++ a) (lane 8 index i &&& 0x7f).toNat) 64

def vpmovb2m (x : BitVec 512) : BitVec 64 :=
  ofLanes 64 (fun i => BitVec.ofBool (lane 8 x i).msb) 64

/-- `vpblendmb`: a set mask bit takes the byte of `b` rather than `a`. -/
def vpblendmb (mask : BitVec 64) (a b : BitVec 512) : BitVec 512 :=
  ofLanes 512 (fun i => if mask.getLsbD i then lane 8 b i else lane 8 a i) 64

/-- `ShiftRows` on a column-major block: byte `r + 4c` comes from row `r`, column `c + r`. -/
def shiftRows (x : BitVec 128) : BitVec 128 :=
  ofLanes 128 (fun i => lane 8 x (i % 4 + 4 * ((i / 4 + i % 4) % 4))) 16

/-- `aesenclast`: the row shift, the byte substitution and the key, without the column mix. -/
def aesenclast (x key : BitVec 128) : BitVec 128 := mapLanes 8 Gf256.rijndael (shiftRows x) ^^^ key

def parity (b : BitVec 8) : Bool := (List.range 8).foldl (fun acc i => acc ^^ b.getLsbD i) false

/-- One byte of an affine map over GF(2): bit `i` uses row byte `7 - i` of the packed matrix. -/
def affineByte (matrix : BitVec 64) (constant b : BitVec 8) : BitVec 8 :=
  ofLanes 8 (fun i => BitVec.ofBool (parity (lane 8 matrix (7 - i) &&& b) ^^ constant.getLsbD i)) 8

/-- `gf2p8affineinvqb`: inversion in GF(2^8), then the affine map of the byte's own quadword. -/
def gf2p8affineinvqb (x matrix : BitVec 128) (constant : BitVec 8) : BitVec 128 :=
  ofLanes 128 (fun i => affineByte (lane 64 matrix (i / 8)) constant (Gf256.inv (lane 8 x i))) 16

/-! General-purpose 64-bit registers. -/

/-- `shld`: shifts `dst` left, filling from the top of `src`. The count is taken modulo 64 and a count
of zero changes nothing. -/
def shld (dst src : BitVec 64) (cl : BitVec 8) : BitVec 64 :=
  let count := cl.toNat % 64
  if count = 0 then dst else (dst <<< count) ||| (src >>> (64 - count))

/-- `shrd`: shifts `dst` right, filling from the bottom of `src`. -/
def shrd (dst src : BitVec 64) (cl : BitVec 8) : BitVec 64 :=
  let count := cl.toNat % 64
  if count = 0 then dst else (dst >>> count) ||| (src <<< (64 - count))

/-- `mul`: the full product, as the pair `rdx`, `rax`. -/
def mulWide (rax src : BitVec 64) : BitVec 64 × BitVec 64 :=
  let product := rax.setWidth 128 * src.setWidth 128
  (lane 64 product 1, lane 64 product 0)

def imul (dst src : BitVec 64) : BitVec 64 := dst * src

/-! Unaligned memory accesses, which fail outside the buffer. -/

def loadu (m : Nat) (buf : List (BitVec 8)) (off : Nat) : Option (BitVec m) :=
  if off + m / 8 ≤ buf.length then some (fromLeBytes m (buf.drop off)) else none

def storeu {m : Nat} (buf : List (BitVec 8)) (off : Nat) (x : BitVec m) : Option (List (BitVec 8)) :=
  if off + m / 8 ≤ buf.length then
    some (buf.take off ++ toLeBytes x ++ buf.drop (off + m / 8))
  else none

/-- Whether every byte with its mask bit set lies among the first `size`. -/
def covered (mask : BitVec 64) (size : Nat) : Prop := ∀ i < 64, mask.getLsbD i = true → i < size

instance coveredDecidable (mask : BitVec 64) (size : Nat) : Decidable (covered mask size) :=
  inferInstanceAs (Decidable (∀ i < 64, mask.getLsbD i = true → i < size))

/-- A masked load reads only the bytes with their mask bit set and leaves zero in the others. -/
def maskzLoadu (mask : BitVec 64) (buf : List (BitVec 8)) : Option (BitVec 512) :=
  if covered mask buf.length then some (ofLanes 512 (fun i => if mask.getLsbD i then buf.getD i 0 else 0) 64)
  else none

/-- A masked store writes only the bytes with their mask bit set. -/
def maskStoreu (buf : List (BitVec 8)) (mask : BitVec 64) (x : BitVec 512) : Option (List (BitVec 8)) :=
  if covered mask buf.length then some (buf.mapIdx fun i byte => if mask.getLsbD i then lane 8 x i else byte)
  else none

/-- Which operand a bit of the shifted pair comes from. -/
theorem getLsbD_shld (dst src : BitVec 64) (cl : BitVec 8) {k : Nat} (small : k < 64) :
    (shld dst src cl).getLsbD k =
      if k < cl.toNat % 64 then src.getLsbD (64 - cl.toNat % 64 + k) else dst.getLsbD (k - cl.toNat % 64) := by
  have bound := Nat.mod_lt cl.toNat (by omega : 64 > 0)
  unfold shld
  by_cases none : cl.toNat % 64 = 0
  · simp [none]
  · by_cases below : k < cl.toNat % 64
    · simp [none, below, small]
    · have above : 64 ≤ 64 - cl.toNat % 64 + k := by omega
      simp only [none, below, small, if_false, BitVec.getLsbD_or, BitVec.getLsbD_shiftLeft,
        BitVec.getLsbD_ushiftRight, BitVec.getLsbD_of_ge src _ above, decide_true, decide_false, Bool.not_false,
        Bool.true_and, Bool.or_false]

theorem getLsbD_shrd (dst src : BitVec 64) (cl : BitVec 8) {k : Nat} (small : k < 64) :
    (shrd dst src cl).getLsbD k =
      if k + cl.toNat % 64 < 64 then dst.getLsbD (k + cl.toNat % 64) else src.getLsbD (k + cl.toNat % 64 - 64) := by
  have bound := Nat.mod_lt cl.toNat (by omega : 64 > 0)
  unfold shrd
  by_cases none : cl.toNat % 64 = 0
  · simp [none, small]
  · by_cases below : k + cl.toNat % 64 < 64
    · have outside : k < 64 - cl.toNat % 64 := by omega
      simp [none, below, small, outside, Nat.add_comm]
    · have inside : ¬ k < 64 - cl.toNat % 64 := by omega
      have place : k - (64 - cl.toNat % 64) = k + cl.toNat % 64 - 64 := by omega
      have above : 64 ≤ cl.toNat % 64 + k := by omega
      simp only [none, below, small, inside, place, if_false, BitVec.getLsbD_or, BitVec.getLsbD_shiftLeft,
        BitVec.getLsbD_ushiftRight, BitVec.getLsbD_of_ge dst _ above, decide_true, decide_false, Bool.not_false,
        Bool.true_and, Bool.false_or]

theorem loadu_eq {m off : Nat} {buf : List (BitVec 8)} (room : off + m / 8 ≤ buf.length) :
    loadu m buf off = some (fromLeBytes m (buf.drop off)) := by
  rw [loadu, if_pos room]

theorem storeu_eq {m off : Nat} {buf : List (BitVec 8)} (x : BitVec m) (room : off + m / 8 ≤ buf.length) :
    storeu buf off x = some (buf.take off ++ toLeBytes x ++ buf.drop (off + m / 8)) := by
  rw [storeu, if_pos room]

theorem getD_stored {m off : Nat} {buf : List (BitVec 8)} (x : BitVec m) (room : off + m / 8 ≤ buf.length) (i : Nat) :
    (buf.take off ++ toLeBytes x ++ buf.drop (off + m / 8)).getD i 0 =
      if off ≤ i ∧ i < off + m / 8 then lane 8 x (i - off) else buf.getD i 0 := by
  have front : (buf.take off).length = off := by simp; omega
  rw [getD_parts, front, toLeBytes_length]
  by_cases before : i < off
  · rw [if_pos before, if_neg (by omega), getD_take before]
  · by_cases inside : i < off + m / 8
    · rw [if_neg before, if_pos inside, if_pos (by omega), toLeBytes_getD x (by omega)]
    · have place : off + m / 8 + (i - (off + m / 8)) = i := by omega
      rw [if_neg before, if_neg inside, if_neg (by omega), getD_drop, place]

theorem cast_vbroadcasti128 (x : BitVec 128) : cast256to128 (vbroadcasti128 x) = x := by
  rw [← lane_self (cast256to128 (vbroadcasti128 x)), cast256to128, lane_setWidth _ (by omega), vbroadcasti128,
    lane_append_low _ _ (by omega), lane_self]

theorem lane_vbroadcasti128 (x : BitVec 128) {j : Nat} (half : j < 2) : lane 128 (vbroadcasti128 x) j = x := by
  rw [vbroadcasti128, lane_halves _ _ half, ite_self]

end Intel
