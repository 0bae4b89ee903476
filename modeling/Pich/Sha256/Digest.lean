import Pich.Arch

namespace Pich
open Bytes

def SHA256_IV : Vector U32 8 :=
  #v[0x6a09e667, 0xbb67ae85, 0x3c6ef372, 0xa54ff53a, 0x510e527f, 0x9b05688c, 0x1f83d9ab, 0x5be0cd19]

/-- The padding loop: zeros until the length is 56 modulo 64. -/
def padZeros (msg : List U8) : List U8 :=
  if msg.length % 64 ≠ 56 then padZeros (msg ++ [0x00]) else msg
termination_by (120 - msg.length % 64) % 64
decreasing_by
  rw [List.length_append, List.length_singleton]
  omega

/-- The padded message. The bit length is a 64-bit product, which wraps. -/
def padded (data : List U8) : List U8 :=
  let origLen := data.length
  let msg := padZeros (data ++ [0x80])
  let bitLen : U64 := BitVec.ofNat 64 origLen * 8
  msg ++ toBeBytes bitLen

theorem word_room {i : Nat} (within : i < 8) (x : U32) : i * 4 + (toBeBytes x).length ≤ 32 := by
  rw [toBeBytes_length]
  omega

/-- The loop that writes the eight words out, the most significant byte first. -/
def digestBytes (h : Vector U32 8) : Vector U8 32 :=
  Nat.fold 8 (fun i within result => copyFromSlice result (i * 4) (toBeBytes h[i]) (word_room within h[i]))
    (Vector.replicate 32 0)

def sha256 (platform : Platform) (data : List U8) : Vector U8 32 :=
  let msg := padded data
  let h := Arch.sha256Compress platform SHA256_IV msg
  digestBytes h

theorem fold_copyFromSlice (h : Vector U32 8) {n : Nat} (bound : n ≤ 8) :
    (Nat.fold n (fun i _ result => copyFromSlice result (i * 4) (toBeBytes h[i]) (word_room (by omega) h[i]))
      (Vector.replicate 32 0)).toList =
        (h.toList.take n).flatMap toBeBytes ++ List.replicate (32 - n * 4) 0 := by
  induction n with
  | zero => rfl
  | succ n ih =>
    have listed : n < h.toList.length := by rw [Vector.length_toList]; omega
    have size : ((h.toList.take n).flatMap toBeBytes).length = n * 4 := by
      simp only [List.length_flatMap, toBeBytes_length, List.map_const', List.sum_replicate_nat, List.length_take]
      omega
    have rest : ((h.toList.take n).flatMap toBeBytes ++ List.replicate (32 - n * 4) 0).drop (n * 4 + 4) =
        List.replicate (32 - (n + 1) * 4) (0 : U8) := by
      rw [List.drop_append, List.drop_of_length_le (by omega), List.nil_append, List.drop_replicate, size]
      congr 1
      omega
    rw [Nat.fold_succ, copyFromSlice_toList, ih (by omega), toBeBytes_length, rest, List.take_left' size,
      List.take_succ_eq_append_getElem listed, List.flatMap_append, List.flatMap_singleton, Vector.getElem_toList]

theorem digestBytes_toList (h : Vector U32 8) : (digestBytes h).toList = h.toList.flatMap toBeBytes := by
  have whole : h.toList.take 8 = h.toList := List.take_of_length_le (Nat.le_of_eq Vector.length_toList)
  rw [digestBytes, fold_copyFromSlice h (Nat.le_refl 8), whole, Nat.sub_self, List.replicate_zero, List.append_nil]

theorem sha256_toList (platform : Platform) (data : List U8) :
    (sha256 platform data).toList =
      (Fallback.sha256Compress SHA256_IV (padded data)).toList.flatMap toBeBytes := by
  rw [sha256, Arch.sha256Compress_eq, digestBytes_toList]

end Pich
