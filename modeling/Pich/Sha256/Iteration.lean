import Mathlib.Data.Fintype.Pigeonhole
import Pich.Base.Chunks
import Pich.Base.Counting
import Pich.Sha256.Conformance
import Pich.Sha256.Hmac

namespace Pich
open Bytes MerkleDamgard Hmac

section Split

theorem chunksExact_append {xs : List U8} (whole : 64 ∣ xs.length) (ys : List U8) :
    chunksExact 64 (xs ++ ys) = chunksExact 64 xs ++ chunksExact 64 ys := by
  have count : (xs ++ ys).length / 64 = xs.length / 64 + ys.length / 64 := by
    rw [List.length_append]
    omega
  have first : ∀ i < xs.length / 64, chunkAt (xs ++ ys) i = chunkAt xs i := fun i within => by
    simp only [chunkAt, List.getD_eq_getElem?_getD]
    refine congrArg Vector.ofFn (funext fun j => ?_)
    rw [List.getElem?_append_left (by omega)]
  have second : ∀ i, chunkAt (xs ++ ys) (xs.length / 64 + i) = chunkAt ys i := fun i => by
    simp only [chunkAt, List.getD_eq_getElem?_getD]
    refine congrArg Vector.ofFn (funext fun j => ?_)
    have place : 64 * (xs.length / 64 + i) + j - xs.length = 64 * i + j := by omega
    rw [List.getElem?_append_right (by omega), place]
  have front := List.map_congr_left fun i among => first i (List.mem_range.mp among)
  have back : (List.range (ys.length / 64)).map (chunkAt (xs ++ ys) ∘ (xs.length / 64 + ·)) =
      (List.range (ys.length / 64)).map (chunkAt ys) := List.map_congr_left fun i _ => second i
  rw [chunksExact_eq, chunksExact_eq, chunksExact_eq, count, List.range_add, List.map_append, List.map_map, front, back]

/-- Compression goes on where it stopped, each part on any platform, as long as the first part is whole blocks. -/
theorem sha256Compress_append (first later both : Platform) (state : Vector U32 8) {xs : List U8}
    (whole : 64 ∣ xs.length) (ys : List U8) :
    Arch.sha256Compress later (Arch.sha256Compress first state xs) ys = Arch.sha256Compress both state (xs ++ ys) := by
  simp only [Arch.sha256Compress_eq, Fallback.sha256Compress, chunksExact_append whole, List.foldl_append]

end Split

section Digest

/-- The chaining state that a digest spells. -/
def stateOf (digest : Vector U8 32) : Vector U32 8 :=
  Vector.ofFn fun i => fromBeBytes 32 (digest.toList.extract (4 * i) (4 * i + 4))

theorem stateOf_digestBytes (h : Vector U32 8) : stateOf (digestBytes h) = h := by
  apply Vector.ext
  intro i within
  have listed : i < h.toList.length := by rwa [Vector.length_toList]
  simp only [stateOf, Vector.getElem_ofFn]
  rw [digestBytes_toList, Chunks.piece_flatMap toBeBytes_length listed, Vector.getElem_toList,
    fromBeBytes_toBeBytes (by omega)]

theorem digestBytes_injective : Function.Injective digestBytes :=
  Function.LeftInverse.injective stateOf_digestBytes

end Digest

/-- What `sha256` puts into its last blocks for a message that goes on with `rest` after `before` bytes. -/
def trailer (before : Nat) (rest : List U8) : List U8 :=
  rest ++ [0x80] ++ List.replicate ((119 - (before + rest.length) % 64) % 64) 0 ++
    toBeBytes (BitVec.ofNat 64 (before + rest.length) * 8 : U64)

theorem padded_append (front rest : List U8) : padded (front ++ rest) = front ++ trailer front.length rest := by
  rw [padded_eq, trailer, List.length_append]
  simp only [List.append_assoc]

/-- Length extension: the digest of a padded message that goes on is a function of the message's digest, of how long
it is and of what follows, on any platforms. The message itself is not needed. -/
theorem sha256_extends (platform platform' : Platform) (m rest : List U8) :
    sha256 platform (padded m ++ rest) =
      digestBytes (Arch.sha256Compress platform (stateOf (sha256 platform' m))
        (trailer (64 * ((m.length + 72) / 64)) rest)) := by
  rw [sha256, sha256, stateOf_digestBytes, sha256Compress_append platform' platform platform _ (padded_whole m),
    padded_append, padded_length]

/-- A collision among short inputs is one of the compression function: the blocks of the two padded messages are the
same from some place on, where different blocks or different states were compressed into one. -/
theorem collision_merges {platform : Platform} {inputs : List (List U8)} (short : ∀ x ∈ inputs, x.length < 2 ^ 61)
    (collides : Collides (digest platform) inputs) :
    ∃ x ∈ inputs, ∃ y ∈ inputs,
      Merges Fallback.sha256Chunk SHA256_IV (chunksExact 64 (padded x)) (chunksExact 64 (padded y)) := by
  obtain ⟨x, hx, y, hy, different, same⟩ := collides
  refine ⟨x, hx, y, hy, padded_compliant.merges (fun m _ => flatten_chunksExact (padded_whole m)) (short x hx)
    (short y hy) different ?_⟩
  have states := digestBytes_injective (Vector.toList_inj.mp same)
  rwa [Arch.sha256Compress_eq, Arch.sha256Compress_eq] at states

theorem card_bitVec_lt {m n : Nat} (smaller : m < n) : Fintype.card (BitVec m) < Fintype.card (BitVec n) := by
  rw [Counting.card_bitVec, Counting.card_bitVec]
  exact Nat.pow_lt_pow_right (by omega) smaller

/-- Some pair of messages of thirty-three bytes does collide: there are more of them than digests. -/
theorem collision_merges_occurs : ∃ x y : List U8, x.length = 33 ∧ y.length = 33 ∧
    Merges Fallback.sha256Chunk SHA256_IV (chunksExact 64 (padded x)) (chunksExact 64 (padded y)) := by
  obtain ⟨a, b, different, same⟩ := Fintype.exists_ne_map_eq_of_card_lt
    (fun a : BitVec 264 => fromBeBytes 256 (digest ⟨false, true⟩ (toBeBytes a)))
    (card_bitVec_lt (by omega))
  have spelled : ∀ a : BitVec 264, toBeBytes (fromBeBytes 256 (digest ⟨false, true⟩ (toBeBytes a))) =
      digest ⟨false, true⟩ (toBeBytes a) := fun a => toBeBytes_fromBeBytes (digest_length _ _)
  have digests := (spelled a).symm.trans ((congrArg toBeBytes same).trans (spelled b))
  have inputs : toBeBytes a ≠ toBeBytes b := fun equal => different (toBeBytes_injective (by omega) equal)
  have sizes : ∀ x ∈ [toBeBytes a, toBeBytes b], x.length = 33 := fun x among => by
    rcases List.mem_pair.mp among with rfl | rfl <;> exact toBeBytes_length _
  have collides : Collides (digest ⟨false, true⟩) [toBeBytes a, toBeBytes b] :=
    ⟨toBeBytes a, by simp, toBeBytes b, by simp, inputs, digests⟩
  obtain ⟨x, hx, y, hy, merges⟩ := collision_merges (fun x among => by rw [sizes x among]; decide) collides
  exact ⟨x, y, sizes x hx, sizes y hy, merges⟩

end Pich
