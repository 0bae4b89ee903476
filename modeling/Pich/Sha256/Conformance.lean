import Pich.Base.Fips180
import Pich.Sha256.Padding

namespace Pich
open Lanes Bytes Sha2 Fips180 Fallback

section Constants

/-- Each constant is bracketed by two cubes around its prime, so no root is ever computed. -/
theorem roundConstant_brackets : ∀ t < 64, ∃ c, c < 7 ∧
    (c * 2 ^ 32 + (roundConstant t).toNat) ^ 3 ≤ primes.getD t 0 * 2 ^ (32 * 3) ∧
    primes.getD t 0 * 2 ^ (32 * 3) < (c * 2 ^ 32 + (roundConstant t).toNat + 1) ^ 3 := by decide +kernel

theorem roundConstant_eq {t : Nat} (within : t < 64) : roundConstant t = constant t := by
  obtain ⟨c, _, low, high⟩ := roundConstant_brackets t within
  rw [constant, nth_prime within, rootFraction_eq low high]

theorem iv_brackets : ∀ i < 8, ∃ c, c < 5 ∧
    (c * 2 ^ 32 + (SHA256_IV.getD i 0).toNat) ^ 2 ≤ primes.getD i 0 * 2 ^ (32 * 2) ∧
    primes.getD i 0 * 2 ^ (32 * 2) < (c * 2 ^ 32 + (SHA256_IV.getD i 0).toNat + 1) ^ 2 := by decide +kernel

theorem iv_eq : toWords SHA256_IV = initial := by
  have word : ∀ i, i < 8 → rootFraction 2 (Nat.nth Nat.Prime i) = SHA256_IV.getD i 0 := fun i within => by
    obtain ⟨c, _, low, high⟩ := iv_brackets i within
    rw [nth_prime (by omega), rootFraction_eq low high]
  simp only [initial, word 0 (by omega), word 1 (by omega), word 2 (by omega), word 3 (by omega),
    word 4 (by omega), word 5 (by omega), word 6 (by omega), word 7 (by omega)]
  rfl

end Constants

section Padding

/-- The padding of the bytes is the padding of the bits, as long as the bit length fits 64 bits. -/
theorem byteBits_padded (data : List U8) : byteBits (padded data) = pad (byteBits data) := by
  have zeroBits : ∀ n, byteBits (List.replicate n 0) = List.replicate (8 * n) false := by
    intro n
    induction n with
    | zero => rfl
    | succ n ih =>
      rw [List.replicate_succ, byteBits, List.flatMap_cons, ← byteBits, ih, Nat.mul_succ, Nat.add_comm,
        ← List.replicate_append_replicate]
      rfl
  have marker : byteBits [0x80] = [true] ++ List.replicate 7 false := by decide
  have count : zeros (8 * data.length) = 7 + 8 * ((119 - data.length % 64) % 64) := by
    rw [zeros_eq]
    omega
  have length : BitVec.ofNat 64 data.length * 8 = BitVec.ofNat 64 (8 * data.length) := by
    rw [BitVec.ofNat_mul, BitVec.mul_comm]
    rfl
  rw [padded_eq, pad, byteBits_append, byteBits_append, byteBits_append, zeroBits, marker,
    byteBits_toBeBytes (by omega), byteBits_length, count, length, ← List.replicate_append_replicate]
  simp only [List.append_assoc]

end Padding

section Blocks

def chunkAt (bytes : List U8) (i : Nat) : Vector U8 64 := Vector.ofFn fun j => bytes.getD (64 * i + j) 0

theorem chunksExact_eq (bytes : List U8) :
    chunksExact 64 bytes = (List.range (bytes.length / 64)).map (chunkAt bytes) := by
  apply List.ext_getElem
  · simp [chunksExact]
  · intro i bound _
    have within : i < bytes.length / 64 := by simpa [chunksExact] using bound
    simp only [chunksExact, List.getElem_map, List.getElem_finRange, List.getElem_range, chunkAt]
    congr 1
    funext j
    have inside := chunk_room within j.isLt
    simp [List.getD_eq_getElem?_getD, inside]

theorem chunkAt_toList {bytes : List U8} {i : Nat} (within : 64 * (i + 1) ≤ bytes.length) :
    (chunkAt bytes i).toList = (bytes.drop (64 * i)).take 64 := by
  apply List.ext_getElem
  · simp
    omega
  · intro j bound _
    have small : j < 64 := by simpa using bound
    have inside : 64 * i + j < bytes.length := by omega
    simp [chunkAt, List.getD_eq_getElem?_getD, inside]

/-- Where the length is whole no byte is dropped at the end. -/
theorem flatten_chunksExact {bytes : List U8} (whole : 64 ∣ bytes.length) :
    (chunksExact 64 bytes).flatMap Vector.toList = bytes := by
  have reached : ∀ n, 64 * n ≤ bytes.length →
      ((List.range n).map (chunkAt bytes)).flatMap Vector.toList = bytes.take (64 * n) := by
    intro n
    induction n with
    | zero => exact fun _ => rfl
    | succ n ih =>
      intro room
      rw [List.range_succ, List.map_append, List.flatMap_append, ih (by omega), List.map_singleton,
        List.flatMap_singleton, chunkAt_toList room, Nat.mul_succ, List.take_add]
  have covers := Nat.mul_div_cancel' whole
  rw [chunksExact_eq, reached _ (Nat.le_of_eq covers), covers, List.take_length]

theorem chunkWord_chunkAt (bytes : List U8) (i : Nat) {t : Nat} (within : t < 16) :
    chunkWord (chunkAt bytes i) t = block (byteBits bytes) i t := by
  apply BitVec.eq_of_getLsbD_eq
  intro j hj
  have bit := congrArg (fun b => b.getLsbD (j % 8)) (lane_chunkWord (chunkAt bytes i) t (show j / 8 < 4 by omega))
  have fetched : (chunkAt bytes i).getD (t * 4 + (3 - j / 8)) 0 = bytes.getD (64 * i + (t * 4 + (3 - j / 8))) 0 := by
    have inside : t * 4 + (3 - j / 8) < 64 := by omega
    simp [chunkAt, Vector.getD, inside]
  have byte : (512 * i + 32 * t + 31 - j) / 8 = 64 * i + (t * 4 + (3 - j / 8)) := by omega
  have offset : (512 * i + 32 * t + 31 - j) % 8 = 7 - j % 8 := by omega
  have small : j % 8 < 8 := Nat.mod_lt j (by omega)
  simp only [getLsbD_lane, small, Nat.div_add_mod, decide_true, Bool.true_and, fetched] at bit
  rw [bit, block, getLsbD_wordAt _ _ hj, List.getD_eq_getElem?_getD, List.getD_eq_getElem?_getD, byteBits_getElem?,
    byte, offset]
  cases bytes[64 * i + (t * 4 + (3 - j / 8))]? with
  | none => simp
  | some b =>
    have back : 8 - 1 - (7 - j % 8) = j % 8 := by omega
    simp only [Option.map_some, Option.getD_some, BitVec.getMsbD, back, show 7 - j % 8 < 8 by omega, decide_true,
      Bool.true_and]

/-- After `n` chunks the state is the `n`-th hash value of the standard. -/
theorem foldl_chunks (bytes : List U8) (n : Nat) :
    ((List.range n).map (chunkAt bytes)).foldl (fun v chunk => compress roundConstant (chunkWord chunk) v) initial =
      hashValue (byteBits bytes) n := by
  induction n with
  | zero => rfl
  | succ n ih =>
    rw [List.range_succ, List.map_append, List.foldl_append, ih, List.map_singleton, List.foldl_cons, List.foldl_nil,
      hashValue]
    exact compress_congr _ (fun t bound => roundConstant_eq bound) fun t bound => chunkWord_chunkAt bytes n bound

end Blocks

/-- The digest of a byte string is the digest of its bits: nothing overflows, nothing is dropped, and the
padding, the schedule, the rounds and the chaining are those of the standard. -/
theorem sha256_conforms (platform : Platform) (data : List U8) (short : data.length < 2 ^ 61) :
    (BitVec.ofNat 64 data.length).toNat = data.length ∧
      BitVec.umulOverflow (BitVec.ofNat 64 data.length) 8 = false ∧
      64 ∣ (padded data).length ∧
      (chunksExact 64 (padded data)).flatMap Vector.toList = padded data ∧
      byteBits (sha256 platform data).toList = Fips180.sha256 (byteBits data) := by
  have cast : (BitVec.ofNat 64 data.length).toNat = data.length := by
    rw [BitVec.toNat_ofNat]
    omega
  have digest : byteBits (sha256 platform data).toList = Fips180.sha256 (byteBits data) := by
    have blocks : (8 * (padded data).length) / 512 = (padded data).length / 64 := by omega
    have words : ∀ v : Words, byteBits ((ofWords v).toList.flatMap toBeBytes) =
        [v.a, v.b, v.c, v.d, v.e, v.f, v.g, v.h].flatMap wordBits := fun v => by
      simp [ofWords, byteBits_toBeBytes]
    rw [sha256_toList, Fallback.sha256Compress_eq, iv_eq, chunksExact_eq, foldl_chunks, words]
    simp only [Fips180.sha256, ← byteBits_padded, byteBits_length, blocks]
  refine ⟨cast, ?_, padded_whole data, flatten_chunksExact (padded_whole data), digest⟩
  rw [BitVec.umulOverflow, cast]
  simp
  omega

/-- Sixty bytes: the bit length no longer fits behind them, so the padding fills a second block. -/
theorem sha256_conforms_spilling :
    byteBits (sha256 ⟨true, false⟩ (List.replicate 60 0x61)).toList =
      Fips180.sha256 (byteBits (List.replicate 60 0x61)) :=
  (sha256_conforms ⟨true, false⟩ (List.replicate 60 0x61) (by decide)).2.2.2.2

end Pich
