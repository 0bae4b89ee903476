import Pich.Base.Checked
import Pich.Base.Chunks
import Pich.X86.Aes
import Pich.X86.Sbox

namespace Pich.X86
open Lanes Bytes Intel Chunks

/-- A chunk loaded into a register, substituted, and stored back over itself. -/
def overwrite {m : Nat} (f : BitVec m → BitVec m) (chunk : List U8) : Option (List U8) := do
  let x ← loadu m chunk 0
  storeu chunk 0 (f x)

def scalarTail (rest : List U8) : Option (List U8) := some (Fallback.subBytes rest)

def subBytesSsse3 (bytes : List U8) : Option (List U8) :=
  chunksExactMut 16 (overwrite subBytesX16Ssse3) scalarTail bytes

/-- The tail of the wide loop goes to the narrow one, which has a tail of its own. -/
def subBytesAvx2 (bytes : List U8) : Option (List U8) :=
  chunksExactMut 32 (overwrite subBytesX32Avx2) subBytesSsse3 bytes

/-- One mask bit set per live byte. -/
def tailMask (rest : List U8) : Option (BitVec 64) := do
  let bit ← Checked.shl 1 rest.length
  Checked.sub bit 1

/-- The tail in one masked load and one masked store; none at all when nothing is left. -/
def maskedTail (rest : List U8) : Option (List U8) :=
  if rest.isEmpty then some rest
  else do
    let mask ← tailMask rest
    let v ← maskzLoadu mask rest
    let s := subBytesX64Avx512 v
    maskStoreu rest mask s

def subBytesAvx512 (bytes : List U8) : Option (List U8) :=
  chunksExactMut 64 (overwrite subBytesX64Avx512) maskedTail bytes

def subBytesAesni (bytes : List U8) : Option (List U8) :=
  let zero : BitVec 128 := 0
  chunksExactMut 16 (overwrite fun x => subBytesXorX16Aesni x zero) scalarTail bytes

def subBytesGfni (bytes : List U8) : Option (List U8) :=
  chunksExactMut 16 (overwrite subBytesX16Gfni) scalarTail bytes

theorem overwrite_eq {m : Nat} {f : BitVec m → BitVec m} (lanes : ∀ x i, i < m / 8 → lane 8 (f x) i = sbox (lane 8 x i))
    {chunk : List U8} (size : chunk.length = m / 8) : overwrite f chunk = some (chunk.map sbox) := by
  have room : 0 + m / 8 ≤ chunk.length := by omega
  have stored : toLeBytes (f (fromLeBytes m (chunk.drop 0))) = chunk.map sbox := by
    apply List.ext_getElem?
    intro i
    by_cases within : i < m / 8
    · have bound : i < chunk.length := by omega
      rw [toLeBytes_getElem? _ within, lanes _ i within, lane_fromLeBytes _ within, List.drop_zero, List.getElem?_map,
        List.getD_eq_getElem?_getD, List.getElem?_eq_getElem bound, Option.getD_some, Option.map_some]
    · rw [List.getElem?_eq_none (by rw [toLeBytes_length]; omega),
        List.getElem?_eq_none (by rw [List.length_map]; omega)]
  rw [overwrite, loadu_eq room, Option.bind_eq_bind, Option.bind_some, storeu_eq _ room, stored, List.take_zero,
    List.nil_append, List.drop_eq_nil_of_le (by omega), List.append_nil]

/-- A chunk loop whose body substitutes every byte of a register, and whose tail does so too. -/
theorem chunks_eq {m : Nat} {f : BitVec m → BitVec m} {tail : List U8 → Option (List U8)} (positive : 0 < m / 8)
    (lanes : ∀ x i, i < m / 8 → lane 8 (f x) i = sbox (lane 8 x i))
    (rest : ∀ xs : List U8, xs.length < m / 8 → tail xs = some (xs.map sbox)) (bytes : List U8) :
    chunksExactMut (m / 8) (overwrite f) tail bytes = some (bytes.map sbox) :=
  chunksExactMut_map positive (fun _ size => overwrite_eq lanes size) rest bytes

theorem subBytesSsse3_eq (bytes : List U8) : subBytesSsse3 bytes = some (bytes.map sbox) :=
  chunks_eq (m := 128) (by omega) (fun x _ within => lane_subBytesX16Ssse3 x within) (fun _ _ => rfl) bytes

theorem subBytesAvx2_eq (bytes : List U8) : subBytesAvx2 bytes = some (bytes.map sbox) :=
  chunks_eq (m := 256) (by omega) (fun x _ within => lane_subBytesX32Avx2 x within)
    (fun rest _ => subBytesSsse3_eq rest) bytes

theorem subBytesAesni_eq (bytes : List U8) : subBytesAesni bytes = some (bytes.map sbox) :=
  chunks_eq (m := 128) (by omega)
    (fun x i within => by
      have unkeyed : Fallback.substitute x ^^^ (0 : BitVec 128) = Fallback.substitute x := BitVec.xor_zero
      rw [subBytesXorX16Aesni_eq, unkeyed, Fallback.lane_substitute x within])
    (fun _ _ => rfl) bytes

theorem subBytesGfni_eq (bytes : List U8) : subBytesGfni bytes = some (bytes.map sbox) :=
  chunks_eq (m := 128) (by omega)
    (fun x i within => by rw [subBytesX16Gfni_eq, Fallback.lane_substitute x within]) (fun _ _ => rfl) bytes

/-- For fewer than 64 live bytes the mask is there, and selects exactly them. -/
theorem tailMask_live {rest : List U8} (short : rest.length < 64) :
    ∃ mask, tailMask rest = some mask ∧ ∀ i, mask.getLsbD i = decide (i < rest.length) := by
  have one : (1 : BitVec 64).toNat = 1 := rfl
  have small : 2 ^ rest.length < 2 ^ 64 := Nat.pow_lt_pow_right (by omega) short
  have positive := Nat.two_pow_pos rest.length
  obtain ⟨bit, shifted, power⟩ := Checked.shl_exact (a := (1 : BitVec 64)) _ short
    (by rwa [one, Nat.one_mul])
  rw [one, Nat.one_mul] at power
  obtain ⟨mask, computed, value⟩ := Checked.sub_exact (a := bit) (b := 1) (by rwa [one, power])
  refine ⟨mask, by simp only [tailMask, shifted, computed, Option.bind_eq_bind, Option.bind_some], fun i => ?_⟩
  rw [BitVec.getLsbD, value, power, one, Nat.testBit_two_pow_sub_one]

/-- No masked access fails, and the bytes beyond the slice stay out of it. -/
theorem maskedTail_eq {rest : List U8} (short : rest.length < 64) : maskedTail rest = some (rest.map sbox) := by
  obtain ⟨mask, computed, live⟩ := tailMask_live short
  have inside : covered mask rest.length := fun i _ set => by
    rw [live] at set
    exact of_decide_eq_true set
  have loaded : maskzLoadu mask rest =
      some (ofLanes 512 (fun i => if mask.getLsbD i then rest.getD i 0 else 0) 64) := if_pos inside
  rw [maskedTail]
  split
  · rename_i empty
    rw [List.isEmpty_iff.mp empty, List.map_nil]
  · simp only [computed, loaded, Option.bind_eq_bind, Option.bind_some]
    rw [maskStoreu, if_pos inside]
    congr 1
    refine List.ext_getElem (by rw [List.length_mapIdx, List.length_map]) fun i bound _ => ?_
    rw [List.length_mapIdx] at bound
    have selected : mask.getLsbD i = true := by rw [live, decide_eq_true bound]
    rw [List.getElem_mapIdx, List.getElem_map, if_pos selected, lane_subBytesX64Avx512 _ (by omega),
      lane_ofLanes _ (by omega) (by omega), if_pos selected, List.getD_eq_getElem?_getD,
      List.getElem?_eq_getElem bound, Option.getD_some]

theorem subBytesAvx512_eq (bytes : List U8) : subBytesAvx512 bytes = some (bytes.map sbox) :=
  chunks_eq (m := 512) (by omega) (fun x _ within => lane_subBytesX64Avx512 x within)
    (fun _ short => maskedTail_eq short) bytes

/-- The shuffle-based code substitutes every byte of a slice of any length, and its rounds are the portable one. -/
theorem shuffle_backends_eq_table :
    (∀ bytes, subBytesSsse3 bytes = some (bytes.map sbox) ∧ subBytesAvx2 bytes = some (bytes.map sbox)) ∧
      ∀ w subKey, round128Ssse3 w subKey = Fallback.round128 w subKey ∧
        round128Avx2 w subKey = Fallback.round128 w subKey :=
  ⟨fun bytes => ⟨subBytesSsse3_eq bytes, subBytesAvx2_eq bytes⟩,
    fun w subKey => ⟨round128Ssse3_eq w subKey, round128Avx2_eq w subKey⟩⟩

/-- The code over the AES instructions substitutes every byte of a slice, and its rounds are the portable one. -/
theorem aes_backends_eq_table :
    (∀ w subKey, round128Aesni w subKey = Fallback.round128 w subKey ∧
        round128Gfni w subKey = Fallback.round128 w subKey) ∧
      ∀ bytes, subBytesAesni bytes = some (bytes.map sbox) ∧ subBytesGfni bytes = some (bytes.map sbox) :=
  ⟨fun w subKey => ⟨round128Aesni_eq w subKey, round128Gfni_eq w subKey⟩,
    fun bytes => ⟨subBytesAesni_eq bytes, subBytesGfni_eq bytes⟩⟩

/-- The masked tail touches the live bytes and no others: a masked access fails when it would. -/
theorem avx512_backend_eq_table :
    (∀ bytes, subBytesAvx512 bytes = some (bytes.map sbox)) ∧
      (∀ rest : List U8, rest.length < 64 →
        ∃ mask, tailMask rest = some mask ∧ ∀ i, mask.getLsbD i = decide (i < rest.length)) ∧
      ∀ upper w subKey, round128Avx512 upper w subKey = Fallback.round128 w subKey :=
  ⟨subBytesAvx512_eq, fun _ short => tailMask_live short, round128Avx512_eq⟩

end Pich.X86
