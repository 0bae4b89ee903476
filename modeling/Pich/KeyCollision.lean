import Mathlib.Data.Fintype.Pigeonhole
import Pich.Base.Counting
import Pich.Kdf

namespace Pich
open Hmac

/-- The inputs on which `sha256` is evaluated during a derivation. -/
def derivationQueries (platform : Platform) (key : List U8) : List (List U8) :=
  ((derive256bitKeyM (recorded platform) key).run []).run.2

theorem derive256bitKeyM_recorded (platform : Platform) (key : List U8) :
    ((derive256bitKeyM (recorded platform) key).run []).run = (derive256bitKey platform key,
      hmacQueries platform (List.replicate 32 0) key ++ hmacQueries platform (prk platform key) [0x01]) := by
  have step : ∀ key data seen, ((hmacSha256M (recorded platform) key data).run seen).run =
      (hmacSha256 platform key data, seen ++ hmacQueries platform key data) := fun key data seen => by
    rw [hmacSha256M_recorded, hmacSha256_eq]
    rfl
  rw [derive256bitKey_eq]
  simp only [derive256bitKeyM, StateT.run_bind, StateT.run_pure, Id.run_bind, Id.run_pure]
  rw [step, step, List.nil_append, prk]

theorem mem_hmacQueries {platform : Platform} {key data x : List U8}
    (among : x ∈ [innerInput (digest platform) 64 key data, outerInput (digest platform) 64 key data]) :
    x ∈ hmacQueries platform key data :=
  List.mem_append_right _ among

/-- Two passphrases with one key give two inputs of the hash with one digest. -/
theorem derivation_collision (platform : Platform) {key key' : List U8} (different : key ≠ key')
    (same : splitKeyInto128bitLimbs (derive256bitKey platform key) =
      splitKeyInto128bitLimbs (derive256bitKey platform key')) :
    Collides (digest platform) (derivationQueries platform key ++ derivationQueries platform key') := by
  have queries : ∀ key, derivationQueries platform key =
      hmacQueries platform (List.replicate 32 0) key ++ hmacQueries platform (prk platform key) [0x01] := fun key => by
    rw [derivationQueries, derive256bitKeyM_recorded]
  obtain ⟨high, low⟩ := Prod.mk.inj same
  have okm : hmac (digest platform) 64 (prk platform key) [0x01] =
      hmac (digest platform) 64 (prk platform key') [0x01] := by
    rw [← derive256bitKey_toBeBytes, ← derive256bitKey_toBeBytes, I256.toBeBytes, I256.toBeBytes, high, low]
  have prkSize : ∀ key, (prk platform key).length = 32 := fun key => Vector.length_toList
  rw [queries, queries]
  by_cases keys : prk platform key = prk platform key'
  · have extracted : hmac (digest platform) 64 (List.replicate 32 0) key =
        hmac (digest platform) 64 (List.replicate 32 0) key' := by
      rw [← hmacSha256_toList, ← hmacSha256_toList]
      exact keys
    refine (hmac_collision (by decide) rfl (.inr different) extracted).mono fun x among => ?_
    rcases List.mem_append.mp among with first | second
    · exact List.mem_append_left _ (List.mem_append_left _ (mem_hmacQueries first))
    · exact List.mem_append_right _ (List.mem_append_left _ (mem_hmacQueries second))
  · refine (hmac_collision (by rw [prkSize]; omega) (by rw [prkSize, prkSize]) (.inl keys) okm).mono
      fun x among => ?_
    rcases List.mem_append.mp among with first | second
    · exact List.mem_append_left _ (List.mem_append_right _ (mem_hmacQueries first))
    · exact List.mem_append_right _ (List.mem_append_right _ (mem_hmacQueries second))

/-- Some pair of passphrases does share a key: there are more passphrases than keys. -/
theorem derivation_collision_occurs :
    ∃ key key', key ≠ key' ∧ Collides (digest ⟨true, true⟩)
      (derivationQueries ⟨true, true⟩ key ++ derivationQueries ⟨true, true⟩ key') := by
  obtain ⟨key, key', different, same⟩ := Finite.exists_ne_map_eq_of_infinite
    fun key : List U8 => splitKeyInto128bitLimbs (derive256bitKey ⟨true, true⟩ key)
  exact ⟨key, key', different, derivation_collision ⟨true, true⟩ different same⟩

section Mac

/-- Keys that `hmac_sha256` does not tell apart: equal once long ones are hashed, up to zeros at the end. -/
def Interchangeable (platform : Platform) (key key' : List U8) : Prop :=
  ZeroExtended (entered (digest platform) 64 key) (entered (digest platform) 64 key')

variable {platform : Platform} {key key' : List U8}

theorem digest_fits (x : List U8) : (digest platform x).length ≤ 64 := by
  rw [digest_length]
  omega

theorem interchangeable_iff :
    Interchangeable platform key key' ↔ blockKey (digest platform) 64 key = blockKey (digest platform) 64 key' := by
  rw [blockKey_entered, blockKey_entered]
  exact (filled_eq_iff (entered_length_le digest_fits key) (entered_length_le digest_fits key')).symm

theorem hmacSha256_congr (alike : Interchangeable platform key key') (data : List U8) :
    hmacSha256 platform key data = hmacSha256 platform key' data := by
  rw [hmacSha256_eq, hmacSha256_eq, outerInput, outerInput, innerInput, innerInput, interchangeable_iff.mp alike]

/-- Long keys are hashed, and the digests fill up alike only when they are equal. -/
theorem long_collides (long : 64 < key.length) (long' : 64 < key'.length) (different : key ≠ key')
    (alike : Interchangeable platform key key') (data data' : List U8) :
    Collides (digest platform) (hmacQueries platform key data ++ hmacQueries platform key' data') := by
  have blocks := interchangeable_iff.mp alike
  rw [blockKey, blockKey, if_pos long, if_pos long'] at blocks
  obtain ⟨digests, _⟩ := List.append_inj blocks (by rw [digest_length, digest_length])
  exact ⟨key, by simp [hmacQueries, long], key', by simp [hmacQueries, long'], different, digests⟩

/-- Interchangeable keys have the same codes, and short of a collision of the hash among the inputs that the two
computations hash, equal codes come from one text under interchangeable keys, which are equal if both are long. -/
theorem hmacSha256_binds (platform : Platform) (key key' data data' : List U8) :
    (Interchangeable platform key key' → ∀ text, hmacSha256 platform key text = hmacSha256 platform key' text) ∧
    (Collides (digest platform) (hmacQueries platform key data ++ hmacQueries platform key' data') ∨
      (hmacSha256 platform key data = hmacSha256 platform key' data' ↔
        data = data' ∧ Interchangeable platform key key' ∧ (64 < key.length → 64 < key'.length → key = key'))) := by
  refine ⟨hmacSha256_congr, ?_⟩
  by_cases collides : Collides (digest platform) (hmacQueries platform key data ++ hmacQueries platform key' data')
  · exact .inl collides
  refine .inr ⟨fun same => ?_, ?_⟩
  · have codes : hmac (digest platform) 64 key data = hmac (digest platform) 64 key' data' := by
      rw [← hmacSha256_toList, ← hmacSha256_toList, same]
    rcases hmac_binds (blockKey_length digest_fits key) (blockKey_length digest_fits key') codes with found | ⟨blocks, texts⟩
    · refine absurd (found.mono fun x among => ?_) collides
      rcases List.mem_append.mp among with first | second
      · exact List.mem_append_left _ (mem_hmacQueries first)
      · exact List.mem_append_right _ (mem_hmacQueries second)
    · have alike := interchangeable_iff.mpr blocks
      refine ⟨texts, alike, fun long long' => ?_⟩
      by_contra different
      exact collides (long_collides long long' different alike data data')
  · rintro ⟨rfl, alike, _⟩
    exact hmacSha256_congr alike data

end Mac

end Pich
