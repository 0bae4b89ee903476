import Mathlib.Data.Nat.Fib.Basic
import Pich.KeyChain
import Pich.Sha256.Conformance
import Pich.Specification

/-! The cipher of the design document, from the standards it names: SHA-256, HMAC, HKDF and the Rijndael S-box. -/

namespace Pich.Design
open Lanes Bytes Hmac Generator

/-- One block of HKDF, without salt and info. -/
noncomputable def okm (pass : List U8) : List U8 := hkdf Fips180.hash 64 32 none pass [] 32

noncomputable def w0 (pass : List U8) : U128 := fromBeBytes 128 ((okm pass).extract 0 16)

noncomputable def ke (pass : List U8) : U128 := fromBeBytes 128 ((okm pass).extract 16 32)

/-- The round constants are Fibonacci numbers. -/
def rc (i : Nat) : Nat := Nat.fib (i + 1)

/-- The expansion of a constant to 64 bits. -/
def p (x : U64) : U64 := x <<< 48 ||| x <<< 32 ||| x <<< 16 ||| x

def g (x : U128) (rc : U64) : U128 :=
  let y1 := x.rotateLeft 7
  let y2 := BitVec.ofNat 128 (y1.toNat * rc.toNat)
  let y3 := y2.rotateRight 4
  let y3 := fromLeBytes 128 ((toLeBytes y3).set 14 (Gf256.rijndael (lane 8 y3 14)))
  y3.rotateLeft 4

def rk (seed : U128) : Nat → U128
  | 0 => seed
  | i + 1 => g (rk seed i) (p (BitVec.ofNat 64 (rc (i + 1))))

/-- The confusion core: widen with zeros, substitute all 24 bytes, keep the low sixteen. -/
def f (x : U128) : U128 :=
  let wide := x.setWidth 192
  let substituted := ofLanes 192 (fun k => Gf256.rijndael (lane 8 wide k)) 24
  substituted.setWidth 128

/-- The state after `t` rounds. -/
noncomputable def w (pass : List U8) : Nat → U128
  | 0 => w0 pass
  | t + 1 => f ((w pass t).rotateRight 7) ^^^ rk (ke pass) (t % 16)

/-- Keystream byte `t`: two rounds more, then the byte that the low nibble of the first one names. -/
noncomputable def z (pass : List U8) (t : Nat) : U8 :=
  let w := w pass (62 + 2 * (t + 1))
  lane 8 w ((lane 8 w 0).toNat % 16)

theorem f_eq (x : U128) : f x = Fallback.substitute x := by
  refine Fallback.eq_substitute fun i within => ?_
  rw [f, lane_setWidth _ (by omega), lane_ofLanes _ (by omega) (by omega), lane_setWidth _ (by omega),
    sbox_eq_rijndael]

/-- The tabulated constants are the expanded Fibonacci numbers. -/
theorem rc_eq : ∀ i < 15, (roundRc (0 + i + 1)).signExtend 128 = (p (BitVec.ofNat 64 (rc (i + 1)))).setWidth 128 := by
  decide

theorem g_eq (x : U128) {i : Nat} (listed : i < 15) :
    g x (p (BitVec.ofNat 64 (rc (i + 1)))) = Pich.g plain x (roundRc (0 + i + 1)) := by
  have seven : (7 : U32).toNat = 7 := rfl
  have four : (4 : U32).toNat = 4 := rfl
  have multiplied : BitVec.ofNat 128 ((x.rotateLeft 7).toNat * (p (BitVec.ofNat 64 (rc (i + 1)))).toNat) =
      x.rotateLeft 7 * (roundRc (0 + i + 1)).signExtend 128 := by
    rw [rc_eq i listed]
    apply BitVec.eq_of_toNat_eq
    rw [BitVec.toNat_ofNat, BitVec.toNat_mul, BitVec.toNat_setWidth, Nat.mul_mod_mod]
  simp only [g, Pich.g, Arch.rotl128_eq, Arch.mul128_eq, Arch.rotr128_eq, seven, four, multiplied]
  rw [toLeBytes_getD _ (by omega), sbox_eq_rijndael]

theorem rk_eq (seed : U128) {i : Nat} (listed : i < 16) : rk seed i = walk plain 0 i seed := by
  induction i with
  | zero => rfl
  | succ i ih => rw [rk, walk, ih (by omega), g_eq _ (by omega)]

theorem digest_eq (platform : Platform) : digest platform = Fips180.hash := by
  funext data
  have words : ∀ v : Sha2.Words, Fips180.byteBits ((Fallback.ofWords v).toList.flatMap toBeBytes) =
      [v.a, v.b, v.c, v.d, v.e, v.f, v.g, v.h].flatMap Fips180.wordBits := fun v => by
    simp [Fallback.ofWords, Fips180.byteBits_toBeBytes]
  have blocks : (8 * (padded data).length) / 512 = (padded data).length / 64 := by omega
  have bits : Fips180.byteBits (digest platform data) = Fips180.sha256 (Fips180.byteBits data) := by
    rw [digest, sha256_toList, Fallback.sha256Compress_eq, iv_eq, chunksExact_eq, foldl_chunks, words]
    simp only [Fips180.sha256, ← byteBits_padded, Fips180.byteBits_length, blocks]
  rw [Fips180.hash, ← bits, Fips180.octets_byteBits]

theorem okm_eq (pass : List U8) : okm pass = (derive256bitKey plain pass).toBeBytes := by
  rw [okm, ← digest_eq plain, hkdf, expand_one (by omega) (by rw [hmac, digest_length]), derive256bitKey_toBeBytes,
    Pich.prk, hmacSha256_toList, extract, Option.getD_none, List.nil_append]

theorem limbs_eq (pass : List U8) :
    w0 pass = (derive256bitKey plain pass).hi ∧ ke pass = (derive256bitKey plain pass).lo := by
  have size : ∀ x : I128, (toBeBytes x).length = 16 := toBeBytes_length
  have whole : ∀ x : I128, (toBeBytes x).take 16 = toBeBytes x := fun x => List.take_of_length_le (Nat.le_of_eq (size x))
  rw [w0, ke, okm_eq, I256.toBeBytes, List.extract_eq_take_drop, List.extract_eq_take_drop, List.drop_zero,
    Nat.sub_zero, List.take_left' (size _), List.drop_left' (size _), whole, fromBeBytes_toBeBytes (by omega),
    fromBeBytes_toBeBytes (by omega)]
  exact ⟨rfl, rfl⟩

theorem ring_key (baseKey : String) (t : Nat) : (ring baseKey).key t = rk (ke (Pich256.asBytes baseKey)) (t % 16) := by
  have found := (ring baseKey).getElem?_mod t
  have sixteen : (ring baseKey).keys.length = 16 := State.keyRing_length plain _
  have small : t % 16 < 16 := Nat.mod_lt t (by omega)
  have listed : (ring baseKey).keys = (List.range 16).map fun i => walk plain 0 i (seed baseKey).lo :=
    genSubKeys_eq plain (seed baseKey).lo
  rw [sixteen, listed, List.getElem?_map, List.getElem?_range small, Option.map_some] at found
  rw [rk_eq _ small, (limbs_eq _).2]
  exact (Option.some.inj found).symm

/-- The rounds of the cipher are those of the document. -/
theorem w_eq (baseKey : String) (t : Nat) : w (Pich256.asBytes baseKey) t = word baseKey t := by
  induction t with
  | zero => exact (limbs_eq _).1
  | succ t ih =>
    have next : word baseKey (t + 1) = Fallback.round128 (word baseKey t) ((ring baseKey).key (0 + t)) :=
      rounds_add Fallback.round128 (ring baseKey).key 0 t 1 (seed baseKey).hi
    rw [w, ih, next, f_eq, ← ring_key, Nat.zero_add, Fallback.round128_eq]

theorem z_eq (baseKey : String) (t : Nat) : z (Pich256.asBytes baseKey) t = keystreamByte baseKey t := by
  have nibble : ∀ b : U8, b.toNat % 16 = (b &&& 0x0f).toNat := fun b => by
    rw [BitVec.toNat_and]
    exact (Nat.and_two_pow_sub_one_eq_mod _ 4).symm
  rw [z, w_eq, nibble, keystreamByte, tapped]
  rfl

/-- On every platform and under any decisions, a program of ciphers returns what the cipher of the document returns,
and fails where a handle names no cipher. -/
theorem program_conforms (platform : Platform) (ops : List Op) :
    (Runs.run (Op.apply platform) ops []).map Prod.fst =
      (Runs.run (StreamCipher.apply (fun baseKey => z (Pich256.asBytes baseKey)) (· ^^^ ·)) (ops.map Op.spec) []).map
        Prod.fst := by
  have stream : (fun baseKey => z (Pich256.asBytes baseKey)) = keystreamByte := by
    funext baseKey t
    exact z_eq baseKey t
  have refined := Runs.run_image (Op.apply_ideal platform) ops []
  rw [List.map_nil] at refined
  rw [stream, refined, Option.map_map]
  rfl

end Pich.Design
