import Pich.Bigint.Int256
import Pich.KeySchedule
import Pich.Sha256.Hmac

namespace Pich
open Bytes Hmac

/-- `derive_256bit_key` with every evaluation of `sha256` an action of the monad. -/
def derive256bitKeyM {m : Type → Type} [Monad m] (sha256 : List U8 → m (Vector U8 32)) (key : List U8) :
    m I256 := do
  let defaultSalt : List U8 := List.replicate 32 0
  let prk ← hmacSha256M sha256 defaultSalt key
  let okm ← hmacSha256M sha256 prk.toList [0x01]
  let hi := fromBeBytes 128 (okm.toList.extract 0 16)
  let lo := fromBeBytes 128 (okm.toList.extract 16 32)
  pure { hi, lo }

def derive256bitKey (platform : Platform) (key : List U8) : I256 :=
  (derive256bitKeyM (m := Id) (fun input => pure (sha256 platform input)) key).run

/-- The upper half becomes the word, the lower half the seed. -/
def splitKeyInto128bitLimbs (key : I256) : I128 × I128 := (key.hi, key.lo)

def I256.toBeBytes (key : I256) : List U8 := Bytes.toBeBytes key.hi ++ Bytes.toBeBytes key.lo

def prk (platform : Platform) (key : List U8) : List U8 := (hmacSha256 platform (List.replicate 32 0) key).toList

theorem derive256bitKey_eq (platform : Platform) (key : List U8) :
    derive256bitKey platform key =
      { hi := fromBeBytes 128 ((hmacSha256 platform (prk platform key) [0x01]).toList.extract 0 16)
        lo := fromBeBytes 128 ((hmacSha256 platform (prk platform key) [0x01]).toList.extract 16 32) } := by
  have plain : ∀ key data, Id.run (hmacSha256M (fun input => pure (sha256 platform input)) key data) =
      hmacSha256 platform key data := fun key data => rfl
  simp only [derive256bitKey, derive256bitKeyM, Id.run_bind, Id.run_pure]
  rw [plain, plain, prk]

/-- The derived key is the output of the second call, read as one big-endian number. -/
theorem derive256bitKey_toBeBytes (platform : Platform) (key : List U8) :
    (derive256bitKey platform key).toBeBytes = hmac (digest platform) 64 (prk platform key) [0x01] := by
  have size : (hmac (digest platform) 64 (prk platform key) [0x01]).length = 128 / 8 + 128 / 8 := by
    rw [hmac, digest_length]
  rw [derive256bitKey_eq, hmacSha256_toList]
  exact toBeBytes_halves size

/-- Key derivation follows the standards: HMAC for every key and text, and HKDF for every passphrase under
either convention for no salt. -/
theorem derive256bitKey_conforms (platform : Platform) :
    (∀ key data, (hmacSha256 platform key data).toList = hmac (digest platform) 64 key data) ∧
      ∀ passphrase,
        (derive256bitKey platform passphrase).toBeBytes = hkdf (digest platform) 64 32 none passphrase [] 32 ∧
        (derive256bitKey platform passphrase).toBeBytes = hkdf (digest platform) 64 32 (some []) passphrase [] 32 := by
  have unsalted : ∀ passphrase, (derive256bitKey platform passphrase).toBeBytes =
      hkdf (digest platform) 64 32 none passphrase [] 32 := fun passphrase => by
    rw [hkdf, expand_one (by omega) (by rw [hmac, digest_length]), derive256bitKey_toBeBytes, prk,
      hmacSha256_toList, extract, Option.getD_none, List.nil_append]
  refine ⟨hmacSha256_toList platform, fun passphrase => ⟨unsalted passphrase, ?_⟩⟩
  rw [unsalted, hkdf, hkdf, extract_empty (by omega)]

end Pich
