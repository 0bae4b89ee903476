import Pich.Base.Hmac
import Pich.Base.Loops
import Pich.Sha256.Digest

namespace Pich
open Bytes Hmac

def resize (n : Nat) (bytes : List U8) : Vector U8 n :=
  ⟨(bytes.take n ++ List.replicate (n - bytes.length) 0).toArray, by simp; omega⟩

/-- The loop that fills both pads at once. -/
def keyPads (key : Vector U8 64) : Vector U8 64 × Vector U8 64 :=
  Nat.fold 64 (fun i _ (iKeyPad, oKeyPad) => (iKeyPad.set i (key[i] ^^^ 0x36), oKeyPad.set i (key[i] ^^^ 0x5c)))
    (Vector.replicate 64 0, Vector.replicate 64 0)

/-- `hmac_sha256` with every evaluation of `sha256` an action of the monad. -/
def hmacSha256M {m : Type → Type} [Monad m] (sha256 : List U8 → m (Vector U8 32)) (key data : List U8) :
    m (Vector U8 32) := do
  let key ← if key.length > 64 then do
      let digest ← sha256 key
      pure digest.toList
    else pure key
  let key := resize 64 key
  let (iKeyPad, oKeyPad) := keyPads key
  let innerData := iKeyPad.toList ++ data
  let innerHash ← sha256 innerData
  let outerData := oKeyPad.toList ++ innerHash.toList
  sha256 outerData

def hmacSha256 (platform : Platform) (key data : List U8) : Vector U8 32 :=
  (hmacSha256M (m := Id) (fun input => pure (sha256 platform input)) key data).run

def digest (platform : Platform) (data : List U8) : List U8 := (sha256 platform data).toList

@[simp] theorem digest_length (platform : Platform) (data : List U8) : (digest platform data).length = 32 := by
  rw [digest, Vector.length_toList]

theorem fold_mask (key : Vector U8 64) (mask : U8) :
    (Nat.fold 64 (fun i _ pad => pad.set i (key[i] ^^^ mask)) (Vector.replicate 64 0)).toList =
      key.toList.map (· ^^^ mask) := by
  have masked : ∀ t (_ : t < 64), (Nat.fold 64 (fun i _ pad => pad.set i (key[i] ^^^ mask))
      (Vector.replicate 64 0))[t] = key.getD t 0 ^^^ mask := fun t within =>
    Loops.getElem_fold_set 0 64 (by omega) _ (fun t => key.getD t 0 ^^^ mask) _
      (fun t none => by omega) (fun i below _ _ => by simp [Vector.getD, below]) t within
  apply List.ext_getElem
  · rw [Vector.length_toList, List.length_map, Vector.length_toList]
  · intro t bound _
    have within : t < 64 := by rwa [Vector.length_toList] at bound
    rw [Vector.getElem_toList, masked t within]
    simp [Vector.getD, within]

/-- The pads are the key under the two masks. -/
theorem keyPads_eq (key : Vector U8 64) :
    (keyPads key).1.toList = xorBytes key.toList (List.replicate 64 0x36) ∧
      (keyPads key).2.toList = xorBytes key.toList (List.replicate 64 0x5c) := by
  have size : key.toList.length = 64 := Vector.length_toList
  have pads : keyPads key =
      (Nat.fold 64 (fun i _ pad => pad.set i (key[i] ^^^ 0x36)) (Vector.replicate 64 0),
        Nat.fold 64 (fun i _ pad => pad.set i (key[i] ^^^ 0x5c)) (Vector.replicate 64 0)) :=
    Loops.fold_pair (fun i (_ : i < 64) (pad : Vector U8 64) => pad.set i (key[i] ^^^ 0x36))
      (fun i (_ : i < 64) (pad : Vector U8 64) => pad.set i (key[i] ^^^ 0x5c)) _ _
  rw [pads, xorBytes_replicate size, xorBytes_replicate size]
  exact ⟨fold_mask key 0x36, fold_mask key 0x5c⟩

theorem resize_toList {key : List U8} (fits : key.length ≤ 64) :
    (resize 64 key).toList = key ++ List.replicate (64 - key.length) 0 := by
  simp [resize, List.take_of_length_le fits]

/-- The inputs that one call hashes, in order: a key that is too long first. -/
def hmacQueries (platform : Platform) (key data : List U8) : List (List U8) :=
  (if key.length > 64 then [key] else []) ++
    [innerInput (digest platform) 64 key data, outerInput (digest platform) 64 key data]

/-- `sha256` that also records its input. -/
def recorded (platform : Platform) (input : List U8) : StateM (List (List U8)) (Vector U8 32) := do
  modify (· ++ [input])
  pure (sha256 platform input)

/-- The pads of the code are those of the construction, for short keys and for hashed ones. -/
theorem pads_blockKey (platform : Platform) (key : List U8) :
    (keyPads (resize 64 (if key.length > 64 then digest platform key else key))).1.toList =
        xorBytes (blockKey (digest platform) 64 key) (List.replicate 64 0x36) ∧
      (keyPads (resize 64 (if key.length > 64 then digest platform key else key))).2.toList =
        xorBytes (blockKey (digest platform) 64 key) (List.replicate 64 0x5c) := by
  have block : (resize 64 (if key.length > 64 then digest platform key else key)).toList =
      blockKey (digest platform) 64 key := by
    rw [blockKey]
    split
    · rw [resize_toList (by rw [digest_length]; omega)]
    · rw [resize_toList (by omega)]
  rw [(keyPads_eq _).1, (keyPads_eq _).2, block]
  exact ⟨rfl, rfl⟩

/-- A recorded call returns the outer digest and has hashed exactly its queries. -/
theorem hmacSha256M_recorded (platform : Platform) (key data : List U8) (seen : List (List U8)) :
    (hmacSha256M (recorded platform) key data).run seen =
      (sha256 platform (outerInput (digest platform) 64 key data), seen ++ hmacQueries platform key data) := by
  obtain ⟨inner, outer⟩ := pads_blockKey platform key
  simp only [outerInput, innerInput, hmacQueries, ← inner, ← outer]
  unfold hmacSha256M recorded
  split <;> simp <;> rfl

theorem hmacSha256_eq (platform : Platform) (key data : List U8) :
    hmacSha256 platform key data = sha256 platform (outerInput (digest platform) 64 key data) := by
  obtain ⟨inner, outer⟩ := pads_blockKey platform key
  simp only [outerInput, innerInput, ← inner, ← outer]
  unfold hmacSha256 hmacSha256M
  split <;> rfl

/-- The source's function is the general construction over its own digest. -/
theorem hmacSha256_toList (platform : Platform) (key data : List U8) :
    (hmacSha256 platform key data).toList = hmac (digest platform) 64 key data := by
  rw [hmacSha256_eq, hmac, digest]

end Pich
