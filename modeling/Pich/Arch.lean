import Pich.X86.Int
import Pich.X86.Keystream
import Pich.X86.Sha
import Pich.X86.SubBytes
import Pich.X86.Xor

namespace Pich

/-- The strategies a dispatch can choose from. -/
inductive Backend
  | fallback
  | sse2
  | ssse3
  | avx2
  | avx512Vbmi
  | aesNi
  | gfni
  deriving DecidableEq, Repr

/-- What is fixed for a process: the `asm` feature of the build on x86_64, and whether `has_sha_ni`
answers yes on the host. -/
structure Platform where
  asm : Bool
  shaNi : Bool
  deriving DecidableEq, Repr

/-- What one dispatch observes: the answers of `backend` and `has_avx2`, and for each round under it, in the order in
which they are made, the bits that a widening AVX-512 cast happens to leave undefined. -/
structure Decision where
  backend : Backend
  hasAvx2 : Bool
  upper : Nat → BitVec 384

def Decision.portable : Decision := { backend := .fallback, hasAvx2 := false, upper := fun _ => 0 }

namespace Arch

/-- One round by the strategy of the decision; `Sse2` has none of its own and runs the portable one. -/
def round128 (decision : Decision) (w subKey : U128) : U128 :=
  match decision.backend with
  | .gfni => X86.round128Gfni w subKey
  | .aesNi => X86.round128Aesni w subKey
  | .avx512Vbmi => X86.round128Avx512 (decision.upper 0) w subKey
  | .avx2 => X86.round128Avx2 w subKey
  | .ssse3 => X86.round128Ssse3 w subKey
  | _ => Fallback.round128 w subKey

def subBytes (decision : Decision) (bytes : List U8) : Option (List U8) :=
  match decision.backend with
  | .gfni => X86.subBytesGfni bytes
  | .aesNi => X86.subBytesAesni bytes
  | .avx512Vbmi => X86.subBytesAvx512 bytes
  | .avx2 => X86.subBytesAvx2 bytes
  | .ssse3 => X86.subBytesSsse3 bytes
  | _ => some (Fallback.subBytes bytes)

/-- The bulk loop; only AVX2 has one of its own, the others are the portable loop around their round. -/
def fillKeystream (decision : Decision) (w : U128) (schedule : List U128) (roundIndex : Usize) (out : Nat) :
    Option (U128 × Usize × List U8) :=
  match decision.backend with
  | .gfni => X86.fillKeystreamGfni w schedule roundIndex out
  | .aesNi => X86.fillKeystreamAesni w schedule roundIndex out
  | .avx512Vbmi => X86.fillKeystreamAvx512 decision.upper w schedule roundIndex out
  | .avx2 => X86.fillKeystreamAvx2 w schedule roundIndex out
  | .ssse3 => X86.fillKeystreamSsse3 w schedule roundIndex out
  | _ => keystreamCore w schedule roundIndex out Fallback.round128

/-- The integer primitives go by the build, not by the host. -/
def rotl128 (platform : Platform) (x : U128) (n : U32) : U128 :=
  if platform.asm then X86.Int.rotl128 x n else Fallback.rotl128 x n

def rotr128 (platform : Platform) (x : U128) (n : U32) : U128 :=
  if platform.asm then X86.Int.rotr128 x n else Fallback.rotr128 x n

def mul128 (platform : Platform) (a b : U128) : U128 :=
  if platform.asm then X86.Int.mul128 a b else Fallback.mul128 a b

/-- The bulk XOR asks for the vector width, not for the S-box strategy. -/
def xorInto (decision : Decision) (dst src : List U8) : Option (List U8) :=
  if decision.backend ≠ .fallback then
    if decision.hasAvx2 then X86.xorIntoAvx2 dst src else X86.xorIntoSse2 dst src
  else some (Fallback.xorInto dst src)

/-- The compression goes by `has_sha_ni` alone, whatever backend is selected. -/
def sha256Compress (platform : Platform) (state : Vector U32 8) (blocks : List U8) : Vector U32 8 :=
  if platform.shaNi then X86.sha256CompressShani state blocks else Fallback.sha256Compress state blocks

theorem rotl128_eq (platform : Platform) (x : U128) (n : U32) : rotl128 platform x n = x.rotateLeft n.toNat := by
  rw [rotl128, X86.Int.rotl128_eq, Fallback.rotl128, ite_self]

theorem rotr128_eq (platform : Platform) (x : U128) (n : U32) : rotr128 platform x n = x.rotateRight n.toNat := by
  rw [rotr128, X86.Int.rotr128_eq, Fallback.rotr128, ite_self]

theorem mul128_eq (platform : Platform) (a b : U128) : mul128 platform a b = a * b := by
  rw [mul128, X86.Int.mul128_eq, Fallback.mul128, ite_self]

/-- Every backend computes the portable round, whatever the widening casts left undefined. -/
theorem round128_eq (decision : Decision) (w subKey : U128) :
    round128 decision w subKey = Fallback.round128 w subKey := by
  obtain ⟨backend, _, upper⟩ := decision
  cases backend with
  | fallback => rfl
  | sse2 => rfl
  | ssse3 => exact X86.round128Ssse3_eq w subKey
  | avx2 => exact X86.round128Avx2_eq w subKey
  | avx512Vbmi => exact X86.round128Avx512_eq (upper 0) w subKey
  | aesNi => exact X86.round128Aesni_eq w subKey
  | gfni => exact X86.round128Gfni_eq w subKey

theorem subBytes_eq (decision : Decision) (bytes : List U8) :
    subBytes decision bytes = some (Fallback.subBytes bytes) := by
  obtain ⟨backend, _, _⟩ := decision
  cases backend with
  | fallback => rfl
  | sse2 => rfl
  | ssse3 => exact X86.subBytesSsse3_eq bytes
  | avx2 => exact X86.subBytesAvx2_eq bytes
  | avx512Vbmi => exact X86.subBytesAvx512_eq bytes
  | aesNi => exact X86.subBytesAesni_eq bytes
  | gfni => exact X86.subBytesGfni_eq bytes

/-- Every backend fills the portable keystream and leaves the same state and counter. -/
theorem fillKeystream_eq (decision : Decision) (w : U128) (schedule : List U128) (roundIndex : Usize) (out : Nat) :
    fillKeystream decision w schedule roundIndex out =
      keystreamCore w schedule roundIndex out Fallback.round128 := by
  obtain ⟨backend, _, upper⟩ := decision
  cases backend with
  | fallback => rfl
  | sse2 => rfl
  | ssse3 => simp only [fillKeystream, X86.fillKeystreamSsse3, X86.round128Ssse3_eq]
  | avx2 => exact X86.fillKeystreamAvx2_eq w schedule roundIndex out
  | avx512Vbmi => simp only [fillKeystream, X86.fillKeystreamAvx512, X86.round128Avx512_eq, keystreamCore]
  | aesNi => simp only [fillKeystream, X86.fillKeystreamAesni, X86.round128Aesni_eq]
  | gfni => simp only [fillKeystream, X86.fillKeystreamGfni, X86.round128Gfni_eq]

/-- Either width XORs as the portable loop does, without a failed access. -/
theorem xorInto_eq (decision : Decision) (dst src : List U8) :
    xorInto decision dst src = some (Fallback.xorInto dst src) := by
  unfold xorInto
  split
  · split
    · exact X86.xorIntoAvx2_eq dst src
    · exact X86.xorIntoSse2_eq dst src
  · rfl

theorem sha256Compress_eq (platform : Platform) (state : Vector U32 8) (blocks : List U8) :
    sha256Compress platform state blocks = Fallback.sha256Compress state blocks := by
  unfold sha256Compress
  split
  · rw [X86.sha256CompressShani_eq, Fallback.sha256Compress_eq]
  · rfl

end Arch

end Pich
