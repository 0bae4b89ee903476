import Pich.Selection

namespace Pich

/-- A CPU with the two features that only `has_sha_ni` asks for. -/
structure Host extends Cpu where
  sse41 : Bool
  sha : Bool
  deriving DecidableEq, Repr

/-- The ways to substitute that have kernels of their own. -/
inductive Strategy
  | ssse3
  | avx2
  | avx512Vbmi
  | aesNi
  | gfni
  deriving DecidableEq, Repr

namespace Strategy

def subBytes : Strategy → List U8 → Option (List U8)
  | .ssse3 => X86.subBytesSsse3
  | .avx2 => X86.subBytesAvx2
  | .avx512Vbmi => X86.subBytesAvx512
  | .aesNi => X86.subBytesAesni
  | .gfni => X86.subBytesGfni

def round128 (upper : Nat → BitVec 384) : Strategy → U128 → U128 → U128
  | .ssse3 => X86.round128Ssse3
  | .avx2 => X86.round128Avx2
  | .avx512Vbmi => X86.round128Avx512 (upper 0)
  | .aesNi => X86.round128Aesni
  | .gfni => X86.round128Gfni

def fillKeystream (upper : Nat → BitVec 384) :
    Strategy → U128 → List U128 → Usize → Nat → Option (U128 × Usize × List U8)
  | .ssse3 => X86.fillKeystreamSsse3
  | .avx2 => X86.fillKeystreamAvx2
  | .avx512Vbmi => X86.fillKeystreamAvx512 upper
  | .aesNi => X86.fillKeystreamAesni
  | .gfni => X86.fillKeystreamGfni

end Strategy

/-- The arms of the dispatchers. -/
def Backend.strategy : Backend → Option Strategy
  | .gfni => some .gfni
  | .aesNi => some .aesNi
  | .avx512Vbmi => some .avx512Vbmi
  | .avx2 => some .avx2
  | .ssse3 => some .ssse3
  | .fallback | .sse2 => none

/-- The functions behind a `target_feature` attribute that the dispatchers call. -/
inductive Kernel
  | subBytes (strategy : Strategy)
  | round128 (strategy : Strategy)
  | fillKeystream (strategy : Strategy)
  | xorIntoAvx2
  | xorIntoSse2
  | sha256CompressShani
  deriving DecidableEq, Repr

/-- The dispatched functions run the kernel of the strategy. -/
theorem Arch.subBytes_strategy (decision : Decision) (bytes : List U8) :
    Arch.subBytes decision bytes =
      (decision.backend.strategy.map (·.subBytes bytes)).getD (some (Fallback.subBytes bytes)) := by
  obtain ⟨backend, _, _⟩ := decision
  cases backend <;> rfl

theorem Arch.round128_strategy (decision : Decision) (w subKey : U128) :
    Arch.round128 decision w subKey =
      (decision.backend.strategy.map (·.round128 decision.upper w subKey)).getD (Fallback.round128 w subKey) := by
  obtain ⟨backend, _, _⟩ := decision
  cases backend <;> rfl

theorem Arch.fillKeystream_strategy (decision : Decision) (w : U128) (schedule : List U128) (roundIndex : Usize)
    (out : Nat) : Arch.fillKeystream decision w schedule roundIndex out =
      (decision.backend.strategy.map (·.fillKeystream decision.upper w schedule roundIndex out)).getD
        (keystreamCore w schedule roundIndex out Fallback.round128) := by
  obtain ⟨backend, _, _⟩ := decision
  cases backend <;> rfl

end Pich
