import Pich.Arch
import Pich.Bigint.Int192

namespace Pich
open Lanes Bytes

def I128.lo (x : I128) : U64 := (x &&& 0xFFFFFFFFFFFFFFFF).setWidth 64

/-- The shift is an arithmetic one; the cast drops the sign bits it brings in. -/
def I128.hi (x : I128) : U64 := (x.sshiftRight 64).setWidth 64

def sboxTransform (decision : Decision) (input : I128) : Option I128 := do
  let bytes := toLeBytes input
  let bytes ← Arch.subBytes decision bytes
  some (fromLeBytes 128 bytes)

def xbox (input : I128) : I192 :=
  let hi128 := I128.hi input
  let lo128 := I128.lo input
  { hi := 0, mid := hi128, lo := lo128 }

/-- The cast of `mid` extends its sign, that of `lo` goes through `u64` and extends with zeros. -/
def cbox (input : I192) : I128 :=
  let mid : I128 := input.mid.signExtend 128
  let lo : I128 := input.lo.setWidth 128
  mid <<< 64 ||| lo

def sboxes (decision : Decision) (input : I192) : Option I192 := do
  let bytes := input.toBeBytes.toList
  let bytes ← Arch.subBytes decision bytes
  some (I192.fromBeBytes bytes)

/-- The sign bits of `mid` are shifted out before `lo` comes in. -/
theorem cbox_eq (y : I192) : cbox y = y.mid ++ y.lo := by
  apply BitVec.eq_of_getLsbD_eq
  intro k small
  rw [cbox, BitVec.getLsbD_or, BitVec.getLsbD_shiftLeft, BitVec.getLsbD_signExtend, BitVec.getLsbD_setWidth,
    BitVec.getLsbD_append]
  by_cases low : k < 64
  · simp only [small, low, decide_true, Bool.not_true, Bool.and_false, Bool.false_and, Bool.false_or, Bool.true_and,
      if_true]
  · have inside : k - 64 < 64 := by omega
    have within : k - 64 < 128 := by omega
    simp only [small, low, inside, within, decide_true, decide_false, Bool.not_false, Bool.true_and, if_true, if_false,
      BitVec.getLsbD_of_ge y.lo k (by omega), Bool.and_false, Bool.or_false]

/-- Halving with either kind of shift, and putting the halves together, changes nothing. -/
theorem cbox_xbox (x : I128) : cbox (xbox x) = x := by
  apply BitVec.eq_of_getLsbD_eq
  intro k small
  rw [cbox_eq, BitVec.getLsbD_append]
  by_cases low : k < 64
  · have masked : (0xFFFFFFFFFFFFFFFF : I128) = (BitVec.allOnes 64).setWidth 128 := by decide
    simp only [xbox, I128.lo, masked, low, BitVec.getLsbD_setWidth, BitVec.getLsbD_and, BitVec.getLsbD_allOnes, small,
      decide_true, Bool.and_true, Bool.true_and, if_true]
  · have inside : k - 64 < 64 := by omega
    have place : 64 + (k - 64) = k := by omega
    have unsigned : ¬ 128 ≤ k - 64 := by omega
    simp only [xbox, I128.hi, low, inside, place, small, unsigned, BitVec.getLsbD_setWidth, BitVec.getLsbD_sshiftRight,
      decide_true, decide_false, Bool.not_false, Bool.true_and, if_true, if_false]

def substituteLimb (limb : U64) : U64 := fromBeBytes 64 ((toBeBytes limb).map sbox)

theorem sboxes_eq (decision : Decision) (y : I192) :
    sboxes decision y =
      some { hi := substituteLimb y.hi, mid := substituteLimb y.mid, lo := substituteLimb y.lo } := by
  have size : ∀ limb : U64, ((toBeBytes limb).map sbox).length = 8 := fun limb => by
    rw [List.length_map, toBeBytes_length]
  simp only [sboxes, Arch.subBytes_eq, Fallback.subBytes, I192.toBeBytes_toList, List.map_append, Option.bind_eq_bind,
    Option.bind_some]
  rw [I192.fromBeBytes_append (size y.hi) (size y.mid) (size y.lo)]
  rfl

theorem lane_substituteLimb (limb : U64) {i : Nat} (within : i < 8) :
    lane 8 (substituteLimb limb) i = sbox (lane 8 limb i) := by
  rw [substituteLimb, fromBeBytes_map, lane_mapBytes _ _ within]

theorem toBeBytes_substituteLimb (limb : U64) : toBeBytes (substituteLimb limb) = (toBeBytes limb).map sbox :=
  toBeBytes_fromBeBytes (by rw [List.length_map, toBeBytes_length])

/-- Every one of the 24 bytes is substituted. -/
theorem sboxes_bytes (decision : Decision) (y : I192) :
    ∃ z, sboxes decision y = some z ∧ z.toBeBytes.toList = y.toBeBytes.toList.map sbox := by
  refine ⟨_, sboxes_eq decision y, ?_⟩
  simp only [I192.toBeBytes_toList, toBeBytes_substituteLimb, List.map_append]

theorem lane_cbox (y : I192) (i : Nat) : lane 8 (cbox y) i = if i < 8 then lane 8 y.lo i else lane 8 y.mid (i - 8) := by
  rw [cbox_eq]
  by_cases low : i < 8
  · rw [if_pos low, lane_append_low _ _ (by omega)]
  · have place : 8 + (i - 8) = i := by omega
    have upper := lane_append_high (by omega : 64 = 8 * 8) y.mid y.lo (i - 8)
    rw [place] at upper
    rw [if_neg low, upper]

/-- Compressing after the substitution is substituting after compressing: the bytes of the high limb are
substituted too, and dropped. -/
theorem cbox_sboxes (decision : Decision) (y : I192) :
    (sboxes decision y).map cbox = some (Fallback.substitute (cbox y)) := by
  rw [sboxes_eq, Option.map_some]
  refine congrArg some (Fallback.eq_substitute fun i within => ?_)
  rw [lane_cbox, lane_cbox]
  split
  · rename_i low
    exact lane_substituteLimb y.lo low
  · exact lane_substituteLimb y.mid (by omega)

theorem sboxTransform_eq (decision : Decision) (x : I128) :
    sboxTransform decision x = some (Fallback.substitute x) := by
  simp only [sboxTransform, Arch.subBytes_eq, Option.bind_eq_bind, Option.bind_some]
  rfl

/-- The shortcut is the specified pipeline, byte by byte and in either byte order, and the high limb does not reach
the result. -/
theorem sboxTransform_pipeline :
    (∀ decision decision' x, sboxTransform decision x = (sboxes decision' (xbox x)).map cbox) ∧
      (∀ decision y, ∃ z, sboxes decision y = some z ∧ z.toBeBytes.toList = y.toBeBytes.toList.map sbox) ∧
      (∀ decision x, sboxTransform decision x = some (fromLeBytes 128 ((toLeBytes x).map sbox)) ∧
        sboxTransform decision x = some (fromBeBytes 128 ((toBeBytes x).map sbox))) ∧
      ∀ decision decision' hi hi' mid lo,
        (sboxes decision { hi, mid, lo }).map cbox = (sboxes decision' { hi := hi', mid, lo }).map cbox := by
  refine ⟨fun decision decision' x => ?_, sboxes_bytes, fun decision x => ⟨?_, ?_⟩,
    fun decision decision' hi hi' mid lo => ?_⟩
  · rw [sboxTransform_eq, cbox_sboxes, cbox_xbox]
  · exact sboxTransform_eq decision x
  · rw [sboxTransform_eq, fromBeBytes_map]
    rfl
  · rw [cbox_sboxes, cbox_sboxes, cbox_eq, cbox_eq]

end Pich
