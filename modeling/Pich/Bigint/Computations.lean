import Pich.Base.Arithmetic
import Pich.Bigint.Int256
import Pich.SboxTransform

namespace Pich
open Arithmetic

/-- The operators of `I128` wrap. -/
def I128.ops : Ops I128 := .total (BitVec 128)

/-- The operators of `I192`; the checked ones can fail. -/
def I192.ops : Ops I192 where
  add := I192.add
  sub := I192.sub
  neg x := some x.neg
  mul := I192.mul

def I256.ops : Ops I256 where
  add x y := some (x.add y)
  sub x y := some (x.sub y)
  neg x := some x.neg
  mul := I256.mul

theorem I192.hom_bits : Hom I192.ops (.total (BitVec 192)) I192.bits where
  add x y := by
    obtain ⟨z, added, bits⟩ := I192.add_bits x y
    change some (x.bits + y.bits) = (x.add y).map I192.bits
    rw [added, Option.map_some, bits]
  sub x y := by
    obtain ⟨z, subtracted, bits⟩ := I192.sub_bits x y
    change some (x.bits - y.bits) = (x.sub y).map I192.bits
    rw [subtracted, Option.map_some, bits]
  neg x := congrArg some (I192.neg_bits x).symm
  mul x y := by
    obtain ⟨z, multiplied, bits⟩ := I192.mul_bits x y
    change some (x.bits * y.bits) = (x.mul y).map I192.bits
    rw [multiplied, Option.map_some, bits]

theorem I256.hom_bits : Hom I256.ops (.total (BitVec 256)) I256.bits where
  add x y := congrArg some (I256.add_bits x y).symm
  sub x y := congrArg some (I256.sub_bits x y).symm
  neg x := congrArg some (I256.neg_bits x).symm
  mul x y := by
    obtain ⟨z, multiplied, bits⟩ := I256.mul_bits x y
    change some (x.bits * y.bits) = (x.mul y).map I256.bits
    rw [multiplied, Option.map_some, bits]

/-- Compression drops the upper limb, and computing commutes with that. -/
theorem I192.hom_cbox : Hom I192.ops I128.ops cbox := by
  have narrowed : cbox = BitVec.setWidth 128 ∘ I192.bits := by
    funext x
    rw [cbox_eq, Function.comp_apply, I192.bits, BitVec.setWidth_append_eq_right]
  rw [narrowed]
  exact (hom_setWidth (by omega)).comp I192.hom_bits

theorem I256.hom_lo : Hom I256.ops I128.ops I256.lo := by
  have narrowed : I256.lo = BitVec.setWidth 128 ∘ I256.bits := by
    funext x
    rw [Function.comp_apply, I256.bits, BitVec.setWidth_append_eq_right]
  rw [narrowed]
  exact (hom_setWidth (by omega)).comp I256.hom_bits

/-- Whole computations on the three widths. No operation on the way fails, the result is that of the same
computation on integers, brought into range once at its end, and narrowing the result is computing on narrowed
values. -/
theorem computations_exact :
    (∀ e : Expr I192, ∃ z n, e.eval I192.ops = some z ∧ (e.map I192.val).eval (.total Int) = some n ∧
      z.val = n.bmod (2 ^ 192) ∧ (e.map cbox).eval I128.ops = some (cbox z)) ∧
    (∀ e : Expr I256, ∃ z n, e.eval I256.ops = some z ∧ (e.map I256.val).eval (.total Int) = some n ∧
      z.val = n.bmod (2 ^ 256) ∧ (e.map I256.lo).eval I128.ops = some z.lo) ∧
    ∀ e : Expr I128, ∃ z n, e.eval I128.ops = some z ∧ (e.map BitVec.toInt).eval (.total Int) = some n ∧
      z.toInt = n.bmod (2 ^ 128) := by
  have val192 : (fun x : I192 => x.bits.toInt) = I192.val := funext fun x => (I192.val_eq x).symm
  have val256 : (fun x : I256 => x.bits.toInt) = I256.val := funext fun x => (I256.val_eq x).symm
  refine ⟨fun e => ?_, fun e => ?_, fun e => ?_⟩
  · obtain ⟨z, n, computed, exact, value⟩ := eval_reduced I192.hom_bits e
    rw [val192] at exact
    exact ⟨z, n, computed, exact, by rw [I192.val_eq, value], by rw [Expr.eval_map I192.hom_cbox, computed]; rfl⟩
  · obtain ⟨z, n, computed, exact, value⟩ := eval_reduced I256.hom_bits e
    rw [val256] at exact
    exact ⟨z, n, computed, exact, by rw [I256.val_eq, value], by rw [Expr.eval_map I256.hom_lo, computed]; rfl⟩
  · exact eval_reduced (Hom.same I128.ops) e

end Pich
