import Mathlib.Tactic.Ring
import Pich.Base.Assembly
import Pich.Base.Checked
import Pich.Fallback

namespace Pich.X86.Int
open Lanes Intel Checked Assembly

def loHalf (x : U128) : U64 := x.setWidth 64

def hiHalf (x : U128) : U64 := (x >>> 64).setWidth 64

def join (hi lo : U64) : U128 := (hi.setWidth 128 <<< 64) ||| lo.setWidth 128

/-- The rotate around its assembly: the half swap is outside the block, so the count in `cl` stays below 64. -/
def rotl128 (x : U128) (n : U32) : U128 :=
  let n := n &&& 127
  let (lo, hi) := if 64 ≤ n.toNat then (hiHalf x, loHalf x) else (loHalf x, hiHalf x)
  let cl : U8 := (n &&& 63).setWidth 8
  let tmp := hi
  let hi := shld hi lo cl
  let lo := shld lo tmp cl
  join hi lo

/-- The mirror image: the low half is the one that is copied away. -/
def rotr128 (x : U128) (n : U32) : U128 :=
  let n := n &&& 127
  let (lo, hi) := if 64 ≤ n.toNat then (hiHalf x, loHalf x) else (loHalf x, hiHalf x)
  let cl : U8 := (n &&& 63).setWidth 8
  let tmp := lo
  let lo := shrd lo hi cl
  let hi := shrd hi tmp cl
  join hi lo

/-- The full product of the low halves, with both cross products added into its upper half. -/
def mul128 (a b : U128) : U128 :=
  let (aLo, aHi) := (loHalf a, hiHalf a)
  let (bLo, bHi) := (loHalf b, hiHalf b)
  let (rdx, rax) := mulWide aLo bLo
  let cross1 := imul aHi bLo
  let cross2 := imul aLo bHi
  let rdx := rdx + cross1
  let rdx := rdx + cross2
  join rdx rax

theorem getLsbD_join (hi lo : U64) {k : Nat} (small : k < 128) :
    (join hi lo).getLsbD k = if k < 64 then lo.getLsbD k else hi.getLsbD (k - 64) := by
  by_cases low : k < 64
  · simp only [join, BitVec.getLsbD_or, BitVec.getLsbD_shiftLeft, BitVec.getLsbD_setWidth, small, low, decide_true,
      Bool.not_true, Bool.and_false, Bool.false_and, Bool.true_and, Bool.false_or, if_true]
  · have inside : k - 64 < 128 := by omega
    simp only [join, BitVec.getLsbD_or, BitVec.getLsbD_shiftLeft, BitVec.getLsbD_setWidth, small, low, inside,
      decide_true, decide_false, Bool.not_false, Bool.true_and, if_false, BitVec.getLsbD_of_ge lo k (by omega),
      Bool.or_false]

theorem getLsbD_loHalf (x : U128) {k : Nat} (small : k < 64) : (loHalf x).getLsbD k = x.getLsbD k := by
  simp only [loHalf, BitVec.getLsbD_setWidth, small, decide_true, Bool.true_and]

theorem getLsbD_hiHalf (x : U128) {k : Nat} (small : k < 64) : (hiHalf x).getLsbD k = x.getLsbD (64 + k) := by
  simp only [hiHalf, BitVec.getLsbD_setWidth, BitVec.getLsbD_ushiftRight, small, decide_true, Bool.true_and]

theorem low_bits (n : U32) : (n &&& 127).toNat = n.toNat % 128 := by
  rw [BitVec.toNat_and]
  exact Nat.and_two_pow_sub_one_eq_mod _ 7

theorem count_toNat (n : U32) : ((n &&& 127 &&& 63).setWidth 8 : U8).toNat = n.toNat % 64 := by
  have masked : (n &&& 127 &&& 63).toNat = n.toNat % 64 := by
    rw [BitVec.toNat_and, low_bits]
    have cut : n.toNat % 128 &&& 63 = n.toNat % 128 % 64 := Nat.and_two_pow_sub_one_eq_mod _ 6
    simp only [BitVec.reduceToNat, cut]
    omega
  rw [BitVec.toNat_setWidth, masked]
  omega

/-- Half by half: which half a bit comes from depends on the swap, its own half, and whether the shift spills. -/
theorem rotl128_eq (x : U128) (n : U32) : rotl128 x n = x.rotateLeft n.toNat := by
  apply BitVec.eq_of_getLsbD_eq
  intro k small
  simp only [rotl128, low_bits]
  by_cases swapped : 64 ≤ n.toNat % 128 <;> by_cases low : k < 64 <;> by_cases spill : k % 64 < n.toNat % 64 <;>
    simp (disch := omega) only [BitVec.getLsbD_rotateLeft, getLsbD_join, getLsbD_shld, count_toNat, getLsbD_loHalf,
      getLsbD_hiHalf, if_pos, if_neg, small, decide_true, Bool.true_and, Bool.cond_decide] <;>
    congr 1 <;> omega

/-- Right as left: the swap accounts for the multiple of 64, the double shift for the rest. -/
theorem rotr128_eq (x : U128) (n : U32) : rotr128 x n = x.rotateRight n.toNat := by
  apply BitVec.eq_of_getLsbD_eq
  intro k small
  simp only [rotr128, low_bits]
  by_cases swapped : 64 ≤ n.toNat % 128 <;> by_cases low : k < 64 <;> by_cases stays : k % 64 + n.toNat % 64 < 64 <;>
    simp (disch := omega) only [BitVec.getLsbD_rotateRight, getLsbD_join, getLsbD_shrd, count_toNat, getLsbD_loHalf,
      getLsbD_hiHalf, if_pos, if_neg, small, decide_true, Bool.true_and, Bool.cond_decide] <;>
    congr 1 <;> omega

theorem join_toNat (hi lo : U64) : (join hi lo).toNat = hi.toNat * 2 ^ 64 + lo.toNat := by
  have appended : join hi lo = hi ++ lo := BitVec.setWidth_append_eq_shiftLeft_setWidth_or.symm
  rw [appended, toNat_append_eq]

theorem mulWide_toNat (a b : U64) : (mulWide a b).1.toNat * 2 ^ 64 + (mulWide a b).2.toNat = a.toNat * b.toNat := by
  have bound := product_bound a b
  have product : (a.setWidth 128 * b.setWidth 128).toNat = a.toNat * b.toNat := by
    have wide : ∀ v : U64, (v.setWidth 128).toNat = v.toNat := widen_toNat
    rw [BitVec.toNat_mul, wide, wide, Nat.mod_eq_of_lt (by omega)]
  simp only [mulWide, lane, BitVec.extractLsb'_toNat, product, Nat.shiftRight_eq_div_pow]
  omega

theorem product_eq (aHi aLo bHi bLo : Nat) : (aHi * 2 ^ 64 + aLo) * (bHi * 2 ^ 64 + bLo) =
    aLo * bLo + (aHi * bLo + aLo * bHi) * 2 ^ 64 + 2 ^ 128 * (aHi * bHi) := by
  ring

/-- The truncated cross products reach exactly the upper half. -/
theorem columns {rdx rax cross1 cross2 : Nat} (small : rax < 2 ^ 64) :
    ((rdx + cross1 % 2 ^ 64) % 2 ^ 64 + cross2 % 2 ^ 64) % 2 ^ 64 * 2 ^ 64 + rax =
      (rdx * 2 ^ 64 + rax + (cross1 + cross2) * 2 ^ 64) % 2 ^ 128 := by
  omega

/-- The product of the high halves is what the truncation to 128 bits drops. -/
theorem mul128_eq (a b : U128) : mul128 a b = a * b := by
  have splitA : (hiHalf a).toNat * 2 ^ 64 + (loHalf a).toNat = a.toNat := halves_toNat (w := 64) a
  have splitB : (hiHalf b).toNat * 2 ^ 64 + (loHalf b).toNat = b.toNat := halves_toNat (w := 64) b
  apply BitVec.eq_of_toNat_eq
  rw [BitVec.toNat_mul, ← splitA, ← splitB, product_eq, Nat.add_mul_mod_self_left, ← mulWide_toNat]
  simp only [mul128, join_toNat, imul, BitVec.toNat_add, BitVec.toNat_mul]
  exact columns (mulWide (loHalf a) (loHalf b)).2.isLt

/-! The inline assembly itself, under any allocation of its operands to registers. -/

/-- Registers for the operands of a rotate: each has its own, and none of them is the one of the count. -/
structure RotateOperands where
  lo : Register
  hi : Register
  tmp : Register
  apart : [lo, hi, tmp, .rcx].Nodup

/-- Registers for the operands of a product with `b`. Each one that the block writes is an operand's own, and the two
that it only reads may be one when one value goes into both. -/
structure MulOperands (b : U128) where
  bLo : Register
  bHi : Register
  cross1 : Register
  cross2 : Register
  apart : [cross1, cross2, .rax, .rdx].Nodup
  inputs : bLo ∉ [cross1, cross2, .rax, .rdx] ∧ bHi ∉ [cross1, cross2, .rax, .rdx]
  shared : bHi = bLo → hiHalf b = loHalf b

def rotlBlock (o : RotateOperands) : List Instruction := [.mov o.tmp o.hi, .shld o.hi o.lo, .shld o.lo o.tmp]

def rotrBlock (o : RotateOperands) : List Instruction := [.mov o.tmp o.lo, .shrd o.lo o.hi, .shrd o.hi o.tmp]

/-- The five instructions of `mul128`: the wide product, the cross products, and their sums. -/
def mulBlock {b : U128} (o : MulOperands b) : List Instruction :=
  [.mul o.bLo, .imul o.cross1 o.bLo, .imul o.cross2 o.bHi, .add .rdx o.cross1, .add .rdx o.cross2]

/-- `rotl128` around its block: the operands go into their registers, and the two halves come out of theirs. -/
def rotl128Asm (o : RotateOperands) (regs : Registers) (x : U128) (n : U32) : U128 :=
  let n := n &&& 127
  let (lo, hi) := if 64 ≤ n.toNat then (hiHalf x, loHalf x) else (loHalf x, hiHalf x)
  let count := n &&& 63
  let regs := load [(o.lo, lo), (o.hi, hi), (.rcx, loadLow count (regs .rcx))] regs
  let regs := run (rotlBlock o) regs
  join (regs o.hi) (regs o.lo)

/-- `rotr128` around its block. -/
def rotr128Asm (o : RotateOperands) (regs : Registers) (x : U128) (n : U32) : U128 :=
  let n := n &&& 127
  let (lo, hi) := if 64 ≤ n.toNat then (hiHalf x, loHalf x) else (loHalf x, hiHalf x)
  let count := n &&& 63
  let regs := load [(o.lo, lo), (o.hi, hi), (.rcx, loadLow count (regs .rcx))] regs
  let regs := run (rotrBlock o) regs
  join (regs o.hi) (regs o.lo)

/-- `mul128` around its block: the operands go into their registers, and the product comes out of `rdx` and `rax`. -/
def mul128Asm {b : U128} (o : MulOperands b) (regs : Registers) (a : U128) : U128 :=
  let (aLo, aHi) := (loHalf a, hiHalf a)
  let (bLo, bHi) := (loHalf b, hiHalf b)
  let regs := load [(o.bLo, bLo), (o.bHi, bHi), (o.cross1, aHi), (o.cross2, aLo), (.rax, aLo)] regs
  let regs := run (mulBlock o) regs
  join (regs .rdx) (regs .rax)

theorem RotateOperands.distinct (o : RotateOperands) : o.lo ≠ o.hi ∧ o.lo ≠ o.tmp ∧ o.hi ≠ o.tmp ∧
    Register.rcx ≠ o.lo ∧ Register.rcx ≠ o.hi ∧ Register.rcx ≠ o.tmp := by
  have apart := o.apart
  simp only [List.nodup_cons, List.mem_cons, List.not_mem_nil, or_false, not_or] at apart
  obtain ⟨⟨loHi, loTmp, loCl⟩, ⟨hiTmp, hiCl⟩, tmpCl, _⟩ := apart
  exact ⟨loHi, loTmp, hiTmp, Ne.symm loCl, Ne.symm hiCl, Ne.symm tmpCl⟩

section Blocks
variable (o : RotateOperands) (regs : Registers)

/-- The second shift reads the copy of the half that the first one has overwritten. -/
theorem rotlBlock_run :
    run (rotlBlock o) regs o.hi = shld (regs o.hi) (regs o.lo) ((regs .rcx).setWidth 8) ∧
      run (rotlBlock o) regs o.lo = shld (regs o.lo) (regs o.hi) ((regs .rcx).setWidth 8) := by
  obtain ⟨loHi, loTmp, hiTmp, clLo, clHi, clTmp⟩ := o.distinct
  simp [rotlBlock, run, step, loHi, loTmp, hiTmp, clHi, clTmp, loHi.symm, hiTmp.symm]

theorem rotrBlock_run :
    run (rotrBlock o) regs o.lo = shrd (regs o.lo) (regs o.hi) ((regs .rcx).setWidth 8) ∧
      run (rotrBlock o) regs o.hi = shrd (regs o.hi) (regs o.lo) ((regs .rcx).setWidth 8) := by
  obtain ⟨loHi, loTmp, hiTmp, clLo, clHi, clTmp⟩ := o.distinct
  simp [rotrBlock, run, step, loHi, loTmp, hiTmp, clLo, clTmp, loHi.symm, loTmp.symm]

theorem load_rotate (lo hi : U64) (count : U32) :
    load [(o.lo, lo), (o.hi, hi), (.rcx, loadLow count (regs .rcx))] regs o.lo = lo ∧
      load [(o.lo, lo), (o.hi, hi), (.rcx, loadLow count (regs .rcx))] regs o.hi = hi ∧
      (load [(o.lo, lo), (o.hi, hi), (.rcx, loadLow count (regs .rcx))] regs .rcx).setWidth 8 =
        count.setWidth 8 := by
  obtain ⟨loHi, _, _, clLo, clHi, _⟩ := o.distinct
  simp [load, loHi.symm, clLo, clHi, count_loadLow]

/-- Neither rotate changes a register other than its outputs. -/
theorem rotateBlocks_kept {r : Register} (free : r ∉ [o.lo, o.hi, o.tmp]) :
    run (rotlBlock o) regs r = regs r ∧ run (rotrBlock o) regs r = regs r := by
  simp only [List.mem_cons, List.not_mem_nil, or_false, not_or] at free
  obtain ⟨notLo, notHi, notTmp⟩ := free
  refine ⟨run_kept ?_ regs, run_kept ?_ regs⟩
  · simp [rotlBlock, written, notLo, notHi, notTmp]
  · simp [rotrBlock, written, notLo, notHi, notTmp]

theorem rotl128Asm_eq (x : U128) (n : U32) : rotl128Asm o regs x n = rotl128 x n := by
  simp only [rotl128Asm, rotl128, rotlBlock_run, load_rotate]

theorem rotr128Asm_eq (x : U128) (n : U32) : rotr128Asm o regs x n = rotr128 x n := by
  simp only [rotr128Asm, rotr128, rotrBlock_run, load_rotate]

end Blocks

section Multiply
variable {b : U128} (o : MulOperands b) (regs : Registers)

theorem MulOperands.distinct : (o.bLo ≠ .rax ∧ o.bLo ≠ .rdx ∧ o.bHi ≠ .rax ∧ o.bHi ≠ .rdx) ∧
    (o.cross1 ≠ .rax ∧ o.cross1 ≠ .rdx ∧ o.cross2 ≠ .rax ∧ o.cross2 ≠ .rdx) ∧
    o.cross1 ≠ o.bLo ∧ o.cross1 ≠ o.bHi ∧ o.cross2 ≠ o.bLo ∧ o.cross2 ≠ o.bHi ∧ o.cross2 ≠ o.cross1 := by
  have apart := o.apart
  have inputs := o.inputs
  simp only [List.nodup_cons, List.mem_cons, List.not_mem_nil, or_false, not_or] at apart inputs
  grind

theorem mulBlock_run :
    run (mulBlock o) regs .rdx = (mulWide (regs .rax) (regs o.bLo)).1 + imul (regs o.cross1) (regs o.bLo) +
        imul (regs o.cross2) (regs o.bHi) ∧
      run (mulBlock o) regs .rax = (mulWide (regs .rax) (regs o.bLo)).2 := by
  obtain ⟨⟨loRax, loRdx, hiRax, hiRdx⟩, ⟨c1Rax, c1Rdx, c2Rax, c2Rdx⟩, _, c1Hi, _, _, cross⟩ := o.distinct
  simp [mulBlock, run, step, loRax, loRdx, hiRax, hiRdx, c1Rax, c1Rdx, c2Rax, c2Rdx, c1Hi.symm, cross, cross.symm,
    c1Rax.symm, c1Rdx.symm, c2Rax.symm, c2Rdx.symm]

/-- The product changes neither its inputs nor anything else but its outputs. -/
theorem mulBlock_kept {r : Register} (free : r ∉ [o.cross1, o.cross2, .rax, .rdx]) :
    run (mulBlock o) regs r = regs r := by
  simp only [List.mem_cons, List.not_mem_nil, or_false, not_or] at free
  obtain ⟨notCross1, notCross2, notRax, notRdx⟩ := free
  refine run_kept ?_ regs
  simp [mulBlock, written, notCross1, notCross2, notRax, notRdx]

/-- A register that two inputs share holds the value of both. -/
theorem load_shared (rest : List (Register × U64)) :
    load ((o.bLo, loHalf b) :: (o.bHi, hiHalf b) :: rest) regs o.bHi = hiHalf b := by
  by_cases same : o.bHi = o.bLo
  · simp [load, same, o.shared same]
  · simp [load, same]

theorem mul128Asm_eq (a : U128) : mul128Asm o regs a = mul128 a b := by
  obtain ⟨⟨loRax, _, hiRax, _⟩, ⟨c1Rax, _, c2Rax, _⟩, c1Lo, c1Hi, c2Lo, c2Hi, cross⟩ := o.distinct
  simp only [mul128Asm, mul128, mulBlock_run, load_shared]
  simp [load, loRax.symm, hiRax.symm, c1Rax.symm, c2Rax.symm, c1Lo, c1Hi, c2Lo, c2Hi, cross]

end Multiply

/-- The inline assembly rotates and multiplies as the portable code does, whichever registers the compiler picks and
whatever they hold, and leaves every register but its outputs as it was. -/
theorem assembly_eq_portable :
    (∀ (o : RotateOperands) (regs : Registers) (x : U128) (n : U32),
      (rotl128Asm o regs x n = x.rotateLeft (n.toNat % 128) ∧ rotl128Asm o regs x n = Fallback.rotl128 x n) ∧
        rotr128Asm o regs x n = x.rotateRight (n.toNat % 128) ∧ rotr128Asm o regs x n = Fallback.rotr128 x n) ∧
      (∀ (a b : U128) (o : MulOperands b) (regs : Registers),
        (mul128Asm o regs a).toNat = a.toNat * b.toNat % 2 ^ 128 ∧ mul128Asm o regs a = Fallback.mul128 a b) ∧
      (∀ (o : RotateOperands) (regs : Registers) (r : Register), r ∉ [o.lo, o.hi, o.tmp] →
        run (rotlBlock o) regs r = regs r ∧ run (rotrBlock o) regs r = regs r) ∧
      ∀ (b : U128) (o : MulOperands b) (regs : Registers) (r : Register), r ∉ [o.cross1, o.cross2, .rax, .rdx] →
        run (mulBlock o) regs r = regs r := by
  refine ⟨fun o regs x n => ?_, fun a b o regs => ?_, fun o regs r free => rotateBlocks_kept o regs free,
    fun b o regs r free => mulBlock_kept o regs free⟩
  · rw [rotl128Asm_eq, rotr128Asm_eq, rotl128_eq, rotr128_eq, BitVec.rotateLeft_mod_eq_rotateLeft,
      BitVec.rotateRight_mod_eq_rotateRight]
    exact ⟨⟨rfl, rfl⟩, rfl, rfl⟩
  · rw [mul128Asm_eq, mul128_eq, BitVec.toNat_mul]
    exact ⟨rfl, rfl⟩

example : rotl128Asm ⟨.rsi, .rdi, .rax, by decide⟩ (fun _ => 7) 1 100 = 2 ^ 100 := by decide +kernel

-- one register for both halves of the factor
example : mul128Asm (b := 2 ^ 64 + 1) ⟨.rcx, .rcx, .rsi, .rdi, by decide, by decide, fun _ => by decide +kernel⟩
    (fun _ => 7) (2 ^ 64 + 3) = 4 * 2 ^ 64 + 3 := by
  decide +kernel

end Pich.X86.Int
