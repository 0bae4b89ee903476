import Mathlib.Logic.Function.Basic
import Pich.Base.Intel

namespace Assembly
open Intel

inductive Register
  | rax | rbx | rcx | rdx | rsi | rdi | rbp | rsp
  | r8 | r9 | r10 | r11 | r12 | r13 | r14 | r15
  deriving DecidableEq

abbrev Registers := Register → BitVec 64

/-- Straight-line instructions on 64-bit registers. The double shifts take their count from `cl`. -/
inductive Instruction
  | mov (dst src : Register)
  | shld (dst src : Register)
  | shrd (dst src : Register)
  | mul (src : Register)
  | imul (dst src : Register)
  | add (dst src : Register)
  deriving DecidableEq

def written : Instruction → List Register
  | .mov dst _ => [dst]
  | .shld dst _ => [dst]
  | .shrd dst _ => [dst]
  | .mul _ => [.rdx, .rax]
  | .imul dst _ => [dst]
  | .add dst _ => [dst]

def step (regs : Registers) : Instruction → Registers
  | .mov dst src => Function.update regs dst (regs src)
  | .shld dst src => Function.update regs dst (shld (regs dst) (regs src) ((regs .rcx).setWidth 8))
  | .shrd dst src => Function.update regs dst (shrd (regs dst) (regs src) ((regs .rcx).setWidth 8))
  | .mul src =>
    let product := mulWide (regs .rax) (regs src)
    Function.update (Function.update regs .rdx product.1) .rax product.2
  | .imul dst src => Function.update regs dst (imul (regs dst) (regs src))
  | .add dst src => Function.update regs dst (regs dst + regs src)

def run (block : List Instruction) (regs : Registers) : Registers := block.foldl step regs

/-- The operands in place, over whatever the registers held before. -/
def load (operands : List (Register × BitVec 64)) (regs : Registers) : Registers :=
  operands.foldr (fun operand regs => Function.update regs operand.1 operand.2) regs

/-- A 32-bit operand leaves the upper half of its register as it was. -/
def loadLow (low : BitVec 32) (old : BitVec 64) : BitVec 64 := old.extractLsb' 32 32 ++ low

theorem step_kept {i : Instruction} {r : Register} (kept : r ∉ written i) (regs : Registers) :
    step regs i r = regs r := by
  cases i with
  | mul src =>
    simp only [written, List.mem_cons, List.not_mem_nil, or_false, not_or] at kept
    rw [step, Function.update_of_ne kept.2, Function.update_of_ne kept.1]
  | mov dst src => exact Function.update_of_ne (List.ne_of_not_mem_cons kept) _ _
  | shld dst src => exact Function.update_of_ne (List.ne_of_not_mem_cons kept) _ _
  | shrd dst src => exact Function.update_of_ne (List.ne_of_not_mem_cons kept) _ _
  | imul dst src => exact Function.update_of_ne (List.ne_of_not_mem_cons kept) _ _
  | add dst src => exact Function.update_of_ne (List.ne_of_not_mem_cons kept) _ _

/-- A block changes no register that none of its instructions writes. -/
theorem run_kept {block : List Instruction} {r : Register} (kept : ∀ i ∈ block, r ∉ written i) (regs : Registers) :
    run block regs r = regs r := by
  induction block generalizing regs with
  | nil => rfl
  | cons i block ih =>
    obtain ⟨first, rest⟩ := List.forall_mem_cons.mp kept
    exact (ih rest (step regs i)).trans (step_kept first regs)

theorem count_loadLow (low : BitVec 32) (old : BitVec 64) : (loadLow low old).setWidth 8 = low.setWidth 8 := by
  apply BitVec.eq_of_getLsbD_eq
  intro k small
  have inside : k < 32 := by omega
  simp only [loadLow, BitVec.getLsbD_setWidth, BitVec.getLsbD_append, inside, if_true]

end Assembly
