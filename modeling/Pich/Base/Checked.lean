import Mathlib.Algebra.Group.Int.Defs
import Mathlib.Algebra.Group.Nat.Defs

namespace Checked
variable {w : Nat}

/-! Operators that have no result where the exact one does not fit in the word. -/

def add (a b : BitVec w) : Option (BitVec w) := if a.uaddOverflow b then none else some (a + b)

def sub (a b : BitVec w) : Option (BitVec w) := if a.usubOverflow b then none else some (a - b)

def mul (a b : BitVec w) : Option (BitVec w) := if a.umulOverflow b then none else some (a * b)

/-- A shift fails on its count, not on the bits it loses. -/
def shl (a : BitVec w) (count : Nat) : Option (BitVec w) := if count < w then some (a <<< count) else none

/-! Operators that wrap, and say whether they did. -/

def overflowingAdd (a b : BitVec w) : BitVec w × Bool := (a + b, a.uaddOverflow b)

def overflowingSub (a b : BitVec w) : BitVec w × Bool := (a - b, a.usubOverflow b)

/-- A flag cast to a word. -/
def ofFlag (w : Nat) (flag : Bool) : BitVec w := (BitVec.ofBool flag).setWidth w

/-- The low half of a double word. -/
def low (x : BitVec (w + w)) : BitVec w := x.setWidth w

def high (x : BitVec (w + w)) : BitVec w := (x >>> w).setWidth w

section
variable {a b : BitVec w}

/-- A checked operator whose exact result fits yields it. -/
theorem add_exact (fits : a.toNat + b.toNat < 2 ^ w) : ∃ c, add a b = some c ∧ c.toNat = a.toNat + b.toNat := by
  have exact : a.uaddOverflow b = false := by
    rw [BitVec.uaddOverflow, decide_eq_false_iff_not]
    omega
  exact ⟨a + b, by rw [add, exact, if_neg Bool.false_ne_true], BitVec.toNat_add_of_lt fits⟩

theorem sub_exact (fits : b.toNat ≤ a.toNat) : ∃ c, sub a b = some c ∧ c.toNat = a.toNat - b.toNat := by
  have exact : a.usubOverflow b = false := by
    rw [BitVec.usubOverflow, decide_eq_false_iff_not]
    omega
  exact ⟨a - b, by rw [sub, exact, if_neg Bool.false_ne_true], BitVec.toNat_sub_of_le fits⟩

theorem mul_exact (fits : a.toNat * b.toNat < 2 ^ w) : ∃ c, mul a b = some c ∧ c.toNat = a.toNat * b.toNat := by
  have exact : a.umulOverflow b = false := by
    rw [BitVec.umulOverflow, decide_eq_false_iff_not]
    omega
  exact ⟨a * b, by rw [mul, exact, if_neg Bool.false_ne_true], BitVec.toNat_mul_of_lt fits⟩

theorem shl_exact (count : Nat) (within : count < w) (fits : a.toNat * 2 ^ count < 2 ^ w) :
    ∃ c, shl a count = some c ∧ c.toNat = a.toNat * 2 ^ count := by
  refine ⟨a <<< count, if_pos within, ?_⟩
  rw [BitVec.toNat_shiftLeft, Nat.shiftLeft_eq, Nat.mod_eq_of_lt fits]

/-- The wrapped sum and its carry are the exact sum. -/
theorem overflowingAdd_exact (a b : BitVec w) :
    ∃ c flag, overflowingAdd a b = (c, flag) ∧ c.toNat + 2 ^ w * flag.toNat = a.toNat + b.toNat := by
  have boundA := a.isLt
  have boundB := b.isLt
  refine ⟨_, _, rfl, ?_⟩
  rw [BitVec.uaddOverflow, BitVec.toNat_add]
  by_cases wraps : 2 ^ w ≤ a.toNat + b.toNat
  · rw [decide_eq_true wraps, Bool.toNat_true, Nat.mod_eq_sub_mod wraps, Nat.mod_eq_of_lt (by omega)]
    omega
  · rw [decide_eq_false wraps, Bool.toNat_false, Nat.mod_eq_of_lt (by omega)]
    omega

/-- The wrapped difference and its borrow are the exact difference. -/
theorem overflowingSub_exact (a b : BitVec w) :
    ∃ c flag, overflowingSub a b = (c, flag) ∧ c.toNat + b.toNat = a.toNat + 2 ^ w * flag.toNat := by
  have boundA := a.isLt
  have boundB := b.isLt
  refine ⟨_, _, rfl, ?_⟩
  rw [BitVec.usubOverflow, BitVec.toNat_sub]
  by_cases under : a.toNat < b.toNat
  · rw [decide_eq_true under, Bool.toNat_true, Nat.mod_eq_of_lt (by omega)]
    omega
  · have same : 2 ^ w - b.toNat + a.toNat = a.toNat - b.toNat + 2 ^ w := by omega
    rw [decide_eq_false under, Bool.toNat_false, same, Nat.add_mod_right, Nat.mod_eq_of_lt (by omega)]
    omega

end

theorem ofFlag_toNat (positive : 0 < w) (flag : Bool) : (ofFlag w flag).toNat = flag.toNat := by
  have bound : flag.toNat < 2 ^ w := Nat.lt_of_le_of_lt (Bool.toNat_le flag) (Nat.one_lt_two_pow (by omega))
  rw [ofFlag, BitVec.toNat_setWidth, BitVec.toNat_ofBool, Nat.mod_eq_of_lt bound]

theorem widen_toNat (x : BitVec w) : (x.setWidth (w + w)).toNat = x.toNat := by
  rw [BitVec.toNat_setWidth]
  exact Nat.mod_eq_of_lt (Nat.lt_of_lt_of_le x.isLt (Nat.pow_le_pow_right (by omega) (Nat.le_add_right w w)))

theorem halves_toNat (x : BitVec (w + w)) : (high x).toNat * 2 ^ w + (low x).toNat = x.toNat := by
  have bound := x.isLt
  rw [Nat.pow_add] at bound
  have small : x.toNat / 2 ^ w < 2 ^ w := Nat.div_lt_of_lt_mul bound
  rw [high, low, BitVec.toNat_setWidth, BitVec.toNat_setWidth, BitVec.toNat_ushiftRight, Nat.shiftRight_eq_div_pow,
    Nat.mod_eq_of_lt small, Nat.mul_comm, Nat.div_add_mod]

theorem shifted_toNat (x : BitVec (w + w)) : (x >>> w).toNat = x.toNat / 2 ^ w := by
  rw [BitVec.toNat_ushiftRight, Nat.shiftRight_eq_div_pow]

/-- What a product of two words leaves free in the double word: two more words fit on top. -/
theorem product_bound (x y : BitVec w) : x.toNat * y.toNat + 2 * 2 ^ w ≤ 2 ^ (w + w) + 1 := by
  have boundX := x.isLt
  have boundY := y.isLt
  have limit := Nat.mul_le_mul (Nat.le_sub_one_of_lt boundX) (Nat.le_sub_one_of_lt boundY)
  have square : (2 ^ w - 1) * (2 ^ w - 1) + 2 * 2 ^ w = 2 ^ (w + w) + 1 := by
    obtain ⟨n, power⟩ := Nat.exists_eq_add_one_of_ne_zero (Nat.ne_of_gt (Nat.two_pow_pos w))
    have expanded : (n + 1) * (n + 1) = n * n + n + (n + 1) := by rw [Nat.mul_succ, Nat.succ_mul]
    rw [Nat.pow_add, power, Nat.add_sub_cancel, expanded]
    omega
  omega

/-- The product of two words in the double word never overflows. -/
theorem mul_widened (x y : BitVec w) :
    ∃ p, mul (x.setWidth (w + w)) (y.setWidth (w + w)) = some p ∧ p.toNat = x.toNat * y.toNat := by
  have bound := product_bound x y
  have positive := Nat.two_pow_pos w
  obtain ⟨p, computed, value⟩ := mul_exact (a := x.setWidth (w + w)) (b := y.setWidth (w + w))
    (by rw [widen_toNat, widen_toNat]; omega)
  exact ⟨p, computed, by rw [value, widen_toNat, widen_toNat]⟩

theorem toNat_append_eq {m : Nat} (hi : BitVec m) (lo : BitVec w) :
    (hi ++ lo).toNat = hi.toNat * 2 ^ w + lo.toNat := by
  rw [BitVec.toNat_append, ← Nat.shiftLeft_add_eq_or_of_lt lo.isLt, Nat.shiftLeft_eq]

/-- Signed, the upper part alone carries the sign. -/
theorem toInt_append_eq {m : Nat} (positive : 0 < m) (hi : BitVec m) (lo : BitVec w) :
    (hi ++ lo).toInt = hi.toInt * 2 ^ w + lo.toNat := by
  have nonzero : (m == 0) = false := beq_false_of_ne (by omega)
  rw [BitVec.toInt_append, nonzero, if_neg Bool.false_ne_true, Int.mul_comm]

end Checked
