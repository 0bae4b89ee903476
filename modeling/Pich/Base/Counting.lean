import Mathlib.Data.BitVec
import Mathlib.Data.Fintype.BigOperators
import Mathlib.Algebra.BigOperators.Fin
import Mathlib.Algebra.Order.BigOperators.Group.Finset
import Mathlib.SetTheory.Cardinal.Finite
import Pich.Base.Lanes

namespace Counting
open Lanes

instance fintypeBitVec {n : Nat} : Fintype (BitVec n) := Fintype.ofEquiv (Fin (2 ^ n)) BitVec.equivFin.symm.toEquiv

@[simp] theorem card_bitVec (n : Nat) : Fintype.card (BitVec n) = 2 ^ n := by
  rw [Fintype.card_congr BitVec.equivFin.toEquiv, Fintype.card_fin]

def lanesEquiv {m w n : Nat} (split : m = w * n) : BitVec m ≃ (Fin n → BitVec w) where
  toFun x i := lane w x i
  invFun f := ofLanes m (fun i => if h : i < n then f ⟨i, h⟩ else 0) n
  left_inv x := by
    refine eq_of_lanes w n (Nat.le_of_eq split) fun i within => ?_
    rw [lane_ofLanes _ within (by rw [split]; exact Nat.mul_le_mul_left w within), dif_pos within]
  right_inv f := by
    funext i
    change lane w (ofLanes m _ n) i = f i
    rw [lane_ofLanes _ i.isLt (by rw [split]; exact Nat.mul_le_mul_left w i.isLt), dif_pos i.isLt]

def mask (bytes : List (BitVec 8)) : Nat := bytes.foldr (fun b m => m ||| 2 ^ b.toNat) 0

theorem testBit_mask {bytes : List (BitVec 8)} {y : BitVec 8} (set : (mask bytes).testBit y.toNat = true) :
    y ∈ bytes := by
  induction bytes with
  | nil => simp [mask] at set
  | cons b bytes ih =>
    rw [mask, List.foldr_cons, ← mask, Nat.testBit_or, Bool.or_eq_true] at set
    rcases set with later | first
    · exact List.mem_cons_of_mem _ (ih later)
    · rw [Nat.testBit_two_pow, decide_eq_true_eq] at first
      exact List.mem_cons.mpr (.inl (BitVec.eq_of_toNat_eq first.symm))

theorem mem_of_mask {bytes : List (BitVec 8)} (full : mask bytes = 2 ^ 256 - 1) (y : BitVec 8) : y ∈ bytes := by
  apply testBit_mask
  rw [full, Nat.testBit_two_pow_sub_one, decide_eq_true_eq]
  exact y.isLt

/-- A set cannot have more preimages than its size times the largest fibre. -/
theorem card_preimage_le {α β : Type} [Fintype α] [DecidableEq β] {f : α → β} {d : Nat}
    (fibres : ∀ y, (Finset.univ.filter fun x => f x = y).card ≤ d) (P : Finset β) :
    (Finset.univ.filter fun x => f x ∈ P).card ≤ d * P.card := by
  refine Finset.card_le_mul_card_image_of_maps_to (f := f) (fun x member => (Finset.mem_filter.mp member).2) d
    fun y _ => Nat.le_trans (Finset.card_le_card fun x member => ?_) (fibres y)
  exact Finset.mem_filter.mpr ⟨Finset.mem_univ x, (Finset.mem_filter.mp member).2⟩

/-- A code that tells the members of a set apart bounds its size. -/
theorem card_le_codes {α β : Type} [Fintype β] {S : Finset α} (code : α → β)
    (apart : ∀ x ∈ S, ∀ x' ∈ S, code x = code x' → x = x') : S.card ≤ Fintype.card β := by
  rw [← Finset.card_univ]
  exact Finset.card_le_card_of_injOn code (fun _ _ => Finset.mem_coe.mpr (Finset.mem_univ _)) apart

section Selection
variable {α : Type} [Fintype α] [DecidableEq α]

theorem card_entry {k : Nat} (j : Fin (k + 1)) (v : α) :
    Fintype.card {y : Fin (k + 1) → α // y j = v} = Fintype.card α ^ k := by
  have listed : (Finset.univ.filter fun y : Fin (k + 1) → α => y j = v) =
      Fintype.piFinset fun i => if i = j then {v} else Finset.univ := by
    ext y
    simp only [Finset.mem_filter, Finset.mem_univ, true_and, Fintype.mem_piFinset]
    constructor
    · intro entry i
      split
      · rename_i same
        simp [same, entry]
      · exact Finset.mem_univ _
    · intro entries
      simpa using entries j
  rw [Fintype.card_subtype, listed, Fintype.card_piFinset, Fin.prod_univ_succAbove _ j]
  simp [Fin.succAbove_ne]

/-- Families whose entry at the place named by their first entry is prescribed. A first entry that names
itself is the prescribed value; any other leaves one of the remaining entries fixed. -/
theorem card_selected {k : Nat} (select : α → Fin (k + 2)) (v : α) :
    Fintype.card {x : Fin (k + 2) → α // x (select (x 0)) = v} =
      Fintype.card {a // select a ≠ 0} * Fintype.card α ^ k +
        if select v = 0 then Fintype.card α ^ (k + 1) else 0 := by
  have tails : ∀ a, Fintype.card {y : Fin (k + 1) → α // (Fin.cons a y : Fin (k + 2) → α) (select a) = v} =
      (if select a ≠ 0 then Fintype.card α ^ k else 0) +
        if a = v then (if select v = 0 then Fintype.card α ^ (k + 1) else 0) else 0 := by
    intro a
    rcases Fin.eq_zero_or_eq_succ (select a) with named | ⟨j, named⟩
    · by_cases same : a = v
      · subst same
        simp [named]
      · simp [named, same]
    · by_cases same : a = v
      · subst same
        simp [named, card_entry]
      · simp [named, same, card_entry]
  have split : {x : Fin (k + 2) → α // x (select (x 0)) = v} ≃
      (a : α) × {y : Fin (k + 1) → α // (Fin.cons a y : Fin (k + 2) → α) (select a) = v} :=
    ((Fin.consEquiv fun _ => α).symm.subtypeEquiv fun x => by
      simp [Fin.consEquiv]).trans
      (Equiv.subtypeProdEquivSigmaSubtype fun a y => (Fin.cons a y : Fin (k + 2) → α) (select a) = v)
  rw [Fintype.card_congr split, Fintype.card_sigma]
  simp only [tails, Finset.sum_add_distrib, Finset.sum_ite_eq', Finset.mem_univ, if_true]
  rw [← Finset.sum_filter, Finset.sum_const, smul_eq_mul, Fintype.card_subtype]

end Selection

end Counting
