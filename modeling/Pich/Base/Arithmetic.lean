import Mathlib.Algebra.Group.Nat.Defs

/-! Computations over number types whose operations may fail, and maps between such types. -/

namespace Arithmetic

inductive Expr (α : Type)
  | value (a : α)
  | add (x y : Expr α)
  | sub (x y : Expr α)
  | neg (x : Expr α)
  | mul (x y : Expr α)

structure Ops (α : Type) where
  add : α → α → Option α
  sub : α → α → Option α
  neg : α → Option α
  mul : α → α → Option α

/-- The operations of a type on which none fails. -/
def Ops.total (α : Type) [Add α] [Sub α] [Neg α] [Mul α] : Ops α where
  add x y := some (x + y)
  sub x y := some (x - y)
  neg x := some (-x)
  mul x y := some (x * y)

/-- A map that turns the operations of one type into those of another. -/
structure Hom {α β : Type} (ops : Ops α) (ops' : Ops β) (f : α → β) : Prop where
  add : ∀ x y, ops'.add (f x) (f y) = (ops.add x y).map f
  sub : ∀ x y, ops'.sub (f x) (f y) = (ops.sub x y).map f
  neg : ∀ x, ops'.neg (f x) = (ops.neg x).map f
  mul : ∀ x y, ops'.mul (f x) (f y) = (ops.mul x y).map f

theorem Hom.same {α : Type} (ops : Ops α) : Hom ops ops fun a => a where
  add x y := by rw [Option.map_id']
  sub x y := by rw [Option.map_id']
  neg x := by rw [Option.map_id']
  mul x y := by rw [Option.map_id']

theorem Hom.comp {α β γ : Type} {ops : Ops α} {ops' : Ops β} {ops'' : Ops γ} {f : α → β} {g : β → γ}
    (outer : Hom ops' ops'' g) (inner : Hom ops ops' f) : Hom ops ops'' (g ∘ f) where
  add x y := by rw [Function.comp_apply, Function.comp_apply, outer.add, inner.add, Option.map_map]
  sub x y := by rw [Function.comp_apply, Function.comp_apply, outer.sub, inner.sub, Option.map_map]
  neg x := by rw [Function.comp_apply, outer.neg, inner.neg, Option.map_map]
  mul x y := by rw [Function.comp_apply, Function.comp_apply, outer.mul, inner.mul, Option.map_map]

namespace Expr
variable {α β : Type}

def map (f : α → β) : Expr α → Expr β
  | value a => value (f a)
  | add x y => add (x.map f) (y.map f)
  | sub x y => sub (x.map f) (y.map f)
  | neg x => neg (x.map f)
  | mul x y => mul (x.map f) (y.map f)

def eval (ops : Ops α) : Expr α → Option α
  | value a => some a
  | add x y => do ops.add (← x.eval ops) (← y.eval ops)
  | sub x y => do ops.sub (← x.eval ops) (← y.eval ops)
  | neg x => do ops.neg (← x.eval ops)
  | mul x y => do ops.mul (← x.eval ops) (← y.eval ops)

theorem map_map {γ : Type} (f : α → β) (g : β → γ) (e : Expr α) : (e.map f).map g = e.map (g ∘ f) := by
  induction e with
  | value a => rfl
  | add x y ihx ihy => rw [map, map, map, ihx, ihy]
  | sub x y ihx ihy => rw [map, map, map, ihx, ihy]
  | neg x ih => rw [map, map, map, ih]
  | mul x y ihx ihy => rw [map, map, map, ihx, ihy]

variable {ops : Ops α} {ops' : Ops β} {f : α → β}

/-- Mapping the values and computing is computing and mapping the result, failures included. -/
theorem eval_map (hom : Hom ops ops' f) (e : Expr α) : (e.map f).eval ops' = (e.eval ops).map f := by
  have binary : ∀ {op : α → α → Option α} {op' : β → β → Option β}, (∀ x y, op' (f x) (f y) = (op x y).map f) →
      ∀ a b : Option α, ((a.map f).bind fun x => (b.map f).bind fun y => op' x y) =
        (a.bind fun x => b.bind fun y => op x y).map f := fun same a b => by
    cases a <;> cases b <;> simp [same]
  induction e with
  | value a => rfl
  | add x y ihx ihy =>
    rw [map, eval, eval, ihx, ihy]
    exact binary hom.add _ _
  | sub x y ihx ihy =>
    rw [map, eval, eval, ihx, ihy]
    exact binary hom.sub _ _
  | neg x ih =>
    rw [map, eval, eval, ih]
    cases x.eval ops with
    | none => rfl
    | some a => exact hom.neg a
  | mul x y ihx ihy =>
    rw [map, eval, eval, ihx, ihy]
    exact binary hom.mul _ _

/-- On a type on which no operation fails, no computation does. -/
theorem eval_total [Add α] [Sub α] [Neg α] [Mul α] (e : Expr α) : ∃ a, e.eval (.total α) = some a := by
  induction e with
  | value a => exact ⟨a, rfl⟩
  | add x y ihx ihy =>
    obtain ⟨a, left⟩ := ihx
    obtain ⟨b, right⟩ := ihy
    exact ⟨a + b, by rw [eval, left, right]; rfl⟩
  | sub x y ihx ihy =>
    obtain ⟨a, left⟩ := ihx
    obtain ⟨b, right⟩ := ihy
    exact ⟨a - b, by rw [eval, left, right]; rfl⟩
  | neg x ih =>
    obtain ⟨a, computed⟩ := ih
    exact ⟨-a, by rw [eval, computed]; rfl⟩
  | mul x y ihx ihy =>
    obtain ⟨a, left⟩ := ihx
    obtain ⟨b, right⟩ := ihy
    exact ⟨a * b, by rw [eval, left, right]; rfl⟩

/-- A type that maps into one on which no operation fails has every computation succeed. -/
theorem eval_of_hom [Add β] [Sub β] [Neg β] [Mul β] (hom : Hom ops (.total β) f) (e : Expr α) :
    ∃ a, e.eval ops = some a ∧ (e.map f).eval (.total β) = some (f a) := by
  obtain ⟨b, total⟩ := (e.map f).eval_total
  rw [eval_map hom, Option.map_eq_some_iff] at total
  obtain ⟨a, computed, _⟩ := total
  exact ⟨a, computed, by rw [eval_map hom, computed, Option.map_some]⟩

end Expr

section Words

theorem hom_ofInt (w : Nat) : Hom (.total Int) (.total (BitVec w)) (BitVec.ofInt w) where
  add x y := congrArg some (BitVec.ofInt_add x y).symm
  sub x y := by
    change some (BitVec.ofInt w x - BitVec.ofInt w y) = some (BitVec.ofInt w (x - y))
    rw [Int.sub_eq_add_neg, BitVec.ofInt_add, BitVec.ofInt_neg, BitVec.sub_eq_add_neg]
  neg x := congrArg some BitVec.ofInt_neg.symm
  mul x y := congrArg some (BitVec.ofInt_mul x y).symm

theorem hom_setWidth {w v : Nat} (narrow : v ≤ w) : Hom (.total (BitVec w)) (.total (BitVec v)) (BitVec.setWidth v) where
  add x y := congrArg some (BitVec.setWidth_add x y narrow).symm
  sub x y := by
    change some (x.setWidth v - y.setWidth v) = some ((x - y).setWidth v)
    rw [BitVec.sub_eq_add_neg, BitVec.sub_eq_add_neg, BitVec.setWidth_add _ _ narrow, BitVec.setWidth_neg_of_le narrow]
  neg x := congrArg some (BitVec.setWidth_neg_of_le narrow).symm
  mul x y := congrArg some (BitVec.setWidth_mul x y narrow).symm

/-- A computation on words of `w` bits is the one on integers, reduced once, at its end. -/
theorem eval_reduced {α : Type} {ops : Ops α} {w : Nat} {bits : α → BitVec w} (hom : Hom ops (.total (BitVec w)) bits)
    (e : Expr α) : ∃ z n, e.eval ops = some z ∧ (e.map fun a => (bits a).toInt).eval (.total Int) = some n ∧
      (bits z).toInt = n.bmod (2 ^ w) := by
  obtain ⟨z, computed, words⟩ := e.eval_of_hom hom
  obtain ⟨n, exact⟩ := (e.map fun a => (bits a).toInt).eval_total
  have reduced := Expr.eval_map (hom_ofInt w) (e.map fun a => (bits a).toInt)
  have back : BitVec.ofInt w ∘ (fun a => (bits a).toInt) = bits := by
    funext a
    exact BitVec.ofInt_toInt
  rw [Expr.map_map, back, words, exact, Option.map_some, Option.some.injEq] at reduced
  exact ⟨z, n, computed, exact, by rw [reduced, BitVec.toInt_ofInt]⟩

end Words

end Arithmetic
