import Pich.Arch

namespace Pich
open Bytes

def RCS : Vector (BitVec 16) 16 := #v[1, 1, 2, 3, 5, 8, 13, 21, 34, 55, 89, 144, 233, 377, 610, 987]

/-- Four copies of a constant side by side; it is not negative, so the sign extension is none. -/
def p (input : BitVec 16) : BitVec 64 :=
  let x := input.signExtend 64
  let y := x <<< 48
  let y := y ||| x <<< 32
  let y := y ||| x <<< 16
  y ||| x

structure Roundkey where
  id : U8
  subKey : I128
  rc : BitVec 64

/-- One step of the schedule: rotate, multiply, rotate back less far, substitute byte 14, rotate again. -/
def g (platform : Platform) (x : I128) (rc : BitVec 64) : I128 :=
  let y := Arch.rotl128 platform x 7
  let y := Arch.mul128 platform y (rc.signExtend 128)
  let y := Arch.rotr128 platform y 4
  let bytes := toLeBytes y
  let bytes := bytes.set 14 (sbox (bytes.getD 14 0))
  let y := fromLeBytes 128 bytes
  Arch.rotl128 platform y 4

/-- The schedule of the source: the seed first, then fifteen steps, each from the key before. -/
def genSubKeys (platform : Platform) (ke : I128) : List Roundkey :=
  let firstRc := RCS[0].signExtend 64
  let start : List Roundkey × I128 := ([{ id := 0, subKey := ke, rc := firstRc }], ke)
  let (keys, _) := Nat.fold 15 (fun i _ (keys, currentSubkey) =>
    let x := i + 1
    let rc := p RCS[x]
    let currentSubkey := g platform currentSubkey rc
    (keys ++ [{ id := BitVec.ofNat 8 x, subKey := currentSubkey, rc }], currentSubkey)) start
  keys

/-- The constant that makes round key `x` out of the one before. -/
def roundRc (x : Nat) : BitVec 64 := p (RCS[x]?.getD 0)

/-- The `n` round keys after round key `i`, run from any word in its place. -/
def walk (platform : Platform) (i : Nat) : Nat → I128 → I128
  | 0, x => x
  | n + 1, x => g platform (walk platform i n x) (roundRc (i + n + 1))

/-- Every round key is as many steps from the seed as its number says. -/
theorem genSubKeys_eq (platform : Platform) (ke : I128) :
    (genSubKeys platform ke).map Roundkey.subKey = (List.range 16).map fun i => walk platform 0 i ke := by
  have reached : ∀ n (bound : n ≤ 15), ∃ keys current,
      Nat.fold n (fun i _ (acc : List Roundkey × I128) =>
        (acc.1 ++ [{ id := BitVec.ofNat 8 (i + 1), subKey := g platform acc.2 (p RCS[i + 1]), rc := p RCS[i + 1] }],
          g platform acc.2 (p RCS[i + 1])))
        ([{ id := 0, subKey := ke, rc := RCS[0].signExtend 64 }], ke) = (keys, current) ∧
      keys.map Roundkey.subKey = (List.range (n + 1)).map (fun i => walk platform 0 i ke) ∧
      current = walk platform 0 n ke := by
    intro n bound
    induction n with
    | zero => exact ⟨_, _, rfl, rfl, rfl⟩
    | succ n ih =>
      obtain ⟨keys, current, folded, listed, rfl⟩ := ih (by omega)
      have constant : p RCS[n + 1] = roundRc (0 + n + 1) := by
        rw [roundRc, Nat.zero_add, Vector.getElem?_eq_getElem (by omega), Option.getD_some]
      rw [Nat.fold_succ, folded]
      refine ⟨_, _, rfl, ?_, by rw [constant, walk]⟩
      rw [List.map_append, listed, List.range_succ (n := n + 1), List.map_append, constant]
      rfl
  obtain ⟨keys, current, folded, listed, _⟩ := reached 15 (Nat.le_refl 15)
  have generated : genSubKeys platform ke = keys := congrArg Prod.fst folded
  rw [generated, listed]

@[simp] theorem genSubKeys_length (platform : Platform) (ke : I128) : (genSubKeys platform ke).length = 16 := by
  have size := congrArg List.length (genSubKeys_eq platform ke)
  rwa [List.length_map, List.length_map, List.length_range] at size

theorem genSubKeys_head (platform : Platform) (ke : I128) :
    ((genSubKeys platform ke).map Roundkey.subKey).head? = some ke := by
  rw [genSubKeys_eq]
  rfl

end Pich
