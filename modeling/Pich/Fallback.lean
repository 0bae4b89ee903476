import Pich.Base.Bytes
import Pich.Sbox

namespace Pich.Fallback
open Lanes Bytes

def subBytes (bytes : List U8) : List U8 := bytes.map sbox

/-- The portable round, which defines what every other round has to compute. -/
def round128 (w subKey : U128) : U128 :=
  let rotated := w.rotateRight 7
  let bytes := toLeBytes rotated
  let bytes := subBytes bytes
  fromLeBytes 128 bytes ^^^ subKey

def rotl128 (x : U128) (n : U32) : U128 := x.rotateLeft n.toNat

def rotr128 (x : U128) (n : U32) : U128 := x.rotateRight n.toNat

def mul128 (a b : U128) : U128 := a * b

/-- The zipped loop: the rest of a longer destination is left as it was. -/
def xorInto : List U8 → List U8 → List U8
  | d :: dst, s :: src => (d ^^^ s) :: xorInto dst src
  | dst, _ => dst

@[simp] theorem xorInto_length (dst src : List U8) : (xorInto dst src).length = dst.length := by
  induction dst, src using xorInto.induct with
  | case1 d dst s src ih => simp only [xorInto, List.length_cons, ih]
  | case2 dst src _ => cases dst <;> cases src <;> simp_all [xorInto]

/-- Slices of one length are folded together whole. -/
theorem xorInto_eq_zipWith {dst src : List U8} (size : dst.length = src.length) :
    xorInto dst src = List.zipWith (· ^^^ ·) dst src := by
  induction dst, src using xorInto.induct with
  | case1 d dst s src ih => rw [xorInto, List.zipWith_cons_cons, ih (by simpa using size)]
  | case2 dst src empty =>
    cases dst with
    | nil => rfl
    | cons d dst =>
      cases src with
      | nil => cases size
      | cons s src => exact absurd rfl (empty d dst s src rfl)

/-- The substitution layer on its own, as a map of 128-bit words. -/
def substitute (w : U128) : U128 := fromLeBytes 128 (subBytes (toLeBytes w))

theorem lane_substitute (w : U128) {i : Nat} (within : i < 16) :
    lane 8 (substitute w) i = sbox (lane 8 w i) :=
  lane_mapBytes sbox w within

theorem round128_eq (w subKey : U128) : round128 w subKey = substitute (w.rotateRight 7) ^^^ subKey := rfl

/-- A word whose sixteen bytes are the substituted ones is the substituted word. -/
theorem eq_substitute {w out : U128} (bytes : ∀ i, i < 16 → lane 8 out i = sbox (lane 8 w i)) :
    out = substitute w := by
  refine eq_of_lanes 8 16 (by omega) fun i within => ?_
  rw [bytes i within, lane_substitute w within]

end Pich.Fallback
