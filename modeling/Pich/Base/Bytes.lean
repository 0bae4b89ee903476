import Pich.Base.Lanes

namespace Bytes
open Lanes

/-- The bytes of a word, least significant first. -/
def toLeBytes {m : Nat} (x : BitVec m) : List (BitVec 8) := (List.range (m / 8)).map (lane 8 x)

/-- The `m`-bit word with these bytes, least significant first. -/
def fromLeBytes (m : Nat) (bytes : List (BitVec 8)) : BitVec m :=
  ofLanes m (fun i => bytes.getD i 0) (m / 8)

/-- The bytes of a word, most significant first. -/
def toBeBytes {m : Nat} (x : BitVec m) : List (BitVec 8) := (toLeBytes x).reverse

/-- The `m`-bit word with these bytes, most significant first. -/
def fromBeBytes (m : Nat) (bytes : List (BitVec 8)) : BitVec m := fromLeBytes m bytes.reverse

@[simp] theorem toLeBytes_length {m : Nat} (x : BitVec m) : (toLeBytes x).length = m / 8 := by
  simp [toLeBytes]

@[simp] theorem toBeBytes_length {m : Nat} (x : BitVec m) : (toBeBytes x).length = m / 8 := by
  simp [toBeBytes]

theorem toLeBytes_getElem? {m i : Nat} (x : BitVec m) (within : i < m / 8) :
    (toLeBytes x)[i]? = some (lane 8 x i) := by
  simp [toLeBytes, within]

theorem toLeBytes_getD {m i : Nat} (x : BitVec m) (within : i < m / 8) :
    (toLeBytes x).getD i 0 = lane 8 x i := by
  rw [List.getD_eq_getElem?_getD, toLeBytes_getElem? x within, Option.getD_some]

theorem lane_fromLeBytes {m i : Nat} (bytes : List (BitVec 8)) (within : i < m / 8) :
    lane 8 (fromLeBytes m bytes) i = bytes.getD i 0 :=
  lane_ofLanes _ within (lane_room within)

theorem toLeBytes_fromLeBytes {m : Nat} {bytes : List (BitVec 8)} (size : bytes.length = m / 8) :
    toLeBytes (fromLeBytes m bytes) = bytes := by
  apply List.ext_getElem?
  intro i
  by_cases within : i < m / 8
  · have bound : i < bytes.length := by omega
    rw [toLeBytes_getElem? _ within, lane_fromLeBytes _ within, List.getD_eq_getElem?_getD,
      List.getElem?_eq_getElem bound, Option.getD_some]
  · rw [List.getElem?_eq_none (by simpa using within), List.getElem?_eq_none (by omega)]

/-- A word put back together after each of its bytes was exchanged. -/
theorem lane_mapBytes {m i : Nat} (f : BitVec 8 → BitVec 8) (x : BitVec m) (within : i < m / 8) :
    lane 8 (fromLeBytes m ((toLeBytes x).map f)) i = f (lane 8 x i) := by
  rw [lane_fromLeBytes _ within, List.getD_eq_getElem?_getD, List.getElem?_map, toLeBytes_getElem? x within,
    Option.map_some, Option.getD_some]

/-- Bytes exchanged one by one give the same word in either byte order. -/
theorem fromBeBytes_map {m : Nat} (f : BitVec 8 → BitVec 8) (x : BitVec m) :
    fromBeBytes m ((toBeBytes x).map f) = fromLeBytes m ((toLeBytes x).map f) := by
  rw [fromBeBytes, toBeBytes, ← List.map_reverse, List.reverse_reverse]

/-- A word put back together after one of its bytes was exchanged. -/
theorem lane_setByte {m i : Nat} (x : BitVec m) (j : Nat) (byte : BitVec 8) (within : i < m / 8) :
    lane 8 (fromLeBytes m ((toLeBytes x).set j byte)) i = if i = j then byte else lane 8 x i := by
  have bound : i < (toLeBytes x).length := by rwa [toLeBytes_length]
  rw [lane_fromLeBytes _ within, List.getD_eq_getElem?_getD, List.getElem?_set]
  by_cases same : i = j
  · rw [if_pos same.symm, if_pos same, ← same, if_pos bound, Option.getD_some]
  · rw [if_neg (Ne.symm same), if_neg same, toLeBytes_getElem? x within, Option.getD_some]

theorem toLeBytes_injective {m : Nat} (whole : 8 ∣ m) {x y : BitVec m} (same : toLeBytes x = toLeBytes y) :
    x = y := by
  refine eq_of_lanes 8 (m / 8) (Nat.le_of_eq (Nat.mul_div_cancel' whole).symm) fun i within => ?_
  rw [← toLeBytes_getD x within, same, toLeBytes_getD y within]

theorem toBeBytes_injective {m : Nat} (whole : 8 ∣ m) {x y : BitVec m} (same : toBeBytes x = toBeBytes y) : x = y :=
  toLeBytes_injective whole (List.reverse_inj.mp same)

theorem toBeBytes_fromBeBytes {m : Nat} {bytes : List (BitVec 8)} (size : bytes.length = m / 8) :
    toBeBytes (fromBeBytes m bytes) = bytes := by
  simp only [fromBeBytes, toBeBytes, toLeBytes_fromLeBytes (List.length_reverse.trans size),
    List.reverse_reverse]

theorem fromBeBytes_toBeBytes {m : Nat} (whole : 8 ∣ m) (x : BitVec m) : fromBeBytes m (toBeBytes x) = x :=
  toBeBytes_injective whole (toBeBytes_fromBeBytes (toBeBytes_length x))

theorem toBeBytes_append {m n : Nat} (whole : 8 ∣ m) (whole' : 8 ∣ n) (x : BitVec m) (y : BitVec n) :
    toBeBytes (x ++ y) = toBeBytes x ++ toBeBytes y := by
  have count : (m + n) / 8 = n / 8 + m / 8 := by omega
  have split : n = 8 * (n / 8) := by omega
  have low : (List.range (n / 8)).map (lane 8 (x ++ y)) = (List.range (n / 8)).map (lane 8 y) :=
    List.map_congr_left fun i among => lane_append_low x y (by have := List.mem_range.mp among; omega)
  have high : (List.range (m / 8)).map (lane 8 (x ++ y) ∘ (n / 8 + ·)) = (List.range (m / 8)).map (lane 8 x) :=
    List.map_congr_left fun i _ => lane_append_high split x y i
  rw [toBeBytes, toBeBytes, toBeBytes, toLeBytes, toLeBytes, toLeBytes, count, List.range_add, List.map_append,
    List.map_map, low, high, List.reverse_append]

/-- Two words read from the halves of a buffer have the bytes of the buffer. -/
theorem toBeBytes_halves {m : Nat} {bytes : List (BitVec 8)} (size : bytes.length = m / 8 + m / 8) :
    toBeBytes (fromBeBytes m (bytes.extract 0 (m / 8))) ++
      toBeBytes (fromBeBytes m (bytes.extract (m / 8) (m / 8 + m / 8))) = bytes := by
  have low : bytes.extract 0 (m / 8) = bytes.take (m / 8) := by
    rw [List.extract_eq_take_drop, Nat.sub_zero, List.drop_zero]
  have high : bytes.extract (m / 8) (m / 8 + m / 8) = bytes.drop (m / 8) := by
    rw [List.extract_eq_take_drop, Nat.add_sub_cancel]
    exact List.take_of_length_le (by rw [List.length_drop]; omega)
  rw [low, high, toBeBytes_fromBeBytes (by rw [List.length_take]; omega),
    toBeBytes_fromBeBytes (by rw [List.length_drop]; omega), List.take_append_drop]

theorem getD_take {n i : Nat} {buf : List (BitVec 8)} (below : i < n) : (buf.take n).getD i 0 = buf.getD i 0 := by
  simp only [List.getD_eq_getElem?_getD, List.getElem?_take_of_lt below]

theorem getD_drop (n i : Nat) (buf : List (BitVec 8)) : (buf.drop n).getD i 0 = buf.getD (n + i) 0 := by
  simp only [List.getD_eq_getElem?_getD, List.getElem?_drop]

/-- A byte of three parts put together comes from one of them. -/
theorem getD_parts (a b c : List (BitVec 8)) (i : Nat) : (a ++ b ++ c).getD i 0 =
    if i < a.length then a.getD i 0
    else if i < a.length + b.length then b.getD (i - a.length) 0
    else c.getD (i - (a.length + b.length)) 0 := by
  simp only [List.getD_eq_getElem?_getD, List.getElem?_append, List.length_append]
  by_cases first : i < a.length
  · rw [if_pos (by omega), if_pos first, if_pos first]
  · by_cases second : i < a.length + b.length
    · rw [if_pos second, if_neg first, if_neg first, if_pos second]
    · rw [if_neg second, if_neg first, if_neg second]

theorem ext_getD {xs ys : List (BitVec 8)} (size : xs.length = ys.length) (bytes : ∀ i, xs.getD i 0 = ys.getD i 0) :
    xs = ys := by
  apply List.ext_getElem size
  intro i hx hy
  have at_i := bytes i
  rwa [List.getD_eq_getElem?_getD, List.getD_eq_getElem?_getD, List.getElem?_eq_getElem hx,
    List.getElem?_eq_getElem hy, Option.getD_some, Option.getD_some] at at_i

/-- The XOR of two byte strings, as long as the shorter one. -/
def xorBytes (a b : List (BitVec 8)) : List (BitVec 8) := List.zipWith (· ^^^ ·) a b

@[simp] theorem xorBytes_length (a b : List (BitVec 8)) : (xorBytes a b).length = min a.length b.length :=
  List.length_zipWith

theorem xorBytes_append {a b c d : List (BitVec 8)} (size : a.length = c.length) :
    xorBytes (a ++ b) (c ++ d) = xorBytes a c ++ xorBytes b d :=
  List.zipWith_append size

theorem xorBytes_getD {a b : List (BitVec 8)} {i : Nat} (left : i < a.length) (right : i < b.length) :
    (xorBytes a b).getD i 0 = a.getD i 0 ^^^ b.getD i 0 := by
  simp only [xorBytes, List.getD_eq_getElem?_getD, List.getElem?_zipWith, List.getElem?_eq_getElem left,
    List.getElem?_eq_getElem right, Option.getD_some]

theorem xorBytes_cancel {a b : List (BitVec 8)} (size : a.length = b.length) : xorBytes a (xorBytes a b) = b := by
  apply List.ext_getElem
  · simp [size]
  · intro i _ _
    simp only [xorBytes, List.getElem_zipWith]
    rw [← BitVec.xor_assoc, BitVec.xor_self, BitVec.zero_xor]

end Bytes
