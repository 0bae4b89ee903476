namespace Pich

abbrev U8 := BitVec 8
abbrev U32 := BitVec 32
abbrev U64 := BitVec 64
abbrev U128 := BitVec 128

/-- `I128` is a transparent newtype of `i128`; the casts between `i128` and `u128` keep the bits. -/
abbrev I128 := BitVec 128

/-- `usize` of the 64-bit target. -/
abbrev Usize := BitVec 64

/-- `copy_from_slice` at an offset; a slice that does not fit is excluded by the type. -/
def copyFromSlice {n : Nat} (dst : Vector U8 n) (off : Nat) (src : List U8) (room : off + src.length ≤ n) :
    Vector U8 n :=
  ⟨(dst.toList.take off ++ src ++ dst.toList.drop (off + src.length)).toArray, by simp; omega⟩

theorem copyFromSlice_toList {n : Nat} (dst : Vector U8 n) (off : Nat) (src : List U8)
    (room : off + src.length ≤ n) : (copyFromSlice dst off src room).toList =
      dst.toList.take off ++ src ++ dst.toList.drop (off + src.length) := by
  simp [copyFromSlice]

end Pich
