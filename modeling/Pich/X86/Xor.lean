import Pich.Base.Intel
import Pich.Fallback

namespace Pich.X86
open Lanes Bytes Intel

/-- The two advancing pointers, the count still to do, and the destination as written so far. -/
structure XorCursor where
  dst : List U8
  d : Nat
  s : Nat
  left : Nat

/-- `while left >= m / 8`: one register-wide load, load, XOR and store per pass. Positivity of the
step, which holds at both widths in use, only serves termination. -/
def xorWide (m : Nat) (src : List U8) (c : XorCursor) : Option XorCursor :=
  if _ : 0 < m / 8 ∧ m / 8 ≤ c.left then do
    let a ← loadu m c.dst c.d
    let b ← loadu m src c.s
    let dst ← storeu c.dst c.d (a ^^^ b)
    xorWide m src { dst, d := c.d + m / 8, s := c.s + m / 8, left := c.left - m / 8 }
  else some c
termination_by c.left

/-- The scalar loop over the slices rebuilt from the advanced pointers. -/
def xorTail (src : List U8) (c : XorCursor) : Option (List U8) :=
  if c.d + c.left ≤ c.dst.length ∧ c.s + c.left ≤ src.length then
    some (c.dst.take c.d ++ Fallback.xorInto ((c.dst.drop c.d).take c.left) ((src.drop c.s).take c.left) ++
      c.dst.drop (c.d + c.left))
  else none

def xorIntoAvx2 (dst src : List U8) : Option (List U8) := do
  let n := min dst.length src.length
  let c ← xorWide 256 src { dst, d := 0, s := 0, left := n }
  let c ← xorWide 128 src c
  xorTail src c

def xorIntoSse2 (dst src : List U8) : Option (List U8) := do
  let n := min dst.length src.length
  let c ← xorWide 128 src { dst, d := 0, s := 0, left := n }
  xorTail src c

def xorByte (dst src : List U8) (n i : Nat) : U8 :=
  if i < n then dst.getD i 0 ^^^ src.getD i 0 else dst.getD i 0

theorem getD_xorInto (dst src : List U8) (i : Nat) :
    (Fallback.xorInto dst src).getD i 0 = xorByte dst src (min dst.length src.length) i := by
  induction dst generalizing src i with
  | nil => simp [Fallback.xorInto, xorByte]
  | cons d dst ih =>
    cases src with
    | nil => simp [Fallback.xorInto, xorByte]
    | cons s src =>
      cases i with
      | zero => simp [Fallback.xorInto, xorByte]
      | succ i => simpa [Fallback.xorInto, xorByte, Nat.lt_min] using ih src i

/-- What holds between passes: both pointers have covered the same prefix of the overlap, that prefix
is combined, and everything behind it is untouched. -/
structure XorInv (dst src : List U8) (c : XorCursor) : Prop where
  aligned : c.s = c.d
  count : c.d + c.left = min dst.length src.length
  size : c.dst.length = dst.length
  bytes : ∀ i, c.dst.getD i 0 = xorByte dst src c.d i

theorem XorInv.start (dst src : List U8) :
    XorInv dst src { dst, d := 0, s := 0, left := min dst.length src.length } where
  aligned := rfl
  count := Nat.zero_add _
  size := rfl
  bytes i := by simp [xorByte]

theorem XorInv.wide {dst src : List U8} {c : XorCursor} (inv : XorInv dst src c) {m : Nat} (room : m / 8 ≤ c.left) :
    ∃ a b dst', loadu m c.dst c.d = some a ∧ loadu m src c.s = some b ∧
      storeu c.dst c.d (a ^^^ b) = some dst' ∧
      XorInv dst src { dst := dst', d := c.d + m / 8, s := c.s + m / 8, left := c.left - m / 8 } := by
  have count := inv.count
  have aligned := inv.aligned
  have size := inv.size
  have inDst : c.d + m / 8 ≤ c.dst.length := by omega
  have inSrc : c.s + m / 8 ≤ src.length := by omega
  refine ⟨_, _, _, loadu_eq inDst, loadu_eq inSrc, storeu_eq _ inDst, ?_, ?_, ?_, ?_⟩
  · simp only [aligned]
  · simp only
    omega
  · simp only [List.length_append, List.length_take, List.length_drop, toLeBytes_length]
    omega
  · intro i
    simp only [getD_stored _ inDst]
    split
    · rename_i inside
      have within : i - c.d < m / 8 := by omega
      have place : c.d + (i - c.d) = i := by omega
      have untouched : ¬ i < c.d := by omega
      have done : i < c.d + m / 8 := inside.2
      have old := inv.bytes i
      rw [xorByte, if_neg untouched] at old
      rw [lane_xor, lane_fromLeBytes _ within, lane_fromLeBytes _ within, xorByte, if_pos done, getD_drop, getD_drop,
        aligned, place, old]
    · rename_i outside
      rw [inv.bytes i]
      simp only [xorByte]
      have same : i < c.d ↔ i < c.d + m / 8 := by omega
      simp only [same]

theorem xorWide_inv {dst src : List U8} {m : Nat} {c : XorCursor} (inv : XorInv dst src c) :
    ∃ c', xorWide m src c = some c' ∧ XorInv dst src c' := by
  fun_induction xorWide m src c with
  | case1 c room ih =>
    obtain ⟨a, b, dst', loadDst, loadSrc, store, next⟩ := inv.wide room.2
    simp only [loadDst, loadSrc, store, Option.bind_eq_bind, Option.bind_some]
    exact ih dst' next
  | case2 c done => exact ⟨c, rfl, inv⟩

theorem XorInv.tail {dst src : List U8} {c : XorCursor} (inv : XorInv dst src c) :
    xorTail src c = some (Fallback.xorInto dst src) := by
  have count := inv.count
  have aligned := inv.aligned
  have size := inv.size
  have inside : c.d + c.left ≤ c.dst.length ∧ c.s + c.left ≤ src.length := by omega
  have front : (c.dst.take c.d).length = c.d := by simp; omega
  have tail : ((c.dst.drop c.d).take c.left).length = c.left := by simp; omega
  rw [xorTail, if_pos inside]
  congr 1
  apply ext_getD
  · simp only [List.length_append, List.length_take, List.length_drop, Fallback.xorInto_length]
    omega
  · intro i
    have old := inv.bytes i
    rw [getD_xorInto, ← count, getD_parts, front, Fallback.xorInto_length, tail]
    by_cases before : i < c.d
    · rw [if_pos before, getD_take before, old, xorByte, xorByte, if_pos before, if_pos (by omega)]
    · rw [xorByte, if_neg before] at old
      by_cases within : i < c.d + c.left
      · have place : c.d + (i - c.d) = i := by omega
        have limit : i - c.d < min c.left ((src.drop c.s).take c.left).length := by
          rw [List.length_take, List.length_drop]
          omega
        rw [if_neg before, if_pos within, getD_xorInto, tail, xorByte, if_pos limit, xorByte, if_pos within,
          getD_take (by omega), getD_take (by omega), getD_drop, getD_drop, aligned, place, old]
      · have place : c.d + c.left + (i - (c.d + c.left)) = i := by omega
        rw [if_neg before, if_neg within, getD_drop, place, old, xorByte, if_neg within]

theorem xorIntoAvx2_eq (dst src : List U8) : xorIntoAvx2 dst src = some (Fallback.xorInto dst src) := by
  obtain ⟨c, wide, inv⟩ := xorWide_inv (m := 256) (XorInv.start dst src)
  obtain ⟨c', narrow, inv'⟩ := xorWide_inv (m := 128) inv
  simp only [xorIntoAvx2, wide, narrow, Option.bind_eq_bind, Option.bind_some, inv'.tail]

theorem xorIntoSse2_eq (dst src : List U8) : xorIntoSse2 dst src = some (Fallback.xorInto dst src) := by
  obtain ⟨c, narrow, inv⟩ := xorWide_inv (m := 128) (XorInv.start dst src)
  simp only [xorIntoSse2, narrow, Option.bind_eq_bind, Option.bind_some, inv.tail]

inductive Slice
  | dst
  | src
  deriving DecidableEq

/-- A register-wide access through a raw pointer, from an offset into the slice it was taken from. -/
structure Access where
  slice : Slice
  offset : Nat
  size : Nat
  deriving DecidableEq

/-- The passes of a loop to its end, with every access they make. -/
inductive XorRun (m : Nat) (src : List U8) : XorCursor → List Access → XorCursor → Prop
  | done {c} : ¬ m / 8 ≤ c.left → XorRun m src c [] c
  | pass {c c' a b dst log} : m / 8 ≤ c.left → loadu m c.dst c.d = some a → loadu m src c.s = some b →
      storeu c.dst c.d (a ^^^ b) = some dst →
      XorRun m src { dst, d := c.d + m / 8, s := c.s + m / 8, left := c.left - m / 8 } log c' →
      XorRun m src c (⟨.dst, c.d, m / 8⟩ :: ⟨.src, c.s, m / 8⟩ :: ⟨.dst, c.d, m / 8⟩ :: log) c'

theorem xorWide_runs {m : Nat} {src : List U8} {c c' : XorCursor} (positive : 0 < m / 8)
    (wide : xorWide m src c = some c') : ∃ log, XorRun m src c log c' := by
  fun_induction xorWide m src c generalizing c' with
  | case1 c room ih =>
    simp only [Option.bind_eq_bind, Option.bind_eq_some_iff] at wide
    obtain ⟨a, loadDst, b, loadSrc, dst, store, rest⟩ := wide
    obtain ⟨log, run⟩ := ih dst rest
    exact ⟨_, .pass room.2 loadDst loadSrc store run⟩
  | case2 c stop =>
    obtain rfl := Option.some.inj wide
    exact ⟨[], .done fun room => stop ⟨positive, room⟩⟩

theorem XorRun.wide {m : Nat} {src : List U8} {c c' : XorCursor} {log : List Access} (positive : 0 < m / 8)
    (run : XorRun m src c log c') : xorWide m src c = some c' := by
  induction run with
  | done stop =>
    rw [xorWide, dif_neg fun room => stop room.2]
  | pass room loadDst loadSrc store _ ih =>
    rw [xorWide, dif_pos ⟨positive, room⟩]
    simp only [loadDst, loadSrc, store, ih, Option.bind_eq_bind, Option.bind_some]

theorem xorWide_iff {m : Nat} {src : List U8} {c c' : XorCursor} (positive : 0 < m / 8) :
    xorWide m src c = some c' ↔ ∃ log, XorRun m src c log c' := by
  constructor
  · exact xorWide_runs positive
  · rintro ⟨log, run⟩
    exact run.wide positive

/-- What a pass stores is decided by where it stands. -/
theorem stored_unique {m : Nat} {src dst dst' : List U8} {c : XorCursor} {a a' b b' : BitVec m}
    (loadDst : loadu m c.dst c.d = some a) (loadSrc : loadu m src c.s = some b)
    (store : storeu c.dst c.d (a ^^^ b) = some dst) (loadDst' : loadu m c.dst c.d = some a')
    (loadSrc' : loadu m src c.s = some b') (store' : storeu c.dst c.d (a' ^^^ b') = some dst') : dst = dst' := by
  obtain rfl := Option.some.inj (loadDst.symm.trans loadDst')
  obtain rfl := Option.some.inj (loadSrc.symm.trans loadSrc')
  exact Option.some.inj (store.symm.trans store')

/-- Where a loop starts decides which accesses it makes and where it ends. -/
theorem XorRun.unique {m : Nat} {src : List U8} {c c' c'' : XorCursor} {log log' : List Access}
    (run : XorRun m src c log c') (run' : XorRun m src c log' c'') : log' = log ∧ c'' = c' := by
  induction run generalizing log' with
  | done stop =>
    cases run' with
    | done => exact ⟨rfl, rfl⟩
    | pass room => exact absurd room stop
  | pass room loadDst loadSrc store _ ih =>
    cases run' with
    | done stop => exact absurd room stop
    | pass _ loadDst' loadSrc' store' rest =>
      obtain rfl := stored_unique loadDst loadSrc store loadDst' loadSrc' store'
      obtain ⟨logs, ends⟩ := ih rest
      exact ⟨by rw [logs], ends⟩

/-- A loop that starts inside the overlap stays inside it. -/
theorem XorRun.within {dst src : List U8} {m : Nat} {c c' : XorCursor} {log : List Access}
    (run : XorRun m src c log c') (inv : XorInv dst src c) :
    XorInv dst src c' ∧ ∀ access ∈ log, access.offset + access.size ≤ min dst.length src.length := by
  induction run with
  | done => exact ⟨inv, List.forall_mem_nil _⟩
  | @pass c _ _ _ _ _ room loadDst loadSrc store _ ih =>
    obtain ⟨a, b, dst', loadDst', loadSrc', store', next⟩ := inv.wide room
    obtain rfl := stored_unique loadDst loadSrc store loadDst' loadSrc' store'
    obtain ⟨last, rest⟩ := ih next
    have count := inv.count
    have aligned := inv.aligned
    have inDst : c.d + m / 8 ≤ min dst.length src.length := by omega
    have inSrc : c.s + m / 8 ≤ min dst.length src.length := by omega
    exact ⟨last, List.forall_mem_cons.mpr
      ⟨inDst, List.forall_mem_cons.mpr ⟨inSrc, List.forall_mem_cons.mpr ⟨inDst, rest⟩⟩⟩⟩

theorem xorInto_getElem? (dst src : List U8) (i : Nat) :
    (Fallback.xorInto dst src)[i]? =
      if i < min dst.length src.length then some (dst.getD i 0 ^^^ src.getD i 0) else dst[i]? := by
  have byte := getD_xorInto dst src i
  by_cases inside : i < dst.length
  · have bound : i < (Fallback.xorInto dst src).length := by rwa [Fallback.xorInto_length]
    rw [List.getD_eq_getElem?_getD, List.getElem?_eq_getElem bound, Option.getD_some, xorByte] at byte
    rw [List.getElem?_eq_getElem bound, byte]
    split
    · rfl
    · rw [List.getD_eq_getElem?_getD, List.getElem?_eq_getElem inside, Option.getD_some]
  · rw [List.getElem?_eq_none (by rw [Fallback.xorInto_length]; omega), if_neg (by omega),
      List.getElem?_eq_none (by omega)]

/-- What the vector loops leave in the destination, and where they read and write. The runs of the loops are the only
ones. -/
theorem xorInto_overlap (dst src : List U8) :
    ∃ out, (xorIntoAvx2 dst src = some out ∧ xorIntoSse2 dst src = some out ∧ Fallback.xorInto dst src = out) ∧
      (out.length = dst.length ∧
        (∀ i, i < min dst.length src.length → out[i]? = some (dst.getD i 0 ^^^ src.getD i 0)) ∧
        ∀ i, min dst.length src.length ≤ i → out[i]? = dst[i]?) ∧
      (∃ log c log' c',
        XorRun 256 src { dst, d := 0, s := 0, left := min dst.length src.length } log c ∧
        XorRun 128 src c log' c' ∧ xorTail src c' = some out ∧
        (∀ access ∈ log ++ log', access.offset + access.size ≤ min dst.length src.length) ∧
        ∀ other d other' d', XorRun 256 src { dst, d := 0, s := 0, left := min dst.length src.length } other d →
          XorRun 128 src d other' d' → other ++ other' = log ++ log' ∧ d' = c') ∧
      ∃ log c, XorRun 128 src { dst, d := 0, s := 0, left := min dst.length src.length } log c ∧
        xorTail src c = some out ∧ (∀ access ∈ log, access.offset + access.size ≤ min dst.length src.length) ∧
        ∀ other d, XorRun 128 src { dst, d := 0, s := 0, left := min dst.length src.length } other d →
          other = log ∧ d = c := by
  have byte := xorInto_getElem? dst src
  obtain ⟨c, wide, inv⟩ := xorWide_inv (m := 256) (XorInv.start dst src)
  obtain ⟨c', narrow, inv'⟩ := xorWide_inv (m := 128) inv
  obtain ⟨c'', alone, inv''⟩ := xorWide_inv (m := 128) (XorInv.start dst src)
  obtain ⟨log, run⟩ := (xorWide_iff (by omega)).mp wide
  obtain ⟨log', run'⟩ := (xorWide_iff (by omega)).mp narrow
  obtain ⟨log'', run''⟩ := (xorWide_iff (by omega)).mp alone
  refine ⟨_, ⟨xorIntoAvx2_eq dst src, xorIntoSse2_eq dst src, rfl⟩, ⟨Fallback.xorInto_length dst src, ?_, ?_⟩,
    ⟨log, c, log', c', run, run', inv'.tail, ?_, ?_⟩, log'', c'', run'', inv''.tail, ?_, fun _ _ => run''.unique⟩
  · intro i inside
    rw [byte, if_pos inside]
  · intro i outside
    rw [byte, if_neg (by omega)]
  · intro access member
    rcases List.mem_append.mp member with first | second
    · exact (run.within (XorInv.start dst src)).2 access first
    · exact (run'.within inv).2 access second
  · intro other d other' d' first second
    obtain ⟨rfl, rfl⟩ := run.unique first
    obtain ⟨rfl, rfl⟩ := run'.unique second
    exact ⟨rfl, rfl⟩
  · exact (run''.within (XorInv.start dst src)).2

end Pich.X86
