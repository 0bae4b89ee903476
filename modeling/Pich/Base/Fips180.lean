import Mathlib.NumberTheory.PrimeCounting
import Mathlib.Analysis.SpecialFunctions.Pow.NthRootLemmas
import Pich.Base.Bytes
import Pich.Base.Sha2

namespace Fips180
open Lanes Bytes Sha2

def wordBits {m : Nat} (x : BitVec m) : List Bool := (List.range m).map x.getMsbD

def byteBits (bytes : List (BitVec 8)) : List Bool := bytes.flatMap wordBits

/-- The first 32 bits of the fractional part of the `n`-th root of `p`. -/
def rootFraction (n p : Nat) : BitVec 32 := BitVec.ofNat 32 (Nat.nthRoot n (p * 2 ^ (32 * n)))

/-- The constants: fractional parts of the cube roots of the primes. -/
noncomputable def constant (t : Nat) : BitVec 32 := rootFraction 3 (Nat.nth Nat.Prime t)

/-- The initial hash value: fractional parts of the square roots of the first eight primes. -/
noncomputable def initial : Words :=
  let word i := rootFraction 2 (Nat.nth Nat.Prime i)
  ⟨word 0, word 1, word 2, word 3, word 4, word 5, word 6, word 7⟩

theorem padding_exists (l : Nat) : ∃ k, (l + 1 + k) % 512 = 448 := ⟨(447 + 511 * l) % 512, by omega⟩

/-- The least number of zero bits that completes the padding. -/
def zeros (l : Nat) : Nat := Nat.find (padding_exists l)

/-- The message, a one, the zeros, and the length in 64 bits. -/
def pad (message : List Bool) : List Bool :=
  message ++ [true] ++ List.replicate (zeros message.length) false ++
    wordBits (BitVec.ofNat 64 message.length)

/-- The 32-bit word whose most significant bit is bit `pos`. -/
def wordAt (bits : List Bool) (pos : Nat) : BitVec 32 :=
  ofLanes 32 (fun j => BitVec.ofBool (bits.getD (pos + 31 - j) false)) 32

def block (padded : List Bool) (i t : Nat) : BitVec 32 := wordAt padded (512 * i + 32 * t)

noncomputable def hashValue (padded : List Bool) : Nat → Words
  | 0 => initial
  | i + 1 => compress constant (block padded i) (hashValue padded i)

/-- The digest of a bit string, as 256 bits. -/
noncomputable def sha256 (message : List Bool) : List Bool :=
  let padded := pad message
  let v := hashValue padded (padded.length / 512)
  [v.a, v.b, v.c, v.d, v.e, v.f, v.g, v.h].flatMap wordBits

/-- The bytes of a bit string whose length is a multiple of eight. -/
def octets (bits : List Bool) : List (BitVec 8) :=
  (List.range (bits.length / 8)).map fun i =>
    ofLanes 8 (fun j => BitVec.ofBool (bits.getD (8 * i + 7 - j) false)) 8

/-- The hash function on byte strings. -/
noncomputable def hash (message : List (BitVec 8)) : List (BitVec 8) := octets (sha256 (byteBits message))

section Bits

@[simp] theorem wordBits_length {m : Nat} (x : BitVec m) : (wordBits x).length = m := by
  rw [wordBits, List.length_map, List.length_range]

theorem wordBits_getElem? {m : Nat} (x : BitVec m) {k : Nat} (within : k < m) :
    (wordBits x)[k]? = some (x.getMsbD k) := by
  simp [wordBits, within]

@[simp] theorem byteBits_append (a b : List (BitVec 8)) : byteBits (a ++ b) = byteBits a ++ byteBits b :=
  List.flatMap_append

@[simp] theorem byteBits_length (bytes : List (BitVec 8)) : (byteBits bytes).length = 8 * bytes.length := by
  induction bytes with
  | nil => rfl
  | cons b bytes ih =>
    rw [byteBits, List.flatMap_cons, List.length_append, wordBits_length, ← byteBits, ih, List.length_cons]
    omega

theorem byteBits_getElem? (bytes : List (BitVec 8)) (k : Nat) :
    (byteBits bytes)[k]? = bytes[k / 8]?.map fun b => b.getMsbD (k % 8) := by
  induction bytes generalizing k with
  | nil => simp [byteBits]
  | cons b bytes ih =>
    rw [byteBits, List.flatMap_cons, List.getElem?_append, wordBits_length, ← byteBits]
    split
    · rename_i first
      rw [wordBits_getElem? b first, Nat.div_eq_of_lt first, Nat.mod_eq_of_lt first]
      rfl
    · rename_i later
      have quotient : k / 8 = (k - 8) / 8 + 1 := by omega
      have remainder : k % 8 = (k - 8) % 8 := by omega
      rw [ih, quotient, remainder, List.getElem?_cons_succ]

theorem byteBits_toBeBytes {m : Nat} (whole : 8 ∣ m) (x : BitVec m) : byteBits (toBeBytes x) = wordBits x := by
  have covers := Nat.mul_div_cancel' whole
  apply List.ext_getElem?
  intro k
  by_cases within : k < m
  · have byte : k / 8 < m / 8 := by omega
    have place : 8 * (m / 8 - 1 - k / 8) + (8 - 1 - k % 8) = m - 1 - k := by omega
    have small : k % 8 < 8 := Nat.mod_lt k (by omega)
    rw [wordBits_getElem? x within, byteBits_getElem?, toBeBytes, List.getElem?_reverse (by simpa using byte),
      toLeBytes_length, toLeBytes_getElem? x (by omega), Option.map_some]
    simp only [BitVec.getMsbD, getLsbD_lane, place, within, small, decide_true, Bool.true_and,
      show 8 - 1 - k % 8 < 8 by omega]
  · rw [List.getElem?_eq_none (by simp; omega), List.getElem?_eq_none (by simp; omega)]

theorem octets_byteBits (bytes : List (BitVec 8)) : octets (byteBits bytes) = bytes := by
  apply List.ext_getElem
  · simp [octets]
  · intro i bound within
    have inside : i < (byteBits bytes).length / 8 := by simpa [octets] using bound
    apply BitVec.eq_of_getLsbD_eq
    intro j hj
    have quotient : (8 * i + 7 - j) / 8 = i := by omega
    have remainder : (8 * i + 7 - j) % 8 = 7 - j := by omega
    have back : 8 - 1 - (7 - j) = j := by omega
    have small : 7 - j < 8 := by omega
    simp only [octets, List.getElem_map, List.getElem_range, getLsbD_ofLanes, Nat.div_one, List.getD_eq_getElem?_getD,
      byteBits_getElem?, quotient, remainder, List.getElem?_eq_getElem within, Option.map_some, Option.getD_some]
    simp [hj, Nat.mod_one, BitVec.getMsbD, back, small]

theorem getLsbD_wordAt (bits : List Bool) (pos : Nat) {j : Nat} (within : j < 32) :
    (wordAt bits pos).getLsbD j = bits.getD (pos + 31 - j) false := by
  rw [wordAt, getLsbD_ofLanes]
  simp [within, Nat.mod_one]

end Bits

section Padding

theorem zeros_eq (l : Nat) : zeros l = (959 - l % 512) % 512 := by
  refine (Nat.find_eq_iff _).mpr ⟨by omega, fun k below => by omega⟩

end Padding

section Constants

/-- A word that after some integer part brackets the root is its fraction. -/
theorem rootFraction_eq {n p c : Nat} {word : BitVec 32}
    (low : (c * 2 ^ 32 + word.toNat) ^ n ≤ p * 2 ^ (32 * n))
    (high : p * 2 ^ (32 * n) < (c * 2 ^ 32 + word.toNat + 1) ^ n) : rootFraction n p = word := by
  have small := word.isLt
  apply BitVec.eq_of_toNat_eq
  rw [rootFraction, Nat.nthRoot_eq_of_le_of_lt low high, BitVec.toNat_ofNat]
  omega

/-- The numbers with a property, listed in order, are the values of the counting function. -/
theorem nth_of_filter_range {p : Nat → Prop} [DecidablePred p] {n t q : Nat}
    (listed : ((List.range n).filter p)[t]? = some q) : Nat.nth p t = q := by
  induction n with
  | zero => simp at listed
  | succ n ih =>
    rw [List.range_succ, List.filter_append, List.getElem?_append] at listed
    split at listed
    · exact ih listed
    · rename_i beyond
      by_cases found : p n
      · have size : ((List.range n).filter p).length = Nat.count p n := by
          rw [Nat.count_eq_card_filter_range]
          rfl
        simp only [List.filter_singleton, found, decide_true, cond_true] at listed
        obtain ⟨single, rfl⟩ := List.getElem?_eq_some_iff.mp listed
        rw [List.length_singleton] at single
        have place : t = Nat.count p n := by omega
        rw [List.getElem_singleton, place, Nat.nth_count found]
      · simp only [List.filter_singleton, found, decide_false, cond_false, List.getElem?_nil] at listed
        cases listed

/-- Trial division by the numbers below 18. -/
def passesTrial (n : Nat) : Bool := decide (2 ≤ n) && (List.range 18).all fun d => d < 2 || n ≤ d || n % d != 0

/-- Below 324 trial division by less than 18 decides primality. -/
theorem prime_iff_passesTrial {n : Nat} (small : n < 324) : n.Prime ↔ passesTrial n = true := by
  have unfolded : passesTrial n = true ↔ 2 ≤ n ∧ ∀ d, d < 18 → 2 ≤ d → d < n → ¬ d ∣ n := by
    simp only [passesTrial, Bool.and_eq_true, decide_eq_true_eq, List.all_eq_true, List.mem_range, Bool.or_eq_true,
      bne_iff_ne, Nat.dvd_iff_mod_eq_zero]
    refine and_congr_right fun _ => forall_congr' fun d => imp_congr_right fun _ => ?_
    omega
  rw [unfolded, Nat.prime_def_le_sqrt]
  refine and_congr_right fun large => ⟨fun free d _ two below divides => ?_, fun free d two root => ?_⟩
  · have prime := Nat.prime_def_le_sqrt.mpr ⟨large, free⟩
    rcases prime.eq_one_or_self_of_dvd d divides with one | same <;> omega
  · have square : d * d ≤ n := Nat.le_sqrt.mp root
    exact free d (by nlinarith) two (by nlinarith)

def primes : List Nat :=
  [2, 3, 5, 7, 11, 13, 17, 19, 23, 29, 31, 37, 41, 43, 47, 53, 59, 61, 67, 71, 73, 79, 83, 89, 97, 101, 103, 107,
    109, 113, 127, 131, 137, 139, 149, 151, 157, 163, 167, 173, 179, 181, 191, 193, 197, 199, 211, 223, 227, 229,
    233, 239, 241, 251, 257, 263, 269, 271, 277, 281, 283, 293, 307, 311]

theorem filter_passesTrial : (List.range 312).filter passesTrial = primes := by decide +kernel

/-- The list holds the first sixty-four primes, in order. -/
theorem nth_prime {t : Nat} (within : t < 64) : Nat.nth Nat.Prime t = primes.getD t 0 := by
  have filtered : (List.range 312).filter (fun n => decide n.Prime) = primes := by
    rw [← filter_passesTrial]
    refine List.filter_congr fun n below => ?_
    have small : n < 324 := by have := List.mem_range.mp below; omega
    rw [Bool.eq_iff_iff, decide_eq_true_eq, prime_iff_passesTrial small]
  have listed : primes[t]? = some (primes.getD t 0) := by
    rw [List.getD_eq_getElem?_getD, List.getElem?_eq_getElem (show t < primes.length from within), Option.getD_some]
  exact nth_of_filter_range (n := 312) (by rw [filtered]; exact listed)

end Constants

end Fips180
