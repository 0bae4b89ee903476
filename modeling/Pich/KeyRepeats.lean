import Pich.KeyFixedPoints
import Pich.KeyLoss

namespace Pich
open TwoAdic Counting

/-- At most as many words meet in one step as its multiplier shares with the modulus. -/
theorem card_g_fibre (platform : Platform) (rc : BitVec 64) (y : I128) :
    (Finset.univ.filter fun x => g platform x rc = y).card ≤ (2 ^ 128).gcd (rc.signExtend 128).toNat := by
  have criterion (x x' : I128) := g_eq_iff platform x x' rc
  have whole := Nat.div_mul_cancel ((2 ^ 128).gcd_dvd_left (rc.signExtend 128).toNat)
  generalize (2 ^ 128).gcd (rc.signExtend 128).toNat = d at *
  rw [← Finset.card_range d]
  refine Finset.card_le_card_of_injOn (fun x => (x.rotateLeft 7).toNat / (2 ^ 128 / d)) (fun x _ => ?_) ?_
  · refine Finset.mem_coe.mpr (Finset.mem_range.mpr (Nat.div_lt_of_lt_mul ?_))
    rw [whole]
    exact (x.rotateLeft 7).isLt
  · intro x inside x' inside' quotient
    have meets := (Finset.mem_filter.mp (Finset.mem_coe.mp inside)).2
    have meets' := (Finset.mem_filter.mp (Finset.mem_coe.mp inside')).2
    have remainder : (x.rotateLeft 7).toNat % (2 ^ 128 / d) = (x'.rotateLeft 7).toNat % (2 ^ 128 / d) :=
      (criterion x x').mp (meets.trans meets'.symm)
    have quotient : (x.rotateLeft 7).toNat / (2 ^ 128 / d) = (x'.rotateLeft 7).toNat / (2 ^ 128 / d) := quotient
    refine rotl7_injective (BitVec.eq_of_toNat_eq ?_)
    rw [← Nat.div_add_mod (x.rotateLeft 7).toNat, quotient, remainder, Nat.div_add_mod]

/-- A bound on how many seeds share round key `i`. -/
def spread : Nat → Nat
  | 0 => 1
  | i + 1 => spread i * (2 ^ 128).gcd (multiplier (i + 1))

theorem card_walk_preimage (platform : Platform) (i : Nat) (P : Finset I128) :
    (Finset.univ.filter fun ke => walk platform 0 i ke ∈ P).card ≤ spread i * P.card := by
  induction i generalizing P with
  | zero =>
    rw [spread, Nat.one_mul]
    exact Finset.card_le_card fun ke member => (Finset.mem_filter.mp member).2
  | succ i ih =>
    have last := card_preimage_le (card_g_fibre platform (roundRc (0 + i + 1))) P
    have front := ih (Finset.univ.filter fun x => g platform x (roundRc (0 + i + 1)) ∈ P)
    simp only [Finset.mem_filter, Finset.mem_univ, true_and] at front
    rw [Nat.zero_add] at last
    calc (Finset.univ.filter fun ke => walk platform 0 (i + 1) ke ∈ P).card
        ≤ spread i * (Finset.univ.filter fun x => g platform x (roundRc (0 + i + 1)) ∈ P).card := front
      _ ≤ spread i * ((2 ^ 128).gcd (multiplier (i + 1)) * P.card) := by
        rw [Nat.zero_add]
        exact Nat.mul_le_mul_left _ last
      _ = spread (i + 1) * P.card := by rw [spread, Nat.mul_assoc]

/-- Going the same way round keeps low bits together, and adds seven with every step. -/
theorem walkNat_gains {i m n x x' : Nat} (same : x ≡ x' [MOD 2 ^ m])
    (digits : ∀ k < n, walkNat i k x / 2 ^ 121 = walkNat i k x' / 2 ^ 121) :
    walkNat i n x ≡ walkNat i n x' [MOD 2 ^ min 116 (m + 7 * n)] := by
  induction n with
  | zero => exact same.of_dvd (Nat.pow_dvd_pow 2 (by omega))
  | succ n ih =>
    have before := ih fun k below => digits k (by omega)
    have right := stepNat_modEq (multiplier (i + n + 1)) (walkNat i n x')
    rw [← digits n (by omega)] at right
    rw [Nat.mul_succ, ← Nat.add_assoc]
    exact affine_agree before (stepNat_modEq (multiplier (i + n + 1)) (walkNat i n x)) right

/-- A word that `n + 1` steps bring back is known from its own top bits and the top seven bits on the way. -/
theorem loop_unique {i n x x' : Nat} (loop : walkNat i (n + 1) x = x) (loop' : walkNat i (n + 1) x' = x')
    (top : x / 2 ^ 116 = x' / 2 ^ 116) (digits : ∀ k < n, walkNat i (k + 1) x / 2 ^ 121 = walkNat i (k + 1) x' / 2 ^ 121) :
    x = x' := by
  have all : ∀ k < n + 1, walkNat i k x / 2 ^ 121 = walkNat i k x' / 2 ^ 121 := by
    intro k below
    cases k with
    | zero =>
      rw [walkNat, walkNat]
      omega
    | succ k => exact digits k (by omega)
  have low : x ≡ x' [MOD 2 ^ 116] := by
    refine modEq_of_gains (s := 7) (by omega) fun m same => ?_
    have round := walkNat_gains same all
    rw [loop, loop'] at round
    exact round.of_dvd (Nat.pow_dvd_pow 2 (by omega))
  have parts := Nat.div_add_mod x (2 ^ 116)
  rw [top, low, Nat.div_add_mod] at parts
  exact parts.symm

/-- What tells the words brought back by `n + 1` steps apart. -/
def loopCode (platform : Platform) (i n : Nat) (x : I128) : BitVec 12 × (Fin n → BitVec 7) :=
  (x.extractLsb' 116 12, fun k => (walk platform i (k + 1) x).extractLsb' 121 7)

theorem top_toNat (x : I128) {k : Nat} (within : k ≤ 128) :
    (x.extractLsb' k (128 - k)).toNat = x.toNat / 2 ^ k := by
  have bound : x.toNat / 2 ^ k < 2 ^ (128 - k) := by
    refine Nat.div_lt_of_lt_mul ?_
    rw [← Nat.pow_add, Nat.add_sub_cancel' within]
    exact x.isLt
  rw [BitVec.extractLsb'_toNat, Nat.shiftRight_eq_div_pow, Nat.mod_eq_of_lt bound]

theorem loopCode_injOn {platform : Platform} {i n : Nat} {x x' : I128} (loop : walk platform i (n + 1) x = x)
    (loop' : walk platform i (n + 1) x' = x') (same : loopCode platform i n x = loopCode platform i n x') : x = x' := by
  obtain ⟨top, digits⟩ := Prod.mk.inj same
  have top := congrArg BitVec.toNat top
  rw [top_toNat x (by omega : 116 ≤ 128), top_toNat x' (by omega : 116 ≤ 128)] at top
  refine BitVec.eq_of_toNat_eq (loop_unique (i := i) (n := n) ?_ ?_ top fun k below => ?_)
  · rw [← walk_toNat platform, loop]
  · rw [← walk_toNat platform, loop']
  · have digit := congrArg BitVec.toNat (congrFun digits ⟨k, below⟩)
    rw [← walk_toNat platform, ← walk_toNat platform]
    rwa [top_toNat _ (by omega : 121 ≤ 128), top_toNat _ (by omega : 121 ≤ 128)] at digit

theorem card_loops (platform : Platform) (i n : Nat) :
    (Finset.univ.filter fun x => walk platform i (n + 1) x = x).card ≤ 2 ^ (7 * n + 12) := by
  have codes : Fintype.card (BitVec 12 × (Fin n → BitVec 7)) = 2 ^ (7 * n + 12) := by
    rw [Fintype.card_prod, Fintype.card_pi_const, card_bitVec, card_bitVec, ← Nat.pow_mul, ← Nat.pow_add, Nat.add_comm]
  rw [← codes]
  refine card_le_codes (loopCode platform i n) fun x inside x' inside' same => ?_
  exact loopCode_injOn (Finset.mem_filter.mp inside).2 (Finset.mem_filter.mp inside').2 same

theorem sum_spread : (∑ i ∈ Finset.range 16, ∑ n ∈ Finset.range (15 - i), spread i * 2 ^ (7 * n + 12)) < 2 ^ 111 := by
  decide +kernel

/-- Two equal round keys are a word that the steps between them bring back. -/
theorem loop_of_repeat {platform : Platform} {ke : I128}
    (repeats : ¬ ((genSubKeys platform ke).map Roundkey.subKey).Nodup) :
    ∃ i n, i + n < 15 ∧ walk platform i (n + 1) (walk platform 0 i ke) = walk platform 0 i ke := by
  by_contra none
  push Not at none
  have apart : ∀ i j, i < j → j < 16 → walk platform 0 i ke ≠ walk platform 0 j ke := by
    intro i j before listed same
    have steps : i + (j - i - 1 + 1) = j := by omega
    have around := walk_add platform i (j - i - 1 + 1) ke
    rw [steps, ← same] at around
    exact none i (j - i - 1) (by omega) around.symm
  refine repeats ?_
  rw [genSubKeys_eq]
  refine List.Nodup.map_on (fun i listed j listed' same => ?_) List.nodup_range
  rw [List.mem_range] at listed listed'
  rcases Nat.lt_trichotomy i j with before | equal | after
  · exact absurd same (apart i j before listed')
  · exact equal
  · exact absurd same.symm (apart j i after listed)

theorem keys_eq_iff (platform : Platform) (ke : I128) {i j : Nat} (listed : i < 16) (listed' : j < 16) :
    ((genSubKeys platform ke).map Roundkey.subKey)[i]? = ((genSubKeys platform ke).map Roundkey.subKey)[j]? ↔
      walk platform 0 i ke = walk platform 0 j ke := by
  rw [subKey_eq platform ke listed, subKey_eq platform ke listed', Option.some.injEq]

theorem neighbours_iff (platform : Platform) (ke : I128) {i : Nat} (listed : i < 15) :
    ((genSubKeys platform ke).map Roundkey.subKey)[i]? = ((genSubKeys platform ke).map Roundkey.subKey)[i + 1]? ↔
      walkNat 0 i ke.toNat = walkNat 0 (i + 1) ke.toNat := by
  rw [keys_eq_iff platform ke (by omega) (by omega), ← BitVec.toNat_inj, walk_toNat, walk_toNat]

/-- The seeds whose round keys `i` and `i + n + 1` are equal. -/
def seedsOfLoops (platform : Platform) (i n : Nat) : Finset I128 :=
  Finset.univ.filter fun ke => walk platform i (n + 1) (walk platform 0 i ke) = walk platform 0 i ke

theorem card_seedsOfLoops (platform : Platform) (i n : Nat) :
    (seedsOfLoops platform i n).card ≤ spread i * 2 ^ (7 * n + 12) := by
  have carried := card_walk_preimage platform i (Finset.univ.filter fun x => walk platform i (n + 1) x = x)
  simp only [Finset.mem_filter, Finset.mem_univ, true_and] at carried
  exact carried.trans (Nat.mul_le_mul_left _ (card_loops platform i n))

theorem card_keys_eq (platform : Platform) {i n : Nat} (listed : i + n < 15) :
    Nat.card {ke // ((genSubKeys platform ke).map Roundkey.subKey)[i]? =
      ((genSubKeys platform ke).map Roundkey.subKey)[i + n + 1]?} ≤ spread i * 2 ^ (7 * n + 12) := by
  rw [Nat.card_eq_fintype_card, Fintype.card_subtype]
  refine (Finset.card_le_card fun ke member => ?_).trans (card_seedsOfLoops platform i n)
  have same := (keys_eq_iff platform ke (by omega) (by omega)).mp (Finset.mem_filter.mp member).2
  have around : walk platform 0 (i + n + 1) ke = walk platform i (n + 1) (walk platform 0 i ke) :=
    walk_add platform i (n + 1) ke
  exact Finset.mem_filter.mpr ⟨Finset.mem_univ ke, around.symm.trans same.symm⟩

theorem card_repeats (platform : Platform) :
    Nat.card {ke // ¬ ((genSubKeys platform ke).map Roundkey.subKey).Nodup} < 2 ^ 111 := by
  have covered : (Finset.univ.filter fun ke => ¬ ((genSubKeys platform ke).map Roundkey.subKey).Nodup) ⊆
      (Finset.range 16).biUnion fun i => (Finset.range (15 - i)).biUnion (seedsOfLoops platform i) := by
    intro ke member
    obtain ⟨i, n, listed, loop⟩ := loop_of_repeat (Finset.mem_filter.mp member).2
    simp only [Finset.mem_biUnion, Finset.mem_range]
    exact ⟨i, by omega, n, by omega, Finset.mem_filter.mpr ⟨Finset.mem_univ ke, loop⟩⟩
  rw [Nat.card_eq_fintype_card, Fintype.card_subtype]
  calc _ ≤ _ := Finset.card_le_card covered
    _ ≤ ∑ i ∈ Finset.range 16, ((Finset.range (15 - i)).biUnion (seedsOfLoops platform i)).card :=
      Finset.card_biUnion_le
    _ ≤ ∑ i ∈ Finset.range 16, ∑ n ∈ Finset.range (15 - i), (seedsOfLoops platform i n).card :=
      Finset.sum_le_sum fun i _ => Finset.card_biUnion_le
    _ ≤ ∑ i ∈ Finset.range 16, ∑ n ∈ Finset.range (15 - i), spread i * 2 ^ (7 * n + 12) :=
      Finset.sum_le_sum fun i _ => Finset.sum_le_sum fun n _ => card_seedsOfLoops platform i n
    _ < 2 ^ 111 := sum_spread

/-- Which seeds give equal neighbouring round keys, and how few give two equal round keys at a distance. -/
theorem roundKeys_repeat_rarely (platform : Platform) :
    (∀ ke, (∃ i, i < 15 ∧ ((genSubKeys platform ke).map Roundkey.subKey)[i]? =
        ((genSubKeys platform ke).map Roundkey.subKey)[i + 1]?) ↔ ke ∈ repeating) ∧
    (∀ i n, i + n < 15 → Nat.card {ke // ((genSubKeys platform ke).map Roundkey.subKey)[i]? =
        ((genSubKeys platform ke).map Roundkey.subKey)[i + n + 1]?} ≤ spread i * 2 ^ (7 * n + 12)) ∧
    Nat.card {ke // ¬ ((genSubKeys platform ke).map Roundkey.subKey).Nodup} < 2 ^ 111 := by
  refine ⟨fun ke => ⟨?_, fun found => ?_⟩, fun i n listed => card_keys_eq platform listed, card_repeats platform⟩
  · rintro ⟨i, below, same⟩
    exact (mem_search_iff ke).mp (mem_search below ((neighbours_iff platform ke below).mp same))
  · obtain ⟨i, below, same⟩ := walkNat_search ke.toNat ((mem_search_iff ke).mpr found)
    exact ⟨i, below, (neighbours_iff platform ke below).mpr same⟩

theorem roundKeys_not_distinct :
    ¬ ((genSubKeys ⟨false, false⟩ 0xce93063ee060e06a9f021df32460f3e7).map Roundkey.subKey).Nodup := by
  decide +kernel

end Pich
