import Pich.Permutation

namespace Pich
open Lanes Generator Counting

def selected (first : U8) : Fin 16 := ⟨(first &&& 0x0f).toNat, low_nibble_lt first⟩

theorem card_selected_away : Fintype.card {first : U8 // selected first ≠ 0} = 240 := by decide +kernel

/-- How many words are tapped at `v`: a first byte with a zero low nibble taps itself, so the sixteen
values with a zero low nibble collect its share alone. -/
theorem card_tapped (v : U8) :
    Nat.card {w : U128 // tapped w = v} = if v &&& 0x0f = 0 then 496 * 2 ^ 112 else 240 * 2 ^ 112 := by
  have split : {w : U128 // tapped w = v} ≃ {x : Fin 16 → U8 // x (selected (x 0)) = v} :=
    (lanesEquiv (by omega : 128 = 8 * 16)).subtypeEquiv fun w => Iff.rfl
  have itself : selected v = 0 ↔ v &&& 0x0f = 0 := by
    rw [← BitVec.toNat_inj, Fin.ext_iff]
    rfl
  rw [Nat.card_congr split, Nat.card_eq_fintype_card, card_selected selected v, card_selected_away, card_bitVec]
  simp only [itself]
  split <;> decide

namespace State

theorem nextByte_permuted (s : State) (nonempty : 0 < s.subKeys.length) :
    ∃ mixed : Equiv.Perm U128, ∀ (first second : Decision) (w : U128),
      ({ s with w }.nextByte first second).map Prod.fst = some (tapped (mixed w)) := by
  let ring : KeyRing U128 := ⟨s.subKeys.map Roundkey.subKey, by rwa [List.length_map]⟩
  have listed : s.subKeys.map Roundkey.subKey = ring.keys := rfl
  have bijective : ∀ key, Function.Bijective fun w => Fallback.round128 w key := fun key =>
    Finite.injective_iff_bijective.mp (round128_injective key)
  refine ⟨Equiv.ofBijective _ ((bijective (ring.key (s.roundIndex + 1).toNat)).comp
    (bijective (ring.key s.roundIndex.toNat))), fun first second w => ?_⟩
  have one := round_eq (s := { s with w }) first listed
  have two := round_eq (s := { s with w }.advanced ring 1) second listed
  simp only [nextByte, one, two, tap_eq, Option.bind_eq_bind, Option.bind_some, Option.map_some]
  rfl

/-- Mixing moves the words about and changes no count. -/
theorem card_mixed (s : State) (nonempty : 0 < s.subKeys.length) (first second : Decision) (v : U8) :
    Nat.card {w : U128 // ({ s with w }.nextByte first second).map Prod.fst = some v} =
      Nat.card {w : U128 // tapped w = v} := by
  obtain ⟨mixed, bytes⟩ := nextByte_permuted s nonempty
  exact Nat.card_congr (mixed.subtypeEquiv fun w => by rw [bytes, Option.some.injEq])

/-- The exact count of the words that make the next byte `v`, for any round keys and any counter. The tap is
not balanced: it favours the sixteen values with a zero low nibble, 496 to 240. -/
theorem card_nextByte (s : State) (nonempty : 0 < s.subKeys.length) (first second : Decision) (v : U8) :
    Nat.card {w : U128 // ({ s with w }.nextByte first second).map Prod.fst = some v} =
      if v &&& 0x0f = 0 then 496 * 2 ^ 112 else 240 * 2 ^ 112 := by
  rw [card_mixed s nonempty, card_tapped]

theorem card_nextByte_zero_seed :
    Nat.card {w : U128 // ({ initial ⟨false, false⟩ 0 0 with w }.nextByte .portable .portable).map Prod.fst =
      some 0x10} = 496 * 2 ^ 112 :=
  card_nextByte (initial ⟨false, false⟩ 0 0) (initial_nonempty _ 0 0) .portable .portable 0x10

/-- On the round keys of the zero seed, the byte zero comes from more than its share of the words. -/
theorem nextByte_unbalanced :
    ¬ ∀ (s : State), 0 < s.subKeys.length → ∀ (first second : Decision) (v : U8),
      Nat.card {w : U128 // ({ s with w }.nextByte first second).map Prod.fst = some v} = 2 ^ 120 := by
  intro balanced
  have nonempty := initial_nonempty ⟨false, false⟩ 0 0
  have share := balanced _ nonempty .portable .portable 0
  rw [card_mixed _ nonempty, card_tapped, if_pos (by decide)] at share
  exact absurd share (by decide)

end State

end Pich
