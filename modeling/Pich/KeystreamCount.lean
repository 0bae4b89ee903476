import Pich.TapCount

namespace Pich.State
open Generator

theorem rounds_bijective (key : Nat → U128) (i n : Nat) :
    Function.Bijective (Generator.rounds Fallback.round128 key i n) :=
  Finite.injective_iff_bijective.mp (rounds_injective _ round128_injective i n)

theorem keystream_eq (ring : KeyRing U128) (n : Nat) (s : State) :
    s.keystream ring n = (List.range n).map fun i => tapped (s.advanced ring (2 * (i + 1))).w :=
  emit_eq Fallback.round128 tapped 2 ring.key s.roundIndex.toNat n s.w

/-- Construction on a word, then so much keystream in one call. -/
def stream (platform : Platform) (decisions : Nat → Decision) (decision : Decision) (n : Nat) (w ke : I128) :
    Option (List U8) := do
  let s ← State.new platform decisions w ke
  let (out, _) ← s.fillKeystream decision n
  some out

theorem stream_eq (platform : Platform) (decisions : Nat → Decision) (decision : Decision) (n : Nat) (w ke : I128) :
    stream platform decisions decision n w ke = some ((List.range n).map fun i => tapped
      (Generator.rounds Fallback.round128 (keyRing platform ke).key 0 (WARMUP_ROUNDS + 2 * (i + 1)) w)) := by
  have on := (initial_onRing platform w ke).advanced WARMUP_ROUNDS
  have words : ∀ n m, (((initial platform w ke).advanced (keyRing platform ke) n).advanced (keyRing platform ke) m).w =
      Generator.rounds Fallback.round128 (keyRing platform ke).key 0 (n + m) w := fun n m => by
    rw [advanced_advanced (keyRing_whole platform ke)]
    rfl
  simp only [stream, new_eq, fillKeystream_eq decision on.flat, keystream_eq, words, Option.bind_eq_bind,
    Option.bind_some]

/-- The tap's preference is at every position of the keystream. For any seed, of the words that the cipher can start
from, 496 shares make a byte with a zero low nibble and 240 any other, however long the cipher has run: neither the
warm-up nor the rounds between two bytes level it out. -/
theorem card_stream (platform : Platform) (decisions : Nat → Decision) (decision : Decision) (ke : I128) {n i : Nat}
    (within : i < n) (v : U8) :
    Nat.card {w : I128 // ∃ out, stream platform decisions decision n w ke = some out ∧ out[i]? = some v} =
      if v &&& 0x0f = 0 then 496 * 2 ^ 112 else 240 * 2 ^ 112 := by
  let mixed := Equiv.ofBijective _ (rounds_bijective (keyRing platform ke).key 0 (WARMUP_ROUNDS + 2 * (i + 1)))
  rw [← card_tapped]
  refine Nat.card_congr (mixed.subtypeEquiv fun w => ?_)
  simp only [stream_eq, Option.some.injEq, exists_eq_left', List.getElem?_map, List.getElem?_range within,
    Option.map_some]
  rfl

theorem card_stream_zero_seed :
    Nat.card {w : I128 // ∃ out, stream ⟨true, false⟩ (fun _ => .portable) .portable 1000 w 0 = some out ∧
      out[999]? = some 0x2a} = 240 * 2 ^ 112 :=
  card_stream ⟨true, false⟩ (fun _ => .portable) .portable 0 (by omega) 0x2a

end Pich.State
