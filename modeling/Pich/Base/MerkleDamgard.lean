import Mathlib.Data.List.Induction

/-! Padding in front of an iterated hash, over any alphabet, any block size and any domain of messages. -/

namespace MerkleDamgard
variable {β : Type}

/-- The last `block` symbols. -/
def lastBlock (block : Nat) (xs : List β) : List β := xs.drop (xs.length - block)

/-- The conditions under which iterating a collision-resistant compression function is collision resistant. -/
structure Compliant (block : Nat) (short : List β → Prop) (pad : List β → List β) : Prop where
  begins : ∀ m, short m → m <+: pad m
  whole : ∀ m, short m → block ∣ (pad m).length
  room : ∀ m, short m → block ≤ (pad m).length
  sameLength : ∀ m m', short m → short m' → m.length = m'.length → (pad m).length = (pad m').length
  marked : ∀ m m', short m → short m' → m.length ≠ m'.length → lastBlock block (pad m) ≠ lastBlock block (pad m')

theorem lastBlock_append {block : Nat} {front xs : List β} (room : block ≤ xs.length) :
    lastBlock block (front ++ xs) = lastBlock block xs := by
  have place : front.length + xs.length - block = front.length + (xs.length - block) := by omega
  rw [lastBlock, List.length_append, place, List.drop_append, List.drop_of_length_le (by omega), List.nil_append,
    Nat.add_sub_cancel_left, lastBlock]

section Iteration
variable {σ γ : Type} {f : σ → γ → σ} {iv : σ} {xs ys : List γ}

/-- One iteration takes a step that another does not, to the same value, and they go on alike. -/
def Merges (f : σ → γ → σ) (iv : σ) (xs ys : List γ) : Prop :=
  ∃ front b front' b' tail, xs = front ++ b :: tail ∧ ys = front' ++ b' :: tail ∧
    (front.foldl f iv, b) ≠ (front'.foldl f iv, b') ∧ f (front.foldl f iv) b = f (front'.foldl f iv) b'

theorem Merges.append (merges : Merges f iv xs ys) (more : List γ) : Merges f iv (xs ++ more) (ys ++ more) := by
  obtain ⟨front, b, front', b', tail, rfl, rfl, different, same⟩ := merges
  exact ⟨front, b, front', b', tail ++ more, by simp, by simp, different, same⟩

/-- Iterations that end alike have merged, or one of them is the end of the other. -/
theorem foldl_merges (same : xs.foldl f iv = ys.foldl f iv) : xs <:+ ys ∨ ys <:+ xs ∨ Merges f iv xs ys := by
  induction xs using List.reverseRecOn generalizing ys with
  | nil => exact .inl List.nil_suffix
  | append_singleton xs b ih =>
    rcases List.eq_nil_or_concat ys with rfl | ⟨ys, b', rfl⟩
    · exact .inr (.inl List.nil_suffix)
    · rw [List.concat_eq_append] at same ⊢
      rw [List.foldl_append, List.foldl_append] at same
      by_cases last : (xs.foldl f iv, b) = (ys.foldl f iv, b')
      · obtain ⟨before, rfl⟩ := Prod.mk.inj last
        rcases ih before with short | short | merges
        · exact .inl (List.suffix_append_self_iff.mpr short)
        · exact .inr (.inl (List.suffix_append_self_iff.mpr short))
        · exact .inr (.inr (merges.append [b]))
      · exact .inr (.inr ⟨xs, b, ys, b', [], rfl, rfl, last, same⟩)

end Iteration

namespace Compliant
variable {block : Nat} {short : List β → Prop} {pad : List β → List β}

/-- A padded message that ends in another is as long as it. -/
theorem suffix_free (compliant : Compliant block short pad) {m m' front : List β} (hm : short m) (hm' : short m')
    (ends : pad m' = front ++ pad m) : front = [] := by
  have lengths : m.length = m'.length := by
    refine Decidable.byContradiction fun different => compliant.marked m m' hm hm' different ?_
    rw [ends, lastBlock_append (compliant.room m hm)]
  have sizes := compliant.sameLength m m' hm hm' lengths
  rw [ends, List.length_append] at sizes
  exact List.eq_nil_of_length_eq_zero (by omega)

theorem injective (compliant : Compliant block short pad) {m m' : List β} (hm : short m) (hm' : short m')
    (same : pad m = pad m') : m = m' := by
  have lengths : m.length = m'.length := by
    exact Decidable.byContradiction fun different => compliant.marked m m' hm hm' different (by rw [same])
  obtain ⟨tail, padded⟩ := compliant.begins m hm
  obtain ⟨tail', padded'⟩ := compliant.begins m' hm'
  rw [← padded, ← padded'] at same
  exact (List.append_inj same lengths).1

/-- Messages that differ and end in one value have merged on the way. -/
theorem merges {σ γ : Type} {f : σ → γ → σ} {iv : σ} {cut : List β → List γ} {spell : γ → List β}
    (compliant : Compliant block short pad) (spelled : ∀ m, short m → (cut (pad m)).flatMap spell = pad m)
    {m m' : List β} (hm : short m) (hm' : short m') (different : m ≠ m')
    (same : (cut (pad m)).foldl f iv = (cut (pad m')).foldl f iv) : Merges f iv (cut (pad m)) (cut (pad m')) := by
  have apart : ∀ {m m'}, short m → short m' → m ≠ m' → ¬ cut (pad m) <:+ cut (pad m') := fun {m m'} hm hm' different
      ends => by
    obtain ⟨front, split⟩ := ends
    have spelt := congrArg (List.flatMap spell) split
    rw [List.flatMap_append, spelled m hm, spelled m' hm'] at spelt
    have none := compliant.suffix_free hm hm' spelt.symm
    rw [none, List.nil_append] at spelt
    exact different (compliant.injective hm hm' spelt)
  rcases foldl_merges same with ends | ends | merges
  · exact absurd ends (apart hm hm' different)
  · exact absurd ends (apart hm' hm different.symm)
  · exact merges

end Compliant

end MerkleDamgard
