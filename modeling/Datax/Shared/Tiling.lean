import Mathlib.Data.Set.Basic

/-!
# Tilings

A family of pieces tiles a set when every element of the set lies in exactly one piece and the
pieces hold nothing else. A tiling survives any exchange of elements between two of its pieces:
cutting one in two and joining two into one are the cases in which a piece is empty before or after.
-/

namespace Tiling

universe u v
variable {ι : Type u} {α : Type v}

structure Tiles (piece : ι → Set α) (space : Set α) : Prop where
  covers : ∀ a, a ∈ space ↔ ∃ i, a ∈ piece i
  unique : ∀ a i j, a ∈ piece i → a ∈ piece j → i = j

variable {piece piece' : ι → Set α} {space : Set α}

theorem Tiles.congr (h : Tiles piece space) (heq : ∀ i, piece' i = piece i) :
    Tiles piece' space := by
  have hsame : piece' = piece := funext heq
  rw [hsame]
  exact h

theorem Tiles.exchange (h : Tiles piece space) {i j : ι} (hij : i ≠ j)
    (hother : ∀ k, k ≠ i → k ≠ j → piece' k = piece k)
    (hunion : ∀ a, a ∈ piece' i ∨ a ∈ piece' j ↔ a ∈ piece i ∨ a ∈ piece j)
    (hapart : ∀ a, a ∈ piece' i → a ∉ piece' j) : Tiles piece' space := by
  -- a member of a new piece was in that piece, or was and is in one of the two exchanged
  have hback : ∀ a k, a ∈ piece' k → a ∈ piece k ∧ k ≠ i ∧ k ≠ j ∨ (a ∈ piece i ∨ a ∈ piece j) ∧
      (k = i ∨ k = j) := by
    intro a k hk
    by_cases hi : k = i
    · subst hi
      exact .inr ⟨(hunion a).mp (.inl hk), .inl rfl⟩
    by_cases hj : k = j
    · subst hj
      exact .inr ⟨(hunion a).mp (.inr hk), .inr rfl⟩
    · rw [hother k hi hj] at hk
      exact .inl ⟨hk, hi, hj⟩
  constructor
  · intro a
    rw [h.covers]
    constructor
    · rintro ⟨k, hk⟩
      by_cases hi : k = i
      · subst hi
        rcases (hunion a).mpr (.inl hk) with h' | h'
        · exact ⟨_, h'⟩
        · exact ⟨_, h'⟩
      · by_cases hj : k = j
        · subst hj
          rcases (hunion a).mpr (.inr hk) with h' | h'
          · exact ⟨_, h'⟩
          · exact ⟨_, h'⟩
        · exact ⟨k, (hother k hi hj).symm ▸ hk⟩
    · rintro ⟨k, hk⟩
      rcases hback a k hk with ⟨hold, _⟩ | ⟨hold | hold, _⟩
      · exact ⟨k, hold⟩
      · exact ⟨i, hold⟩
      · exact ⟨j, hold⟩
  · intro a k l hk hl
    rcases hback a k hk with ⟨hk', hki, hkj⟩ | ⟨hk', hke⟩
    · rcases hback a l hl with ⟨hl', _⟩ | ⟨hl' | hl', _⟩
      · exact h.unique a k l hk' hl'
      · exact absurd (h.unique a k i hk' hl') hki
      · exact absurd (h.unique a k j hk' hl') hkj
    · rcases hback a l hl with ⟨hl', hli, hlj⟩ | ⟨_, hle⟩
      · rcases hk' with hk' | hk'
        · exact absurd (h.unique a l i hl' hk') hli
        · exact absurd (h.unique a l j hl' hk') hlj
      · rcases hke with rfl | rfl
        · rcases hle with rfl | rfl
          · rfl
          · exact absurd hl (hapart a hk)
        · rcases hle with rfl | rfl
          · exact absurd hk (hapart a hl)
          · rfl

end Tiling
