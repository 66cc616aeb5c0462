import Mathlib.Tactic.Ring

/-!
# Numbers of 64 and of 32 bits that wrap
-/

namespace Datax

def Fits (x : Int) : Prop := -2 ^ 63 ≤ x ∧ x < 2 ^ 63
deriving Decidable

/-- A wrapped number is the exact one, moved back from its window of `2 ^ 64` numbers. -/
theorem bmod_eq_sub (x : Int) : x.bmod (2 ^ 64) = x - 2 ^ 64 * ((x + 2 ^ 63) / 2 ^ 64) := by
  rw [Int.bmod_eq_iff (by decide)]
  refine ⟨by omega, by omega, -((x + 2 ^ 63) / 2 ^ 64), ?_⟩
  push_cast
  ring

theorem bmod_eq_self_iff {x : Int} : x.bmod (2 ^ 64) = x ↔ Fits x := by
  rw [bmod_eq_sub, Fits]
  omega

def int32 (x : Int) : Int := x.bmod (2 ^ 32)

theorem int32_bounds (x : Int) : -2 ^ 31 ≤ int32 x ∧ int32 x < 2 ^ 31 := by
  have hlo := Int.le_bmod (x := x) (m := 2 ^ 32) (by decide)
  have hhi := Int.bmod_lt (x := x) (m := 2 ^ 32) (by decide)
  unfold int32
  omega

theorem int32_eq_self {x : Int} (hlo : -2 ^ 31 ≤ x) (hhi : x < 2 ^ 31) : int32 x = x := by
  rw [int32, Int.bmod_eq_iff (by decide)]
  omega

theorem fits_toInt (x : Int64) : Fits x.toInt := ⟨x.le_toInt, x.toInt_lt⟩

end Datax
