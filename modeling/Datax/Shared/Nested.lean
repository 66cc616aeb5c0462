import Mathlib.Data.List.Basic

/-!
# Nested marks

A mark remembers the value a state had when the mark was set. Marks are ordered by when they were
set; going back to one restores its value and drops every later mark. `Nested` says that the values
of the live marks are related in that order and each to the present value, for a relation that
values keep as they grow.
-/

namespace Shared

open List

universe u v
variable {ι : Type u} {α : Type v}

structure Nested (R : α → α → Prop) (order : ι → Nat) (value : ι → α) (live : List ι) (cur : α) :
    Prop where
  below : ∀ a ∈ live, R (value a) cur
  ordered : ∀ a ∈ live, ∀ b ∈ live, order a ≤ order b → R (value a) (value b)

namespace Nested
variable {R : α → α → Prop} {order : ι → Nat} {value : ι → α} {live live' : List ι} {cur cur' : α}

theorem nil (cur : α) : Nested R order value [] cur where
  below _ ha := absurd ha not_mem_nil
  ordered _ ha := absurd ha not_mem_nil

section
variable (h : Nested R order value live cur)
include h

theorem grow (trans : ∀ a b c, R a b → R b c → R a c) (hr : R cur cur') :
    Nested R order value live cur' := { h with
  below a ha := trans _ _ _ (h.below a ha) hr }

theorem subset (hs : ∀ a ∈ live', a ∈ live) : Nested R order value live' cur where
  below a ha := h.below a (hs a ha)
  ordered a ha b hb := h.ordered a (hs a ha) b (hs b hb)

theorem congr (value' : ι → α) (hv : ∀ a ∈ live, value' a = value a) :
    Nested R order value' live cur where
  below a ha := by
    rw [hv a ha]
    exact h.below a ha
  ordered a ha b hb hab := by
    rw [hv a ha, hv b hb]
    exact h.ordered a ha b hb hab

theorem push (refl : ∀ a, R a a) {m : ι} (hm : value m = cur)
    (hlater : ∀ a ∈ live, order a < order m) : Nested R order value (m :: live) cur where
  below a ha := by
    rcases mem_cons.mp ha with rfl | ha
    · rw [hm]
      exact refl cur
    · exact h.below a ha
  ordered a ha b hb hab := by
    rcases mem_cons.mp ha with hma | ha'
    · rcases mem_cons.mp hb with hmb | hb'
      · rw [hma, hmb]
        exact refl _
      · rw [hma] at hab
        exact absurd hab (Nat.not_le.mpr (hlater b hb'))
    · rcases mem_cons.mp hb with hmb | hb'
      · rw [hmb, hm]
        exact h.below a ha'
      · exact h.ordered a ha' b hb' hab

theorem back {m : ι} (hm : m ∈ live)
    (hlive : ∀ a ∈ live', a ∈ live ∧ order a ≤ order m) : Nested R order value live' (value m) where
  below a ha := h.ordered a (hlive a ha).1 m hm (hlive a ha).2
  ordered a ha b hb := h.ordered a (hlive a ha).1 b (hlive b hb).1

end

end Nested

end Shared
