import Mathlib.Data.List.Basic

/-!
# Computations that may fail

A sequence of steps succeeds when every step does. What each successful step keeps, a
successful fold over a list keeps.
-/

namespace Fallible

open List

universe u v
variable {ε : Type u} {α β : Type v} {x : Except ε α} {b : β}

theorem bind_eq_ok {f : α → Except ε β} : (x >>= f) = .ok b ↔ ∃ a, x = .ok a ∧ f a = .ok b := by
  cases x with
  | error e | ok a => simp [bind, Except.bind]

theorem map_eq_ok {f : α → β} : x.map f = .ok b ↔ ∃ a, x = .ok a ∧ f a = b := by
  cases x with
  | error e | ok a => simp [Except.map]

theorem ok_of_toOption {a : α} (h : x.toOption = some a) : x = .ok a := by
  cases x with
  | error e => cases h
  | ok b =>
    cases h
    rfl

theorem ite_error_eq_ok {c : Prop} [Decidable c] {e : ε} {a : α}
    (h : (if c then .error e else x) = .ok a) : ¬ c ∧ x = .ok a := by
  split_ifs at h with hc
  exact ⟨hc, h⟩

variable {f : β → α → Except ε β} {b' : β} {l : List α}

theorem foldlM_cons_eq_ok {a : α}
    (h : (a :: l).foldlM f b = .ok b') : ∃ b₁, f b a = .ok b₁ ∧ l.foldlM f b₁ = .ok b' := by
  exact bind_eq_ok.mp h

variable {I : β → Prop}

theorem foldlM_all {P : α → Prop}
    (keep : ∀ b a b', a ∈ l → I b → f b a = .ok b' → I b' ∧ P a) (hb : I b)
    (h : l.foldlM f b = .ok b') : I b' ∧ ∀ a ∈ l, P a := by
  induction l generalizing b with
  | nil =>
    cases h
    exact ⟨hb, fun _ ha => absurd ha not_mem_nil⟩
  | cons a l ih =>
    obtain ⟨b₁, hstep, hrest⟩ := foldlM_cons_eq_ok h
    obtain ⟨hb₁, ha⟩ := keep b a b₁ mem_cons_self hb hstep
    obtain ⟨hb', hall⟩ := ih (fun b a' b' ha' => keep b a' b' (mem_cons_of_mem a ha')) hb₁ hrest
    exact ⟨hb', forall_mem_cons.mpr ⟨ha, hall⟩⟩

section
variable (keep : ∀ b a b', a ∈ l → I b → f b a = .ok b' → I b')
include keep

theorem foldlM_invariant (hb : I b) (h : l.foldlM f b = .ok b') : I b' :=
  (foldlM_all (P := fun _ => True) (fun b a b' ha hI hf => ⟨keep b a b' ha hI hf, trivial⟩) hb h).1

theorem foldlM_congr {g : β → α → Except ε β}
    (hfg : ∀ b a, a ∈ l → I b → f b a = g b a) (hb : I b) : l.foldlM f b = l.foldlM g b := by
  induction l generalizing b with
  | nil => rfl
  | cons a l ih =>
    rw [foldlM_cons, foldlM_cons, ← hfg b a mem_cons_self hb]
    cases hstep : f b a with
    | error e => rfl
    | ok b₁ =>
      exact ih (fun b a' b' ha' => keep b a' b' (mem_cons_of_mem a ha'))
        (fun b a' ha' => hfg b a' (mem_cons_of_mem a ha')) (keep b a b₁ mem_cons_self hb hstep)

end

theorem forM_eq_ok {f : α → Except ε PUnit} (h : l.forM f = .ok ⟨⟩) : ∀ a ∈ l, f a = .ok ⟨⟩ := by
  induction l with
  | nil =>
    simp
  | cons a l ih =>
    obtain ⟨_, hfirst, hrest⟩ := bind_eq_ok.mp h
    intro a' ha'
    rcases mem_cons.mp ha' with rfl | ha'
    · exact hfirst
    · exact ih hrest a' ha'

end Fallible
