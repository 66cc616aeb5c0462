import Mathlib.Data.List.Lex
import Mathlib.Order.Lattice

/-!
# Words that can be read off the front of a string

Two words are apart when neither continues the other unless they are equal. The lexicographic
order of strings that begin with words apart is decided by the words first and by what follows
only when they are equal.
-/

namespace PrefixCode

open List

variable {β : Type*}

structure Apart (x y : List β) : Prop where
  left : x <+: y → x = y
  right : y <+: x → x = y

variable {x y t : List β} {a : β}

namespace Apart

theorem refl (x : List β) : Apart x x := ⟨fun _ => rfl, fun _ => rfl⟩

theorem symm (h : Apart x y) : Apart y x :=
  ⟨fun hp => (h.right hp).symm, fun hp => (h.left hp).symm⟩

theorem of_length (h : x.length = y.length) : Apart x y :=
  ⟨fun hp => hp.eq_of_length h, fun hp => (hp.eq_of_length h.symm).symm⟩

theorem of_head_ne {b : β} (x y : List β) (h : a ≠ b) : Apart (a :: x) (b :: y) := by
  constructor
  · intro hp
    exact absurd (cons_prefix_cons.mp hp).1 h
  · intro hp
    exact absurd (cons_prefix_cons.mp hp).1.symm h

theorem cons (a : β) (h : Apart x y) : Apart (a :: x) (a :: y) := by
  constructor
  · intro hp
    rw [h.left (cons_prefix_cons.mp hp).2]
  · intro hp
    rw [h.right (cons_prefix_cons.mp hp).2]

theorem of_cons (h : Apart (a :: x) (a :: y)) : Apart x y := by
  constructor
  · intro hp
    exact (List.cons.inj (h.left (cons_prefix_cons.mpr ⟨rfl, hp⟩))).2
  · intro hp
    exact (List.cons.inj (h.right (cons_prefix_cons.mpr ⟨rfl, hp⟩))).2

theorem eq_of_append_eq {s : List β} (h : Apart x y) (heq : x ++ s = y ++ t) : x = y ∧ s = t := by
  have hword : x = y := by
    have hx : x <+: y ++ t := heq ▸ prefix_append x s
    rcases prefix_or_prefix_of_prefix hx (prefix_append y t) with hp | hp
    · exact h.left hp
    · exact h.right hp
  subst hword
  exact ⟨rfl, append_cancel_left heq⟩

theorem append {x' y' : List β} (h : Apart x y) (h' : x = y → Apart x' y') :
    Apart (x ++ x') (y ++ y') := by
  constructor
  · rintro ⟨s, hs⟩
    rw [append_assoc] at hs
    obtain ⟨rfl, htail⟩ := h.eq_of_append_eq hs
    rw [(h' rfl).left ⟨s, htail⟩]
  · rintro ⟨s, hs⟩
    rw [append_assoc] at hs
    obtain ⟨rfl, htail⟩ := h.symm.eq_of_append_eq hs
    rw [(h' rfl).right ⟨s, htail⟩]

theorem map {γ : Type*} {f : β → γ} (hf : Function.Injective f) (h : Apart x y) :
    Apart (x.map f) (y.map f) := by
  constructor
  · intro hp
    rw [h.left ((prefix_map_iff_of_injective hf).mp hp)]
  · intro hp
    rw [h.right ((prefix_map_iff_of_injective hf).mp hp)]

end Apart

variable {xs ys : List (List β)}

theorem flatten_inj (h : List.Forall₂ Apart xs ys) {s : List β}
    (heq : xs.flatten ++ s = ys.flatten ++ t) :
    xs = ys ∧ s = t := by
  induction h with
  | nil => exact ⟨rfl, heq⟩
  | @cons x y xs ys hxy _ ih =>
    rw [flatten_cons, flatten_cons, append_assoc, append_assoc] at heq
    obtain ⟨rfl, hrest⟩ := hxy.eq_of_append_eq heq
    obtain ⟨rfl, htail⟩ := ih hrest
    exact ⟨rfl, htail⟩

section Order
variable [LinearOrder β]

/-- A word may continue another one when nothing follows the shorter. -/
theorem append_lt_append_iff_of_prefix {s : List β} (hx : x <+: y → x = y ∨ s = [])
    (hy : y <+: x → x = y ∨ t = []) :
    x ++ s < y ++ t ↔ x < y ∨ x = y ∧ s < t := by
  induction x generalizing y with
  | nil =>
    cases y with
    | nil => simp
    | cons b y =>
      obtain rfl : s = [] := (hx nil_prefix).resolve_left (by simp)
      simp
  | cons a x ih =>
    cases y with
    | nil =>
      obtain rfl : t = [] := (hy nil_prefix).resolve_left (by simp)
      simp
    | cons b y =>
      rw [cons_append, cons_append, cons_lt_cons_iff, cons_lt_cons_iff]
      by_cases hab : a = b
      · subst hab
        simp only [lt_irrefl, false_or, true_and, List.cons.injEq]
        simp only [cons_prefix_cons, true_and, List.cons.injEq] at hx hy
        exact ih hx hy
      · simp [hab]

theorem append_lt_append_iff (h : Apart x y) (s t : List β) :
    x ++ s < y ++ t ↔ x < y ∨ x = y ∧ s < t :=
  append_lt_append_iff_of_prefix (fun hp => .inl (h.left hp)) (fun hp => .inl (h.right hp))

theorem map_lt_map_of_strictAnti {γ : Type*} [LinearOrder γ] {f : β → γ} (hf : StrictAnti f)
    (h : Apart x y) (hlt : x < y) : y.map f < x.map f := by
  induction x generalizing y with
  | nil =>
    have hy : [] = y := h.left nil_prefix
    subst hy
    exact absurd hlt (lt_irrefl _)
  | cons a x ih =>
    cases y with
    | nil => exact absurd hlt (not_lt_nil _)
    | cons b y =>
      rw [map_cons, map_cons, cons_lt_cons_iff]
      rcases cons_lt_cons_iff.mp hlt with hab | ⟨rfl, hxy⟩
      · exact .inl (hf hab)
      · exact .inr ⟨rfl, ih h.of_cons hxy⟩

theorem eq_of_lt_iff {γ : Type*} [LinearOrder γ] {v w : γ} (hlt : x < y ↔ v < w)
    (hgt : y < x ↔ w < v) (h : x = y) :
    v = w := by
  subst h
  exact le_antisymm (not_lt.mp fun hwv => lt_irrefl _ (hgt.mpr hwv))
    (not_lt.mp fun hvw => lt_irrefl _ (hlt.mpr hvw))

theorem append_lt_append_left_iff (x s t : List β) : x ++ s < x ++ t ↔ s < t := by
  rw [append_lt_append_iff (Apart.refl x)]
  simp

theorem cons_le_cons_iff {b : β} : a :: x ≤ b :: y ↔ a < b ∨ a = b ∧ x ≤ y := by
  constructor
  · intro h
    rcases lt_or_eq_of_le h with hlt | heq
    · rcases cons_lt_cons_iff.mp hlt with hab | ⟨hab, hxy⟩
      · exact .inl hab
      · exact .inr ⟨hab, le_of_lt hxy⟩
    · obtain ⟨rfl, rfl⟩ := List.cons.inj heq
      exact .inr ⟨rfl, le_refl _⟩
  · rintro (hab | ⟨rfl, hxy⟩)
    · exact le_of_lt (cons_lt_cons_iff.mpr (.inl hab))
    rcases lt_or_eq_of_le hxy with hlt | rfl
    · exact le_of_lt (cons_lt_cons_iff.mpr (.inr ⟨rfl, hlt⟩))
    · exact le_refl _

theorem flatten_lt_flatten_iff (h : List.Forall₂ Apart xs ys) (s t : List β) :
    xs.flatten ++ s < ys.flatten ++ t ↔ xs < ys ∨ xs = ys ∧ s < t := by
  induction h with
  | nil => simp
  | @cons x y xs ys hxy _ ih =>
    rw [flatten_cons, flatten_cons, append_assoc, append_assoc,
      append_lt_append_iff hxy, ih, cons_lt_cons_iff, List.cons.injEq]
    constructor
    · rintro (hlt | ⟨rfl, hlt | ⟨rfl, hlt⟩⟩)
      · exact .inl (.inl hlt)
      · exact .inl (.inr ⟨rfl, hlt⟩)
      · exact .inr ⟨⟨rfl, rfl⟩, hlt⟩
    · rintro ((hlt | ⟨rfl, hlt⟩) | ⟨⟨rfl, rfl⟩, hlt⟩)
      · exact .inl hlt
      · exact .inr ⟨rfl, .inl hlt⟩
      · exact .inr ⟨rfl, .inr ⟨rfl, hlt⟩⟩

end Order

end PrefixCode
