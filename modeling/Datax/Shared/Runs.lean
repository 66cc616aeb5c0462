import Mathlib.Data.List.Basic
import Mathlib.Logic.Relation
import Mathlib.Order.Monotone.Defs

/-!
# Runs of state machines

One kind of machine answers every operation (`f` is total), the other may disable actions (`step`
returns an option). A run is a list of labels, and a side condition `C` is asked of every step in
the state it starts from.
-/

namespace Runs

open List

universe u v
variable {σ : Type u} {α : Type v} {s : σ} {as : List α} {Q : σ → α → Prop}

section Total
variable (f : σ → α → σ)

def steps : σ → List α → List (σ × α)
  | _, [] => []
  | s, a :: as => (s, a) :: steps (f s a) as

def Along (P : σ → α → Prop) (s : σ) (as : List α) : Prop :=
  ∀ p ∈ steps f s as, P p.1 p.2

variable {f}

@[simp] theorem along_nil (P : σ → α → Prop) (s : σ) : Along f P s [] := by
  simp [Along, steps]

variable {P : σ → α → Prop}

@[simp] theorem along_cons {a : α} : Along f P s (a :: as) ↔ P s a ∧ Along f P (f s a) as := by
  simp [Along, steps]

theorem along_congr (h : ∀ s a, P s a ↔ Q s a) (s : σ) (as : List α) :
    Along f P s as ↔ Along f Q s as := by
  simp only [Along, h]

theorem along_imp (h : ∀ s a, P s a → Q s a) (ha : Along f P s as) : Along f Q s as :=
  fun p hp => h p.1 p.2 (ha p hp)

theorem along_append {bs : List α} :
    Along f P s (as ++ bs) ↔ Along f P s as ∧ Along f P (as.foldl f s) bs := by
  induction as generalizing s with
  | nil => simp
  | cons a as ih =>
    rw [cons_append, along_cons, along_cons, ih, foldl_cons, and_assoc]

section Order
variable [Preorder σ] (mono : ∀ a, Monotone fun s => f s a)
include mono

theorem foldl_mono {t : σ} (hst : s ≤ t) (as : List α) : as.foldl f s ≤ as.foldl f t := by
  induction as generalizing s t with
  | nil => exact hst
  | cons a as ih => exact ih (mono a hst)

theorem along_anti (anti : ∀ s t a, s ≤ t → P t a → P s a) {t : σ} (hst : s ≤ t)
    (ha : Along f P t as) : Along f P s as := by
  induction as generalizing s t with
  | nil => simp
  | cons a as ih =>
    rw [along_cons] at ha ⊢
    exact ⟨anti s t a hst ha.1, ih (mono a hst) ha.2⟩

end Order

section Latch
variable {β : Type*} {G : σ → Prop} {C : σ → α → Prop} {A B : β → σ → α → Prop} {I : β → σ → Prop}
variable (good : ∀ s a, G s → C s a → G (f s a))
variable (keep : ∀ b s a, G s → C s a → I b s → I b (f s a))
  (block : ∀ b s a, G s → C s a → I b s → ¬ B b s a)
include good keep block

/-- Once the latch `I b` is set no later step of the run is a `B b` step. -/
theorem along_not_of_latch {b : β} (hg : G s) (hi : I b s)
    (hc : Along f C s as) : Along f (fun s a => ¬ B b s a) s as := by
  induction as generalizing s with
  | nil => simp
  | cons a as ih =>
    rw [along_cons] at hc ⊢
    obtain ⟨hca, hcs⟩ := hc
    exact ⟨block b s a hg hca hi, ih (good s a hg hca) (keep b s a hg hca hi) hcs⟩

theorem pairwise_of_latch (set : ∀ b s a, G s → C s a → A b s a → I b (f s a)) (hg : G s)
    (hc : Along f C s as) :
    (steps f s as).Pairwise fun p q => ∀ b, A b p.1 p.2 → ¬ B b q.1 q.2 := by
  induction as generalizing s with
  | nil => simp [steps]
  | cons a as ih =>
    obtain ⟨hca, hcs⟩ := along_cons.mp hc
    rw [steps, pairwise_cons]
    refine ⟨?_, ih (good s a hg hca) hcs⟩
    intro q hq b ha
    exact along_not_of_latch good keep block (good s a hg hca) (set b s a hg hca ha) hcs q hq

end Latch

end Total

variable {C : σ → α → Prop} {I : σ → Prop}

section Partial
variable (step : σ → α → Option σ)

/-- The state after a list of actions, when each of them is enabled in turn. -/
def run : σ → List α → Option σ
  | s, [] => some s
  | s, a :: as => (step s a).bind fun s' => run s' as

/-- Every action of the list meets `C` in the state it is taken in. -/
def Guarded (C : σ → α → Prop) : σ → List α → Prop
  | _, [] => True
  | s, a :: as => C s a ∧ ∀ s', step s a = some s' → Guarded C s' as

variable {step} {s' : σ}

theorem run_cons_some {a : α} :
    run step s (a :: as) = some s' ↔ ∃ t, step s a = some t ∧ run step t as = some s' := by
  simp [run, Option.bind_eq_some_iff]

theorem guarded_true (s : σ) (as : List α) : Guarded step (fun _ _ => True) s as := by
  induction as generalizing s with
  | nil => trivial
  | cons a as ih => exact ⟨trivial, fun s' _ => ih s'⟩

instance decGuarded (C : σ → α → Prop) [∀ s a, Decidable (C s a)] :
    (s : σ) → (as : List α) → Decidable (Guarded step C s as)
  | _, [] => isTrue trivial
  | s, a :: as =>
    match h : step s a with
    | none => decidable_of_iff (C s a) (by simp [Guarded, h])
    | some s' =>
      have := decGuarded C s' as
      decidable_of_iff (C s a ∧ Guarded step C s' as) (by simp [Guarded, h])

instance decReached (o : Option σ) (p : σ → Prop) [DecidablePred p] :
    Decidable (∃ s', o = some s' ∧ p s') :=
  inferInstanceAs (Decidable (∃ s' ∈ o, p s'))

/-- A run that can be carried out ends in a state that a test tells enough about. -/
theorem exists_of_run {q : σ → Prop} (p : σ → Prop) (h : ∃ s', run step s as = some s' ∧ p s')
    (hq : ∀ s', run step s as = some s' → p s' → q s') : ∃ s', run step s as = some s' ∧ q s' :=
  h.imp fun s' h => ⟨h.1, hq s' h.1 h.2⟩

/-- What holds at the start and is kept by every admissible step holds in every state reached. -/
theorem invariant_of_run (keep : ∀ s a s', I s → C s a → step s a = some s' → I s') (hi : I s)
    (hc : Guarded step C s as) (hr : run step s as = some s') : I s' := by
  induction as generalizing s with
  | nil =>
    cases hr
    exact hi
  | cons a as ih =>
    obtain ⟨t, ht, hr⟩ := run_cons_some.mp hr
    exact ih (keep s a t hi hc.1 ht) (hc.2 t ht) hr

/-- In a run all of whose steps are enabled, a property that a step keeps exactly when `C` holds
is true of every state reached exactly when `C` holds along the run. -/
theorem reached_iff_guarded {P : σ → Prop} (keep : ∀ s a s', I s → step s a = some s' → I s')
    (exact : ∀ s a s', I s → P s → step s a = some s' → (P s' ↔ C s a)) (hi : I s) (hp : P s)
    (hr : run step s as = some s') :
    (∀ pre t, pre <+: as → run step s pre = some t → P t) ↔ Guarded step C s as := by
  induction as generalizing s with
  | nil =>
    refine ⟨fun _ => trivial, ?_⟩
    intro _ pre t hpre ht
    cases prefix_nil.mp hpre
    cases ht
    exact hp
  | cons a as ih =>
    obtain ⟨t, hstep, hrest⟩ := run_cons_some.mp hr
    have hone := exact s a t hi hp hstep
    constructor
    · intro h
      have ht : P t := h [a] t (prefix_append [a] as) (run_cons_some.mpr ⟨t, hstep, rfl⟩)
      refine ⟨hone.mp ht, ?_⟩
      intro t' ht'
      cases hstep.symm.trans ht'
      refine (ih (keep s a t hi hstep) ht hrest).mp ?_
      intro pre u hpre hu
      exact h (a :: pre) u (cons_prefix_cons.mpr ⟨rfl, hpre⟩) (run_cons_some.mpr ⟨t, hstep, hu⟩)
    · intro hc pre u hpre hu
      cases pre with
      | nil =>
        cases hu
        exact hp
      | cons b pre =>
        obtain ⟨rfl, htail⟩ := cons_prefix_cons.mp hpre
        obtain ⟨t', ht', hu⟩ := run_cons_some.mp hu
        cases hstep.symm.trans ht'
        exact (ih (keep s b t hi hstep) (hone.mpr hc.1) hrest).mpr (hc.2 t hstep) pre u htail hu

end Partial

end Runs
