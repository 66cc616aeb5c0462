import Mathlib.Data.List.Nodup

/-!
# Write batches over a keyed store

A batch is a list of writes, each a value for a key or the deletion of the key, applied in order.
What a key holds afterwards depends on the writes to that key alone.
-/

namespace Batch

open Function List

universe u v w
variable {κ : Type u} {ν : Type v} [DecidableEq κ]

def apply (kv : κ → Option ν) (ws : List (κ × Option ν)) : κ → Option ν :=
  ws.foldl (fun kv w => Function.update kv w.1 w.2) kv

variable {kv kv' : κ → Option ν} {ws : List (κ × Option ν)} {x : κ}

@[simp] theorem apply_nil : apply kv [] = kv := rfl

theorem apply_cons (w : κ × Option ν) :
    apply kv (w :: ws) = apply (Function.update kv w.1 w.2) ws := rfl

theorem apply_append (ws' : List (κ × Option ν)) : apply kv (ws ++ ws') = apply (apply kv ws) ws' :=
  foldl_append

theorem apply_congr (h : kv x = kv' x) : apply kv ws x = apply kv' ws x := by
  induction ws generalizing kv kv' with
  | nil => exact h
  | cons w ws ih =>
    rw [apply_cons, apply_cons]
    apply ih
    by_cases heq : x = w.1
    · rw [heq, update_self, update_self]
    · rw [update_of_ne heq, update_of_ne heq, h]

theorem apply_of_forall_ne (h : ∀ w ∈ ws, w.1 ≠ x) : apply kv ws x = kv x := by
  induction ws generalizing kv with
  | nil => rfl
  | cons w ws ih =>
    rw [apply_cons, ih fun w' hw' => h w' (mem_cons_of_mem w hw')]
    exact update_of_ne (h w mem_cons_self).symm _ _

theorem apply_of_agree {v : Option ν} (hmem : (x, v) ∈ ws)
    (hagree : ∀ w ∈ ws, w.1 = x → w.2 = v) : apply kv ws x = v := by
  induction ws generalizing kv with
  | nil => cases hmem
  | cons w ws ih =>
    rw [apply_cons]
    have hrest : ∀ w' ∈ ws, w'.1 = x → w'.2 = v := fun w' hw' => hagree w' (mem_cons_of_mem w hw')
    by_cases hin : (x, v) ∈ ws
    · exact ih hin hrest
    have hnone : ∀ w' ∈ ws, w'.1 ≠ x := by
      intro w' hw' heq
      have hw : w' = (x, v) := Prod.ext heq (hrest w' hw' heq)
      exact hin (hw ▸ hw')
    rcases mem_cons.mp hmem with hhead | hmem
    · rw [apply_of_forall_ne hnone, ← hhead, update_self]
    · exact absurd hmem hin

theorem apply_flatMap {ι : Type w} {f : ι → List (κ × Option ν)} {is : List ι} {i : ι} (hi : i ∈ is)
    (hnodup : is.Nodup) (hother : ∀ j ∈ is, j ≠ i → ∀ w ∈ f j, w.1 ≠ x) :
    apply kv (is.flatMap f) x = apply kv (f i) x := by
  obtain ⟨before, after, rfl⟩ := append_of_mem hi
  have hnot : i ∉ before ∧ i ∉ after := by
    have := nodup_middle.mp hnodup
    rw [nodup_cons, mem_append, not_or] at this
    exact this.1
  have hbefore : ∀ w ∈ before.flatMap f, w.1 ≠ x := by
    intro w hw
    obtain ⟨j, hj, hw⟩ := mem_flatMap.mp hw
    exact hother j (mem_append_left _ hj) (fun heq => hnot.1 (heq ▸ hj)) w hw
  have hafter : ∀ w ∈ after.flatMap f, w.1 ≠ x := by
    intro w hw
    obtain ⟨j, hj, hw⟩ := mem_flatMap.mp hw
    exact hother j (mem_append_right _ (mem_cons_of_mem i hj)) (fun heq => hnot.2 (heq ▸ hj)) w hw
  rw [flatMap_append, flatMap_cons, apply_append, apply_append, apply_of_forall_ne hafter]
  exact apply_congr (apply_of_forall_ne hbefore)

end Batch
