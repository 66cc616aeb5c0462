import Mathlib.Data.List.AList

/-!
# Records with a key

A list of records whose keys are distinct, read by key and changed one record at a time.
-/

namespace Keyed

open Function List

universe u
variable {α : Type u} {f : α → Nat} {l : List α} {a : α}

def replace (f : α → Nat) (l : List α) (a : α) : List α := l.map fun b => if f b = f a then a else b

theorem find?_of_nodup (hnodup : (l.map f).Nodup) (h : a ∈ l) :
    l.find? (fun b => f b == f a) = some a := by
  cases hfind : l.find? (fun b => f b == f a) with
  | none => exact absurd (beq_self_eq_true _) (find?_eq_none.mp hfind a h)
  | some b =>
    have hkey := find?_some hfind
    rw [inj_on_of_nodup_map hnodup (mem_of_find?_eq_some hfind) h (beq_iff_eq.mp hkey)]

theorem key_replaced (b : α) : f (if f b = f a then a else b) = f b := by
  split
  · rename_i h
    exact h.symm
  · rfl

theorem map_replace : (replace f l a).map f = l.map f := by
  unfold replace
  rw [map_map]
  exact map_congr_left fun b _ => key_replaced b

theorem find?_replace {b : α} (hb : b ∈ l) (hkey : f b = f a) (k : Nat) :
    (replace f l a).find? (fun c => f c == k) = if k = f a then some a
      else l.find? fun c => f c == k := by
  have hsame : (fun c => f c == k) ∘ (fun c => if f c = f a then a else c) = fun c => f c == k := by
    funext c
    exact congrArg (· == k) (key_replaced c)
  unfold replace
  rw [find?_map, hsame]
  cases hfind : l.find? fun c => f c == k with
  | none =>
    rw [if_neg]
    · rfl
    · rintro rfl
      exact find?_eq_none.mp hfind b hb (beq_iff_eq.mpr hkey)
  | some c =>
    have hc := find?_some hfind
    rw [Option.map_some, beq_iff_eq.mp hc]
    split <;> rfl

theorem mem_replace {b : α} (h : b ∈ replace f l a) : b = a ∨ b ∈ l := by
  obtain ⟨c, hc, rfl⟩ := mem_map.mp h
  split
  · exact .inl rfl
  · exact .inr hc

/-! ### Finite maps, read as functions -/

section Maps
variable {κ : Type u} {ν : Type*} [DecidableEq κ] (m : AList fun _ : κ => ν)

theorem lookup_insert (k : κ) (v : ν) :
    (fun x => (m.insert k v).lookup x) = Function.update (fun x => m.lookup x) k (some v) := by
  funext x
  by_cases h : x = k
  · rw [h, AList.lookup_insert, update_self]
  · rw [AList.lookup_insert_ne h, update_of_ne h]

theorem lookup_erase (k : κ) :
    (fun x => (m.erase k).lookup x) = Function.update (fun x => m.lookup x) k none := by
  funext x
  by_cases h : x = k
  · rw [h, AList.lookup_erase, update_self]
  · rw [AList.lookup_erase_ne h, update_of_ne h]

end Maps

end Keyed
