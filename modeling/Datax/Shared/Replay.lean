import Mathlib.Data.List.Basic
import Mathlib.Order.Monotone.Basic

/-!
# Replaying a log

Replicas that apply one log in order differ only in how far they have come:
`stateAt` is the state after the first `k` entries. Appending to the log changes
no earlier state, so a fact about a position, once true, stays true.
-/

namespace Replay

open List

universe u v
variable {σ : Type u} {ε : Type v} (f : σ → ε → σ) (init : σ)

def stateAt (log : List ε) (k : Nat) : σ := (log.take k).foldl f init

variable {f init} {log : List ε}

@[simp] theorem stateAt_zero : stateAt f init log 0 = init := by
  simp [stateAt]

variable {k : Nat}

theorem stateAt_succ {e : ε} (h : log[k]? = some e) :
    stateAt f init log (k + 1) = f (stateAt f init log k) e := by
  simp only [stateAt, take_add_one, h, Option.toList_some, foldl_append, foldl_cons, foldl_nil]

theorem stateAt_of_length_le (h : log.length ≤ k) :
    stateAt f init log k = stateAt f init log log.length := by
  simp only [stateAt, take_of_length_le h, take_length]

theorem stateAt_append (more : List ε) (h : k ≤ log.length) :
    stateAt f init (log ++ more) k = stateAt f init log k := by
  simp only [stateAt, take_append_of_le_length h]

theorem stateAt_concat (e : ε) (h : log.length < k) :
    stateAt f init (log ++ [e]) k = f (stateAt f init log log.length) e := by
  have hlen : (log ++ [e]).length ≤ k := by
    rw [length_append, length_singleton]
    exact h
  simp only [stateAt, take_of_length_le hlen, take_length, foldl_append, foldl_cons, foldl_nil]

theorem stateAt_invariant {P : σ → Prop} (h₀ : P init) (keep : ∀ s e, e ∈ log → P s → P (f s e))
    (k : Nat) : P (stateAt f init log k) := by
  induction k with
  | zero => simpa using h₀
  | succ k ih =>
    cases he : log[k]? with
    | none =>
      have hle := getElem?_eq_none_iff.mp he
      rw [stateAt_of_length_le (Nat.le_succ_of_le hle), ← stateAt_of_length_le hle]
      exact ih
    | some e =>
      rw [stateAt_succ he]
      exact keep _ e (mem_of_getElem? he) ih

theorem stateAt_rel {R : σ → σ → Prop} (refl : ∀ s, R s s)
    (trans : ∀ {a b c}, R a b → R b c → R a c)
    (keep : ∀ k e, log[k]? = some e → R (stateAt f init log k) (f (stateAt f init log k) e))
    {i j : Nat} (hij : i ≤ j) : R (stateAt f init log i) (stateAt f init log j) := by
  induction j, hij using Nat.le_induction with
  | base => exact refl _
  | succ j _ ih =>
    cases he : log[j]? with
    | none =>
      have hle := getElem?_eq_none_iff.mp he
      rw [stateAt_of_length_le (Nat.le_succ_of_le hle), ← stateAt_of_length_le hle]
      exact ih
    | some e =>
      rw [stateAt_succ he]
      exact trans ih (keep j e he)

end Replay
