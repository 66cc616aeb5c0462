import Datax.Shared.Wrap
import Mathlib.Algebra.Order.Ring.Int
import Mathlib.Data.Prod.Lex
import Mathlib.Tactic.Order

/-!
# Hybrid logical clock timestamps

A timestamp is a wall time in nanoseconds and a logical tick, ordered lexicographically. Wall times
are nonnegative and have no upper bound, and the logical part is a nonnegative `int32`.
`Timestamp64` is the same with the source's integers, negative ones included, where `next` wraps.
-/

namespace Datax

open Bool

instance neZeroLogical : NeZero (2 ^ 31) := ⟨by decide⟩

structure Timestamp where
  wallTime : Nat
  logical : Fin (2 ^ 31)
deriving DecidableEq

namespace Timestamp

def isEmpty (t : Timestamp) : Bool := t.wallTime == 0 && t.logical == 0

def less (t u : Timestamp) : Bool :=
  t.wallTime < u.wallTime || (t.wallTime == u.wallTime && t.logical < u.logical)

def lessEq (t u : Timestamp) : Bool := !u.less t

def next (t : Timestamp) : Timestamp :=
  if h : t.logical.val + 1 < 2 ^ 31 then ⟨t.wallTime, ⟨t.logical.val + 1, h⟩⟩
  else ⟨t.wallTime + 1, 0⟩

def forward (t u : Timestamp) : Timestamp := if t.less u then u else t

instance : LT Timestamp := ⟨fun t u => t.less u = true⟩

instance : LE Timestamp := ⟨fun t u => t.lessEq u = true⟩

instance : DecidableLT Timestamp := fun t u => inferInstanceAs (Decidable (t.less u = true))

instance : DecidableLE Timestamp := fun t u => inferInstanceAs (Decidable (t.lessEq u = true))

variable {t u : Timestamp}

theorem lt_iff : t < u ↔
    t.wallTime < u.wallTime ∨ (t.wallTime = u.wallTime ∧ t.logical.val < u.logical.val) := by
  change t.less u = true ↔ _
  simp only [less, or_eq_true, and_eq_true, decide_eq_true_eq, beq_iff_eq, Fin.lt_def]

theorem le_iff : t ≤ u ↔
    t.wallTime < u.wallTime ∨ (t.wallTime = u.wallTime ∧ t.logical.val ≤ u.logical.val) := by
  change t.lessEq u = true ↔ _
  have h : u.less t = true ↔ _ := lt_iff (t := u) (u := t)
  cases hb : u.less t with
  | true =>
    simp only [lessEq, hb, Bool.not_true, Bool.false_eq_true, false_iff]
    have := h.mp hb
    omega
  | false =>
    simp only [lessEq, hb, Bool.not_false, true_iff]
    have hn : ¬ (u.wallTime < t.wallTime ∨
        (u.wallTime = t.wallTime ∧ u.logical.val < t.logical.val)) := by
      intro hc
      simp [h.mpr hc] at hb
    omega

instance : LinearOrder Timestamp where
  le_refl t := le_iff.mpr (.inr ⟨rfl, Nat.le_refl _⟩)
  le_trans t u v htu huv := by
    rw [le_iff] at *
    omega
  lt_iff_le_not_ge t u := by
    rw [lt_iff, le_iff, le_iff]
    omega
  le_antisymm t u htu hut := by
    rw [le_iff] at htu hut
    obtain ⟨w, l⟩ := t
    obtain ⟨w', l'⟩ := u
    simp only [mk.injEq, Fin.ext_iff] at *
    omega
  le_total t u := by
    rw [le_iff, le_iff]
    omega
  max := forward
  max_def t u := by
    unfold forward
    rcases Bool.eq_false_or_eq_true (t.less u) with h | h
    · have hle : t ≤ u := le_iff.mpr (by have := lt_iff.mp h; omega)
      simp [h, hle]
    by_cases hle : t ≤ u
    · have heq : t = u := by
        have hge : ¬ t < u := by simp [LT.lt, h]
        rw [lt_iff] at hge
        rw [le_iff] at hle
        obtain ⟨w, l⟩ := t
        obtain ⟨w', l'⟩ := u
        simp only [mk.injEq, Fin.ext_iff] at *
        omega
      simp [heq]
    · simp [h, hle]
  toDecidableLE := inferInstance
  toDecidableEq := inferInstance
  toDecidableLT := inferInstance

instance : OrderBot Timestamp where
  bot := ⟨0, 0⟩
  bot_le t := le_iff.mpr (by simp; omega)

@[simp] theorem less_iff : t.less u = true ↔ t < u := Iff.rfl

@[simp] theorem lessEq_iff : t.lessEq u = true ↔ t ≤ u := Iff.rfl

@[simp] theorem less_eq_false_iff : t.less u = false ↔ u ≤ t := by
  rw [← not_lt, ← less_iff, not_eq_true]

@[simp] theorem lessEq_eq_false_iff : t.lessEq u = false ↔ u < t := by
  rw [← not_le, ← lessEq_iff, not_eq_true]

@[simp] theorem forward_eq_max (t u : Timestamp) : t.forward u = max t u := rfl

@[simp] theorem isEmpty_iff : t.isEmpty = true ↔ t = ⊥ := by
  obtain ⟨w, l⟩ := t
  change (w == 0 && l == 0) = true ↔ (⟨w, l⟩ : Timestamp) = ⟨0, 0⟩
  simp only [and_eq_true, beq_iff_eq, mk.injEq]

theorem next_le_iff : t.next ≤ u ↔ t < u := by
  unfold next
  split <;> simp only [le_iff, lt_iff, Fin.val_zero] <;> omega

theorem lt_next (t : Timestamp) : t < t.next := next_le_iff.mp le_rfl

def toString (t : Timestamp) : String :=
  let nanos := Nat.repr (t.wallTime % 1000000000)
  Nat.repr (t.wallTime / 1000000000) ++ "." ++
    String.ofList (List.replicate (9 - nanos.length) '0') ++ nanos ++ "," ++ Nat.repr t.logical.val

end Timestamp

structure Timestamp64 where
  wallTime : Int64
  logical : Int32
deriving DecidableEq

namespace Timestamp64

def next (t : Timestamp64) : Timestamp64 :=
  if t.logical = Int32.maxValue then ⟨t.wallTime + 1, 0⟩ else ⟨t.wallTime, t.logical + 1⟩

/-- No timestamp is above it. -/
def last : Timestamp64 := ⟨Int64.maxValue, Int32.maxValue⟩

def ticks (t : Timestamp64) : ℤ ×ₗ ℤ := toLex (t.wallTime.toInt, t.logical.toInt)

theorem ticks_injective : Function.Injective ticks := by
  rintro ⟨w, l⟩ ⟨w', l'⟩ h
  obtain ⟨hw, hl⟩ := Prod.mk.inj (toLex.injective h)
  rw [mk.injEq]
  exact ⟨Int64.toInt_inj.mp hw, Int32.toInt_inj.mp hl⟩

instance : LinearOrder Timestamp64 := LinearOrder.lift' ticks ticks_injective

variable {t u : Timestamp64}

theorem lt_iff : t < u ↔ t.wallTime.toInt < u.wallTime.toInt ∨
    t.wallTime.toInt = u.wallTime.toInt ∧ t.logical.toInt < u.logical.toInt :=
  Prod.Lex.lt_iff ..

theorem lt_next_iff : t < t.next ↔ t ≠ last := by
  obtain ⟨w, l⟩ := t
  have hlast : (⟨w, l⟩ : Timestamp64) = last ↔ w.toInt = 2 ^ 63 - 1 ∧ l.toInt = 2 ^ 31 - 1 := by
    rw [last, mk.injEq, ← Int64.toInt_inj, ← Int32.toInt_inj]
    rfl
  rw [lt_iff, ne_eq, hlast, next]
  by_cases h : l = Int32.maxValue
  · have htick : l.toInt = 2 ^ 31 - 1 := congrArg Int32.toInt h
    have hwall := Int64.toInt_add w 1
    rw [show (1 : Int64).toInt = 1 from rfl, bmod_eq_sub] at hwall
    have hfits := fits_toInt w
    unfold Fits at hfits
    rw [if_pos h]
    dsimp only
    omega
  · have htick : l.toInt ≠ 2 ^ 31 - 1 := fun heq => h (Int32.toInt_inj.mp heq)
    have hlo := l.le_toInt
    have hhi := l.toInt_lt
    have hadd : (l + 1).toInt = l.toInt + 1 :=
      (Int32.toInt_add l 1).trans
        (int32_eq_self (by change _ ≤ _ + 1; omega) (by change _ + 1 < _; omega))
    rw [if_neg h]
    dsimp only
    omega

theorem next_ne (t : Timestamp64) : t.next ≠ t := by
  intro heq
  by_cases ht : t = last
  · rw [ht] at heq
    exact absurd heq (by decide)
  · have hlt := lt_next_iff.mpr ht
    rw [heq] at hlt
    exact lt_irrefl _ hlt

end Timestamp64

end Datax
