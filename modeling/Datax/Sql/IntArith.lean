import Mathlib
import Datax.Shared.Wrap

/-!
# `INT` arithmetic

`applyArith` on two `INT` values, with the iterations its loops make. `^` with a negative exponent
is left to floating point, which is not modelled.
-/

namespace Datax

inductive ArithOp where
  | add | sub | mul | div | mod | pow
deriving DecidableEq

inductive ArithResult where
  | int (i : Int64)
  | float
  | divisionByZero
  | outOfRange
deriving DecidableEq

open ArithResult

def powerLoop (base : Int64) : Nat → Int64 → Nat → ArithResult × Nat
  | 0, result, i => (int result, i)
  | e + 1, result, i =>
    if base ≠ 0 ∧ result * base / base ≠ result then (outOfRange, i + 1)
    else powerLoop base e (result * base) (i + 1)

def power (l r : Int64) : ArithResult × Nat :=
  if 0 ≤ r then powerLoop l r.toInt.toNat 1 0 else (float, 0)

def mod (l r : Int64) : ArithResult :=
  if r = 0 then divisionByZero else if r = -1 then int 0 else int (l % r)

def applyArith (l : Int64) (op : ArithOp) (r : Int64) : ArithResult × Nat :=
  match op with
  | .mod => (mod l r, 0)
  | .pow => power l r
  | .add => (if ¬ (l < l + r ↔ 0 < r) ∧ r ≠ 0 then outOfRange else int (l + r), 0)
  | .sub => (if ¬ (l - r < l ↔ 0 < r) ∧ r ≠ 0 then outOfRange else int (l - r), 0)
  | .mul =>
    (if l ≠ 0 ∧ r ≠ 0 then
      if l * r / r ≠ l ∨ l = -1 ∧ r = Int64.minValue ∨ r = -1 ∧ l = Int64.minValue then outOfRange
      else int (l * r)
    else int 0, 0)
  | .div => (if r = 0 then divisionByZero else int (l / r), 0)

def ArithOp.exact (l r : Int) : ArithOp → Int
  | .add => l + r
  | .sub => l - r
  | .mul => l * r
  | .div => l.tdiv r
  | .mod => l.tmod r
  | .pow => l ^ r.toNat

def inRange (x : Int) : ArithResult := if Fits x then int (Int64.ofInt x) else outOfRange

def exactArith (l : Int64) (op : ArithOp) (r : Int64) : ArithResult :=
  if (op = .div ∨ op = .mod) ∧ r = 0 then divisionByZero else inRange (op.exact l.toInt r.toInt)

theorem inRange_toInt (x : Int64) : inRange x.toInt = int x := by
  rw [inRange, if_pos (fits_toInt x), Int64.ofInt_toInt]

theorem inRange_of_not_fits {x : Int} (h : ¬ Fits x) : inRange x = outOfRange := if_neg h

theorem toInt_mul_of_fits {x y : Int64} (h : Fits (x.toInt * y.toInt)) :
    (x * y).toInt = x.toInt * y.toInt := by
  rw [Int64.toInt_mul, bmod_eq_self_iff.2 h]

/-- The test on the wrapped product is exact, except by `-1`. -/
theorem mul_div_cancel_iff {x y : Int64} (h0 : y ≠ 0) (h1 : y ≠ -1) :
    x * y / y = x ↔ Fits (x.toInt * y.toInt) := by
  have hy : y.toInt ≠ 0 := fun h => h0 (Int64.toInt_inj.1 h)
  rw [← Int64.toInt_inj, Int64.toInt_div_of_ne_right _ _ h1]
  constructor
  · intro h
    have hprod := Int.tmod_add_mul_tdiv (x * y).toInt y.toInt
    rw [h, mul_comm] at hprod
    have hsmall : ((x * y).toInt.tmod y.toInt).natAbs < y.toInt.natAbs :=
      Int.natAbs_tmod .. ▸ Nat.mod_lt _ (Int.natAbs_pos.2 hy)
    have hlo := y.le_toInt
    have hhi := y.toInt_lt
    obtain ⟨hl, hr⟩ := fits_toInt (x * y)
    rw [Int64.toInt_mul, bmod_eq_sub] at hprod hl hr hsmall
    unfold Fits
    omega
  · intro h
    rw [toInt_mul_of_fits h, Int.mul_tdiv_cancel _ hy]

theorem not_fits_mul {x b : Int} (h : ¬ Fits x) (hb : 2 ≤ |b|) : ¬ Fits (x * b) := by
  have hx : 2 ^ 63 ≤ |x| := by
    rw [le_abs]
    unfold Fits at h
    omega
  have hmul : 2 ^ 63 * 2 ≤ |x * b| := abs_mul x b ▸ mul_le_mul hx hb (by decide) (abs_nonneg x)
  rw [le_abs] at hmul
  unfold Fits
  omega

theorem not_fits_mul_pow {x b : Int} (h : ¬ Fits x) (hb : 2 ≤ |b|) (k : Nat) :
    ¬ Fits (x * b ^ k) := by
  induction k with
  | zero => rwa [pow_zero, mul_one]
  | succ k ih =>
    rw [pow_succ, ← mul_assoc]
    exact not_fits_mul ih hb

theorem fits_pow {b : Int} (hb : |b| < 2) (n : Nat) : Fits (b ^ n) := by
  have h : |b ^ n| ≤ 1 := abs_pow b n ▸ pow_le_one₀ (abs_nonneg b) (by omega)
  rw [abs_le] at h
  unfold Fits
  omega

section Power
variable {base result : Int64} {i : Nat}

theorem toInt_one_eq (base : Int64) : (1 : Int64).toInt = base.toInt ^ 0 := by simp

theorem powerLoop_succ (e : Nat) (h : result.toInt = base.toInt ^ i) :
    Fits (base.toInt ^ (i + 1)) ∧ (result * base).toInt = base.toInt ^ (i + 1) ∧
        powerLoop base (e + 1) result i = powerLoop base e (result * base) (i + 1) ∨
      ¬ Fits (base.toInt ^ (i + 1)) ∧ powerLoop base (e + 1) result i = (outOfRange, i + 1) := by
  have hiff : ¬ (base ≠ 0 ∧ result * base / base ≠ result) ↔ Fits (base.toInt ^ (i + 1)) := by
    by_cases h0 : base = 0
    · simp [h0, Fits]
    by_cases h1 : base = -1
    · have hone : result = 1 ∨ result = -1 := by
        rw [h1] at h
        exact (neg_one_pow_eq_or Int i).imp (fun hp => Int64.toInt_inj.1 (h.trans hp)) fun hp =>
          Int64.toInt_inj.1 (h.trans hp)
      rw [h1, iff_true_right (fits_pow (by decide) _)]
      rcases hone with rfl | rfl <;> decide
    · rw [pow_succ, ← h, ← mul_div_cancel_iff h0 h1]
      tauto
  by_cases hf : Fits (base.toInt ^ (i + 1))
  · refine .inl ⟨hf, ?_, if_neg (hiff.2 hf)⟩
    rw [pow_succ, ← h] at hf ⊢
    exact toInt_mul_of_fits hf
  · exact .inr ⟨hf, if_pos (not_not.1 (mt hiff.1 hf))⟩

theorem lt_of_pow_eq (hb : 2 ≤ |base.toInt|) (h : result.toInt = base.toInt ^ i) : i < 64 := by
  have hpow : 2 ^ i ≤ |base.toInt ^ i| := abs_pow base.toInt i ▸ pow_le_pow_left₀ (by decide) hb i
  have hle : (2 : Int) ^ i < 2 ^ 64 := by
    obtain ⟨hl, hr⟩ := fits_toInt result
    rw [← h, le_abs] at hpow
    omega
  exact (pow_lt_pow_iff_right₀ (by decide)).1 hle

/-- The loop is exact; a base of at least 2 leaves 64 bits within 64 iterations, a
smaller one never does. -/
theorem powerLoop_spec (e : Nat) (h : result.toInt = base.toInt ^ i) :
    (powerLoop base e result i).1 = inRange (base.toInt ^ (i + e)) ∧
      (|base.toInt| < 2 → (powerLoop base e result i).2 = i + e) ∧
      (2 ≤ |base.toInt| → (powerLoop base e result i).2 ≤ 64) := by
  induction e generalizing result i with
  | zero => exact ⟨(h ▸ inRange_toInt result).symm, fun _ => rfl, fun hb => (lt_of_pow_eq hb h).le⟩
  | succ e ih =>
    rw [show i + (e + 1) = i + 1 + e by omega]
    rcases powerLoop_succ e h with ⟨_, hmul, hloop⟩ | ⟨hf, hloop⟩
    · exact hloop ▸ ih hmul
    · have hb : 2 ≤ |base.toInt| := not_lt.1 fun hb => hf (fits_pow hb _)
      rw [hloop, pow_add, inRange_of_not_fits (not_fits_mul_pow hf hb e)]
      exact ⟨rfl, fun hlt => absurd hb hlt.not_ge, fun _ => lt_of_pow_eq hb h⟩

end Power

theorem checked_eq {c : Prop} [Decidable c] {x : Int64} {y : Int} (hx : x.toInt = y.bmod (2 ^ 64))
    (hc : c ↔ ¬ Fits y) : (if c then outOfRange else int x) = inRange y := by
  by_cases h : Fits y
  · rw [if_neg (fun hp => hc.1 hp h), ← inRange_toInt x, hx, bmod_eq_self_iff.2 h]
  · rw [if_pos (hc.2 h), inRange_of_not_fits h]

theorem mul_test_iff {l r : Int64} (hr : r ≠ 0) :
    (l * r / r ≠ l ∨ l = -1 ∧ r = Int64.minValue ∨ r = -1 ∧ l = Int64.minValue) ↔
      ¬ Fits (l.toInt * r.toInt) := by
  by_cases h1 : r = -1
  · have hcancel : l * -1 / -1 = l := by
      rw [← Int64.toInt_inj, Int64.toInt_div]
      simp
    have hone : (-1 : Int64).toInt = -1 := rfl
    have hmin : Int64.minValue.toInt = -2 ^ 63 := rfl
    obtain ⟨hlo, hhi⟩ := fits_toInt l
    rw [h1, hcancel]
    simp only [ne_eq, not_true, false_or, true_and, Fits, ← Int64.toInt_inj, hone, hmin]
    omega
  · rw [← mul_div_cancel_iff hr h1]
    constructor
    · rintro (h | ⟨rfl, rfl⟩ | ⟨h, -⟩)
      exacts [h, by decide, absurd h h1]
    · exact Or.inl

theorem exactArith_eq {l r : Int64} {op : ArithOp} {x : Int64} (hz : op ≠ .div ∧ op ≠ .mod ∨ r ≠ 0)
    (h : x.toInt = op.exact l.toInt r.toInt) : exactArith l op r = int x := by
  rw [exactArith, if_neg (by tauto), ← h, inRange_toInt]

theorem applyArith_eq_iff (l r : Int64) (op : ArithOp) (hr : op = .pow → 0 ≤ r) :
    (applyArith l op r).1 = exactArith l op r ↔ ¬ (op = .div ∧ l = Int64.minValue ∧ r = -1) := by
  obtain ⟨hl, hl'⟩ := fits_toInt l
  obtain ⟨hlo, hhi⟩ := fits_toInt r
  cases op with
  | add =>
    refine iff_of_true (checked_eq (Int64.toInt_add l r) ?_) (by simp)
    simp only [ArithOp.exact, Int64.lt_iff_toInt_lt, ne_eq, ← Int64.toInt_inj, Int64.toInt_add,
      bmod_eq_sub, Fits, Int64.toInt_zero]
    omega
  | sub =>
    refine iff_of_true (checked_eq (Int64.toInt_sub l r) ?_) (by simp)
    simp only [ArithOp.exact, Int64.lt_iff_toInt_lt, ne_eq, ← Int64.toInt_inj, Int64.toInt_sub,
      bmod_eq_sub, Fits, Int64.toInt_zero]
    omega
  | mul =>
    refine iff_of_true ?_ (by simp)
    by_cases hz : l ≠ 0 ∧ r ≠ 0
    · exact (if_pos hz).trans (checked_eq (Int64.toInt_mul l r) (mul_test_iff hz.2))
    · refine (if_neg hz).trans (exactArith_eq (.inl (by decide)) ?_).symm
      rcases not_and_or.1 hz with h | h <;> simp [not_not.1 h, ArithOp.exact]
  | div =>
    by_cases hz : r = 0
    · simp [applyArith, exactArith, hz]
    by_cases hmin : l = Int64.minValue ∧ r = -1
    · rw [hmin.1, hmin.2]
      decide
    · refine iff_of_true ((if_neg hz).trans (exactArith_eq (.inr hz) ?_).symm) (by simp [hmin])
      rcases not_and_or.1 hmin with h | h
      · exact Int64.toInt_div_of_ne_left _ _ h
      · exact Int64.toInt_div_of_ne_right _ _ h
  | mod =>
    refine iff_of_true ?_ (by simp)
    by_cases hz : r = 0
    · simp [applyArith, exactArith, hz, mod]
    refine (if_neg hz).trans (Eq.trans ?_ (exactArith_eq (.inr hz) (Int64.toInt_mod l r)).symm)
    split
    case isTrue h => rw [h, show l % -1 = 0 from Int64.toInt_inj.1 (by rw [Int64.toInt_mod]; simp)]
    case isFalse => rfl
  | pow =>
    refine iff_of_true ?_ (by simp)
    rw [applyArith, power, if_pos (hr rfl), (powerLoop_spec _ (toInt_one_eq l)).1, zero_add]
    rfl

theorem applyArith_exact_iff {N : Nat} (hN : 64 ≤ N) (l r : Int64) (op : ArithOp)
    (hr : op = .pow → 0 ≤ r) :
    ((applyArith l op r).1 = exactArith l op r ∧ (applyArith l op r).2 ≤ N) ↔
      ¬ (op = .div ∧ l = Int64.minValue ∧ r = -1) ∧ (op = .pow → 2 ≤ |l.toInt| ∨ r.toInt ≤ N) := by
  refine and_congr (applyArith_eq_iff l r op hr) ?_
  by_cases hop : op = .pow
  · subst hop
    rw [applyArith, power, if_pos (hr rfl), forall_prop_of_true rfl]
    obtain ⟨_, hsmall, hlarge⟩ := powerLoop_spec r.toInt.toNat (toInt_one_eq l)
    omega
  · cases op <;> simp_all [applyArith]

theorem least_by_minus_one :
    (applyArith Int64.minValue .div (-1)).1 = int Int64.minValue ∧
      exactArith Int64.minValue .div (-1) = outOfRange := by
  decide

theorem applyArith_exact_power :
    (applyArith 3 .pow 40).1 = exactArith 3 .pow 40 ∧ (applyArith 3 .pow 40).2 ≤ 64 :=
  (applyArith_exact_iff le_rfl 3 40 .pow (by decide)).2 ⟨by decide, fun _ => .inl (by decide)⟩

end Datax
