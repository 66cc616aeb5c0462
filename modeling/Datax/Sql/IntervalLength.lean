import Mathlib
import Datax.Shared.Wrap
import Datax.Sql.Datum

/-!
# The length of an interval

`CmpValue` and `Justify` compute in 64 bits that wrap. Compared with the exact length, an order is
right when the two lengths lie alike in the windows of `2 ^ 64` nanoseconds, and `Justify` keeps the
length when neither of its two sums wraps.
-/

namespace Datax

namespace Interval

def justifyHours (iv : Interval) : Interval :=
  let days := iv.nanos / nanosPerDay
  { iv with days := iv.days + days, nanos := iv.nanos - days * nanosPerDay }

def justifyDays (iv : Interval) : Interval :=
  let months := iv.days / 30
  { iv with months := iv.months + months, days := iv.days - months * 30 }

def alignMonths (iv : Interval) : Interval :=
  if 0 < iv.months ∧ (iv.days < 0 ∨ iv.days = 0 ∧ iv.nanos < 0) then
    { iv with months := iv.months - 1, days := iv.days + 30 }
  else if iv.months < 0 ∧ (0 < iv.days ∨ iv.days = 0 ∧ 0 < iv.nanos) then
    { iv with months := iv.months + 1, days := iv.days - 30 }
  else iv

def alignDays (iv : Interval) : Interval :=
  if 0 < iv.days ∧
    iv.nanos < 0 then { iv with days := iv.days - 1, nanos := iv.nanos + nanosPerDay }
  else if iv.days < 0 ∧
    0 < iv.nanos then { iv with days := iv.days + 1, nanos := iv.nanos - nanosPerDay }
  else iv

def justify (iv : Interval) : Interval := iv.justifyHours.justifyDays.alignMonths.alignDays

def length (iv : Interval) : Int :=
  (30 * iv.months.toInt + iv.days.toInt) * 86400000000000 + iv.nanos.toInt

@[mk_iff]
structure Aligned (iv : Interval) : Prop where
  clock : |iv.nanos.toInt| < 86400000000000
  days : |iv.days.toInt| < 30
  signs : 0 ≤ iv.months.toInt ∧ 0 ≤ iv.days.toInt ∧ 0 ≤ iv.nanos.toInt ∨
    iv.months.toInt ≤ 0 ∧ iv.days.toInt ≤ 0 ∧ iv.nanos.toInt ≤ 0

/-- Some interval of 64-bit fields is the exact answer. -/
def Justifiable (iv : Interval) : Prop := ∃ r : Interval, r.Aligned ∧ r.length = iv.length

def SumsFit (iv : Interval) : Prop :=
  Fits (iv.days.toInt + iv.nanos.toInt.tdiv 86400000000000) ∧
    Fits (iv.months.toInt + (iv.days.toInt + iv.nanos.toInt.tdiv 86400000000000).tdiv 30)

/-- The lengths lie in one window of `2 ^ 64`, or the places in the two windows are
ordered as the windows are. -/
def WindowsAgree (x y : Int) : Prop :=
  (x + 2 ^ 63) / 2 ^ 64 = (y + 2 ^ 63) / 2 ^ 64 ∨
    (x + 2 ^ 63) % 2 ^ 64 ≠ (y + 2 ^ 63) % 2 ^ 64 ∧
      ((x + 2 ^ 63) / 2 ^ 64 < (y + 2 ^ 63) / 2 ^ 64 ↔
        (x + 2 ^ 63) % 2 ^ 64 < (y + 2 ^ 63) % 2 ^ 64)

theorem toInt_cmpValue (iv : Interval) : iv.cmpValue.toInt = iv.length.bmod (2 ^ 64) := by
  simp [cmpValue, length, nanosPerDay, mul_comm]

theorem cmp_wrapped_iff (x y : Int) :
    cmp (x.bmod (2 ^ 64)) (y.bmod (2 ^ 64)) = cmp x y ↔ WindowsAgree x y := by
  rw [bmod_eq_sub, bmod_eq_sub, WindowsAgree]
  rcases lt_trichotomy x y with h | h | h
  · rw [(cmp_eq_lt_iff x y).2 h, cmp_eq_lt_iff]
    omega
  · simp [h]
  · rw [(cmp_eq_gt_iff x y).2 h, cmp_eq_gt_iff]
    omega

theorem carry (x y : Int64) {d : Int64} {k : Int} (hk : d.toInt = k) (h1 : 1 < k) :
    (x + y / d).toInt = (x.toInt + y.toInt.tdiv k).bmod (2 ^ 64) ∧
      |(y - y / d * d).toInt| < k ∧ (y - y / d * d).toInt + k * y.toInt.tdiv k = y.toInt := by
  have hne : d ≠ -1 := by
    rintro rfl
    cases hk
    cases h1
  have hrest : (y - y / d * d).toInt = y.toInt.tmod k := by
    rw [← hk, ← Int64.toInt_mod, ← Int64.toInt_bmod (y % d)]
    simp [Int.tmod_def, mul_comm, -Int64.toInt_bmod]
  rw [Int64.toInt_add, Int64.toInt_div_of_ne_right _ _ hne, hk, hrest, abs_lt]
  exact ⟨rfl, ⟨Int.lt_tmod_of_pos _ (by omega), Int.tmod_lt_of_pos _ (by omega)⟩,
    Int.tmod_add_mul_tdiv ..⟩

/-- What the first alignment leaves to the second: a clock part against the days, if any. -/
def Leading (iv : Interval) : Prop :=
  -86400000000000 < iv.nanos.toInt ∧ iv.nanos.toInt < 86400000000000 ∧
    (0 ≤ iv.months.toInt ∧ (0 < iv.days.toInt ∨ iv.days.toInt = 0 ∧ 0 ≤ iv.nanos.toInt) ∧
        (iv.days.toInt < 30 ∨ iv.days.toInt = 30 ∧ iv.nanos.toInt < 0) ∨
      iv.months.toInt ≤ 0 ∧ (iv.days.toInt < 0 ∨ iv.days.toInt = 0 ∧ iv.nanos.toInt ≤ 0) ∧
        (-30 < iv.days.toInt ∨ iv.days.toInt = -30 ∧ 0 < iv.nanos.toInt))

theorem alignMonths_spec {iv : Interval} (hd : |iv.days.toInt| < 30)
    (hn : |iv.nanos.toInt| < 86400000000000) :
    iv.alignMonths.Leading ∧ iv.alignMonths.length = iv.length := by
  have hlo := iv.months.le_toInt
  have hhi := iv.months.toInt_lt
  have h30 : (30 : Int64).toInt = 30 := rfl
  unfold alignMonths Leading length
  simp only [abs_lt, Int64.lt_iff_toInt_lt, ← Int64.toInt_inj, Int64.toInt_zero] at *
  split_ifs
  iterate 2
    simp only [Int64.toInt_add, Int64.toInt_sub, bmod_eq_sub, h30, Int64.toInt_one]
    omega
  omega

theorem alignDays_spec {iv : Interval} (h : iv.Leading) :
    iv.alignDays.Aligned ∧ iv.alignDays.length = iv.length := by
  have hday : nanosPerDay.toInt = 86400000000000 := rfl
  unfold alignDays length
  unfold Leading at h
  simp only [aligned_iff, abs_lt, Int64.lt_iff_toInt_lt, Int64.toInt_zero]
  split_ifs
  iterate 2
    simp only [Int64.toInt_add, Int64.toInt_sub, bmod_eq_sub, hday, Int64.toInt_one]
    omega
  omega

theorem justify_spec (iv : Interval) :
    iv.justify.Aligned ∧ (iv.justify.length = iv.length ↔ iv.SumsFit) := by
  obtain ⟨hdays, hclock, hnanos⟩ : iv.justifyHours.days.toInt = _ ∧
      |iv.justifyHours.justifyDays.nanos.toInt| < _ ∧
        iv.justifyHours.justifyDays.nanos.toInt + _ = _ :=
    carry iv.days iv.nanos (k := 86400000000000) rfl (by decide)
  obtain ⟨hmonths, hrest, hfolded⟩ : iv.justifyHours.justifyDays.months.toInt = _ ∧
      |iv.justifyHours.justifyDays.days.toInt| < _ ∧
        iv.justifyHours.justifyDays.days.toInt + _ = _ :=
    carry iv.months iv.justifyHours.days (k := 30) rfl (by decide)
  obtain ⟨hlead, hlen⟩ := alignMonths_spec hrest hclock
  obtain ⟨haligned, hlen'⟩ := alignDays_spec hlead
  refine ⟨haligned, ?_⟩
  rw [justify, hlen', hlen]
  have hn := iv.nanos.le_toInt
  have hn' := iv.nanos.toInt_lt
  have hd := iv.days.le_toInt
  have hd' := iv.days.toInt_lt
  rw [bmod_eq_sub] at hdays hmonths
  rw [abs_lt] at hclock
  unfold SumsFit Fits length
  -- the second sum starts from the first one as it was stored
  by_cases hsum : iv.justifyHours.days.toInt = iv.days.toInt + iv.nanos.toInt.tdiv 86400000000000
  · rw [← hsum]
    omega
  · omega

theorem interval_length_iff (convert : Datum → Family → Option Datum) (a b : Interval) :
    (Datum.compare convert (.scalar (.interval a)) (.scalar (.interval b)) =
      .ok (cmp a.length b.length) ∧
        (a.Justifiable → a.justify.Aligned ∧ a.justify.length = a.length)) ↔
      WindowsAgree a.length b.length ∧ (a.Justifiable → a.SumsFit) := by
  obtain ⟨haligned, hlen⟩ := justify_spec a
  rw [hlen, and_iff_right haligned, ← cmp_wrapped_iff, ← toInt_cmpValue, ← toInt_cmpValue]
  exact and_congr_left' (Except.ok.injEq ..).to_iff

/-- 106752 days, some 292 years, compare below nothing at all, and the last day of 64 bits justifies
to an interval that goes back. -/
theorem lengths_wrapped :
    Datum.compare (fun _ _ => none) (.scalar (.interval ⟨0, 106752, 0⟩))
      (.scalar (.interval ⟨0, 0, 0⟩)) = .ok .lt ∧ length ⟨0, 0, 0⟩ < length ⟨0, 106752, 0⟩ ∧
      Justifiable ⟨0, Int64.maxValue, nanosPerDay⟩ ∧
      (justify ⟨0, Int64.maxValue, nanosPerDay⟩).length < 0 := by
  refine ⟨by decide, by decide, ⟨⟨307445734561825860, 8, 0⟩, ?_, by decide⟩, by decide⟩
  exact ⟨by decide, by decide, by decide⟩

end Interval

end Datax
