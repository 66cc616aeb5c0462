import Datax.Util.Encoding
import Mathlib.Algebra.Order.Field.Power
import Mathlib.Data.Nat.Digits.Lemmas
import Mathlib.Tactic.FieldSimp
import Mathlib.Tactic.Positivity

/-!
# Decimals and their keys

A decimal is a coefficient and a power of ten. Its key is a marker for the sign, the exponent of the
scientific form and the digits, complemented after the marker for a negative number. The order of
keys is that of the numbers, and canonical numbers that compare equal have one key.
-/

namespace Datax

open List PrefixCode Encoding Apart

structure Dec where
  coeff : Int
  exp : Int
deriving DecidableEq, Repr

namespace Dec

/-- No trailing zeros in the coefficient, and one spelling of zero. -/
def Canonical (d : Dec) : Prop := d.coeff = 0 ∧ d.exp = 0 ∨ ¬ (10 : Int) ∣ d.coeff

instance (d : Dec) : Decidable d.Canonical :=
  inferInstanceAs (Decidable (d.coeff = 0 ∧ d.exp = 0 ∨ ¬ (10 : Int) ∣ d.coeff))

def align (a b : Dec) : Int × Int :=
  if a.exp = b.exp then (a.coeff, b.coeff)
  else if b.exp < a.exp then (a.coeff * 10 ^ (a.exp - b.exp).toNat, b.coeff)
  else (a.coeff, b.coeff * 10 ^ (b.exp - a.exp).toNat)

def cmp (a b : Dec) : Ordering := compare (align a b).1 (align a b).2

def digits (d : Dec) : List Nat := (Nat.digits 10 d.coeff.natAbs).reverse

/-- The exponent `E` of the form `± 0.digits * 10 ^ E`. -/
def scientific (d : Dec) : Int := (digits d).length + d.exp

def Fits (d : Dec) : Prop := -2 ^ 63 ≤ scientific d ∧ scientific d < 2 ^ 63

instance (d : Dec) : Decidable d.Fits :=
  inferInstanceAs (Decidable (-2 ^ 63 ≤ scientific d ∧ scientific d < 2 ^ 63))

def value (d : Dec) : ℚ := d.coeff * 10 ^ d.exp

end Dec

namespace Encoding

def decMarkerNeg : Byte := 0x14
def decMarkerZero : Byte := 0x15
def decMarkerPos : Byte := 0x16
def decTerminator : Byte := 0x00

/-- The exponent and the digits of a number that is not zero. -/
def decimalBody (e : Int) (digits : List Nat) : Key :=
  encodeInt64 (Int64.ofInt e) ++ (digits.map (fun c => Fin.ofNat 256 (c + 1)) ++ [decTerminator])

def encodeDecimal (d : Dec) : Key :=
  if d.coeff = 0 then [decMarkerZero]
  else if d.coeff < 0 then decMarkerNeg :: (decimalBody d.scientific d.digits).map Fin.rev
  else decMarkerPos :: decimalBody d.scientific d.digits

end Encoding

/-! ### Fractions -/

def fraction : List Nat → ℚ
  | [] => 0
  | c :: cs => (c + fraction cs) / 10

variable {cs : List Nat}

theorem fraction_bounds (h : ∀ c ∈ cs, c < 10) : 0 ≤ fraction cs ∧ fraction cs < 1 := by
  induction cs with
  | nil => exact ⟨le_refl 0, zero_lt_one⟩
  | cons c cs ih =>
    obtain ⟨hlo, hhi⟩ := ih fun d hd => h d (mem_cons_of_mem c hd)
    have hc : (c : ℚ) ≤ 9 := by
      have hlt := h c mem_cons_self
      exact_mod_cast Nat.le_of_lt_succ hlt
    rw [fraction]
    constructor
    · positivity
    · linarith

theorem fraction_append_singleton (cs : List Nat) (c : Nat) :
    fraction (cs ++ [c]) * 10 ^ (cs.length + 1) = fraction cs * 10 ^ (cs.length + 1) + c := by
  induction cs with
  | nil => simp [fraction]
  | cons b cs ih =>
    rw [cons_append, fraction, fraction, length_cons, pow_succ (10 : ℚ) (cs.length + 1)]
    have hten : ∀ x y : ℚ, x / 10 * (y * 10) = x * y := fun x y => by ring
    rw [hten, hten, add_mul, add_mul, ih]
    ring

theorem fraction_reverse_digits (n : Nat) :
    fraction (Nat.digits 10 n).reverse * 10 ^ (Nat.digits 10 n).length = n := by
  induction n using Nat.strong_induction_on with
  | _ n ih =>
    by_cases hn : n = 0
    · subst hn
      simp [fraction]
    have hdiv := ih (n / 10) (Nat.div_lt_self (Nat.pos_of_ne_zero hn) (by decide))
    rw [Nat.digits_eq_cons_digits_div (by decide) hn, reverse_cons, length_cons]
    have happend := fraction_append_singleton (Nat.digits 10 (n / 10)).reverse (n % 10)
    rw [length_reverse] at happend
    rw [happend, pow_succ, ← mul_assoc, hdiv]
    exact_mod_cast Nat.div_add_mod' n 10

variable {ds : List Nat}

/-- A smaller fraction has the smaller digits, the end sorting below every digit. -/
theorem digits_lt_of_fraction_lt (hc : ∀ c ∈ cs, c < 10) (hd : ∀ d ∈ ds, d < 10)
    (h : fraction cs < fraction ds) :
    cs.map (fun c => Fin.ofNat 256 (c + 1)) ++ [decTerminator] <
      ds.map (fun c => Fin.ofNat 256 (c + 1)) ++ [decTerminator] := by
  induction cs generalizing ds with
  | nil =>
    cases ds with
    | nil => exact absurd h (lt_irrefl _)
    | cons d ds =>
      have hlt := hd d mem_cons_self
      have hbyte : decTerminator < Fin.ofNat 256 (d + 1) := by
        change (0 : Nat) < (d + 1) % 256
        omega
      exact List.Lex.rel hbyte
  | cons c cs ih =>
    have hrest := fraction_bounds fun x hx => hc x (mem_cons_of_mem c hx)
    cases ds with
    | nil =>
      rw [fraction, fraction] at h
      have hc0 : (0 : ℚ) ≤ c := Nat.cast_nonneg c
      linarith [hrest.1, div_nonneg (add_nonneg hc0 hrest.1) (by norm_num : (0 : ℚ) ≤ 10)]
    | cons d ds =>
      have hrest' := fraction_bounds fun x hx => hd x (mem_cons_of_mem d hx)
      rw [fraction, fraction, div_lt_div_iff_of_pos_right (by norm_num)] at h
      rw [map_cons, map_cons, cons_append, cons_append, cons_lt_cons_iff]
      have hdlt := hd d mem_cons_self
      rcases lt_trichotomy c d with hcd | rfl | hcd
      · left
        change (c + 1) % 256 < (d + 1) % 256
        omega
      · right
        refine ⟨rfl, ih (fun x hx => hc x (mem_cons_of_mem c hx))
          (fun x hx => hd x (mem_cons_of_mem c hx)) ?_⟩
        linarith
      · have hstep : (d : ℚ) + 1 ≤ c := by exact_mod_cast hcd
        linarith [hrest.1, hrest'.2]

variable {a b d : Dec}

namespace Dec

theorem align_value (a b : Dec) :
    ∃ unit : ℚ, 0 < unit ∧ a.value = (align a b).1 * unit ∧ b.value = (align a b).2 * unit := by
  have hscale : ∀ (c : Int) {e f : Int}, f ≤ e →
      ((c : ℚ) * 10 ^ e) = ((c * 10 ^ (e - f).toNat : Int) : ℚ) * 10 ^ f := by
    intro c e f hle
    have hsplit : e = ((e - f).toNat : Int) + f := by omega
    calc (c : ℚ) * 10 ^ e = c * 10 ^ (((e - f).toNat : Int) + f) := by rw [← hsplit]
      _ = c * (10 ^ (e - f).toNat * 10 ^ f) := by rw [zpow_add₀ (by norm_num), zpow_natCast]
      _ = ((c * 10 ^ (e - f).toNat : Int) : ℚ) * 10 ^ f := by push_cast; ring
  unfold align value
  split
  · rename_i heq
    exact ⟨10 ^ a.exp, by positivity, rfl, by rw [heq]⟩
  split
  · rename_i hlt
    exact ⟨10 ^ b.exp, by positivity, hscale a.coeff (le_of_lt hlt), rfl⟩
  · rename_i hne hle
    exact ⟨10 ^ a.exp, by positivity, rfl, hscale b.coeff (not_lt.mp hle)⟩

theorem cmp_eq (a b : Dec) : cmp a b = compare a.value b.value := by
  obtain ⟨unit, hpos, ha, hb⟩ := align_value a b
  unfold cmp
  rw [ha, hb]
  rcases lt_trichotomy (align a b).1 (align a b).2 with hlt | heq | hlt
  · rw [compare_lt_iff_lt.mpr hlt, compare_lt_iff_lt.mpr]
    exact mul_lt_mul_of_pos_right (by exact_mod_cast hlt) hpos
  · rw [heq, compare_eq_iff_eq.mpr rfl, compare_eq_iff_eq.mpr rfl]
  · rw [compare_gt_iff_gt.mpr hlt, compare_gt_iff_gt.mpr]
    exact mul_lt_mul_of_pos_right (by exact_mod_cast hlt) hpos

theorem eq_of_value_eq (ha : a.Canonical) (hb : b.Canonical) (h : a.value = b.value) : a = b := by
  have hcmp : cmp a b = .eq := by rw [cmp_eq, h, compare_eq_iff_eq]
  have halign : (align a b).1 = (align a b).2 := compare_eq_iff_eq.mp hcmp
  -- A coefficient scaled up is a multiple of ten, which only zero may be.
  have hzero : ∀ {c d : Dec}, c.Canonical → d.Canonical → d.exp < c.exp →
      c.coeff * 10 ^ (c.exp - d.exp).toNat = d.coeff → False := by
    intro c d hc hd hlt hcoeff
    obtain ⟨k, hk⟩ : ∃ k, (c.exp - d.exp).toNat = k + 1 := ⟨(c.exp - d.exp).toNat - 1, by omega⟩
    have hdvd : (10 : Int) ∣ d.coeff := by
      rw [← hcoeff, hk, pow_succ]
      exact Dvd.intro_left _ (mul_assoc _ _ _)
    rcases hd with ⟨hd0, hdexp⟩ | hd
    · rw [hd0] at hcoeff
      have hc0 : c.coeff = 0 := by
        rcases mul_eq_zero.mp hcoeff with h0 | h0
        · exact h0
        · exact absurd h0 (pow_ne_zero _ (by decide))
      rcases hc with ⟨_, hcexp⟩ | hc
      · omega
      · exact hc (hc0 ▸ dvd_zero _)
    · exact hd hdvd
  unfold align at halign
  split at halign
  · rename_i hexp
    cases a
    cases b
    simp_all
  · split at halign
    · rename_i hlt
      exact (hzero ha hb hlt halign).elim
    · rename_i hne hle
      exact (hzero hb ha (by omega) halign.symm).elim

theorem digit_lt {c : Nat} (h : c ∈ d.digits) : c < 10 := by
  exact Nat.digits_lt_base (by decide) (mem_reverse.mp h)

def magnitude (d : Dec) : ℚ := fraction d.digits * 10 ^ d.scientific

theorem magnitude_eq (d : Dec) : d.magnitude = d.coeff.natAbs * 10 ^ d.exp := by
  unfold magnitude scientific
  have hfraction := fraction_reverse_digits d.coeff.natAbs
  rw [zpow_add₀ (by norm_num), zpow_natCast, ← mul_assoc]
  unfold digits
  rw [length_reverse, hfraction]

theorem magnitude_bounds (h : d.coeff ≠ 0) :
    10 ^ (d.scientific - 1) ≤ d.magnitude ∧ d.magnitude < 10 ^ d.scientific := by
  have hne : d.coeff.natAbs ≠ 0 := Int.natAbs_ne_zero.mpr h
  have hpos : (0 : ℚ) < 10 ^ d.scientific := by positivity
  constructor
  · have hlow : (10 : ℚ) ^ (Nat.digits 10 d.coeff.natAbs).length ≤ 10 * d.coeff.natAbs := by
      exact_mod_cast Nat.base_pow_length_digits_le 10 d.coeff.natAbs (by decide) hne
    have hfraction := fraction_reverse_digits d.coeff.natAbs
    have htenth : 1 / 10 ≤ fraction d.digits := by
      have hlen : (0 : ℚ) < 10 ^ (Nat.digits 10 d.coeff.natAbs).length := by positivity
      rw [← hfraction] at hlow
      have hle : 1 * (10 : ℚ) ^ (Nat.digits 10 d.coeff.natAbs).length ≤
          10 * fraction d.digits * 10 ^ (Nat.digits 10 d.coeff.natAbs).length := by
        rw [one_mul, mul_assoc]
        exact hlow
      have hone := le_of_mul_le_mul_right hle hlen
      linarith
    calc (10 : ℚ) ^ (d.scientific - 1) = 1 / 10 * 10 ^ d.scientific := by
          rw [zpow_sub₀ (by norm_num), zpow_one]
          ring
      _ ≤ d.magnitude := mul_le_mul_of_nonneg_right htenth hpos.le
  · calc d.magnitude < 1 * 10 ^ d.scientific :=
          mul_lt_mul_of_pos_right (fraction_bounds fun _ hc => digit_lt hc).2 hpos
      _ = 10 ^ d.scientific := one_mul _

theorem value_of_nonneg (h : 0 ≤ d.coeff) : d.value = d.magnitude := by
  rw [magnitude_eq, value, ← Int.cast_natCast d.coeff.natAbs, Int.natAbs_of_nonneg h]

theorem value_of_neg (h : d.coeff < 0) : d.value = -d.magnitude := by
  have habs : (d.coeff.natAbs : Int) = -d.coeff := by omega
  rw [magnitude_eq, value, ← Int.cast_natCast d.coeff.natAbs, habs]
  push_cast
  ring

end Dec

namespace Encoding

theorem apart_digits (hc : ∀ c ∈ cs, c < 10) (hd : ∀ d ∈ ds, d < 10) :
    Apart (cs.map (fun c => Fin.ofNat 256 (c + 1)) ++ [decTerminator])
      (ds.map (fun c => Fin.ofNat 256 (c + 1)) ++ [decTerminator]) := by
  have hbyte : ∀ {c : Nat}, c < 10 → decTerminator ≠ Fin.ofNat 256 (c + 1) := by
    intro c hlt heq
    have hval : 0 = (c + 1) % 256 := congrArg Fin.val heq
    omega
  induction cs generalizing ds with
  | nil =>
    cases ds with
    | nil => exact refl _
    | cons d ds => exact of_head_ne _ _ (hbyte (hd d mem_cons_self))
  | cons c cs ih =>
    cases ds with
    | nil => exact (of_head_ne _ _ (hbyte (hc c mem_cons_self))).symm
    | cons d ds =>
      have hrest :=
        ih (fun x hx => hc x (mem_cons_of_mem c hx)) (fun x hx => hd x (mem_cons_of_mem d hx))
      rw [map_cons, map_cons, cons_append, cons_append]
      by_cases heq : Fin.ofNat 256 (c + 1) = Fin.ofNat 256 (d + 1)
      · rw [heq]
        exact hrest.cons _
      · exact of_head_ne _ _ heq

theorem apart_decimalBody (a b : Dec) :
    Apart (decimalBody a.scientific a.digits) (decimalBody b.scientific b.digits) :=
  (apart_encodeInt64 _ _).append fun _ =>
    apart_digits (fun _ h => Dec.digit_lt h) (fun _ h => Dec.digit_lt h)

theorem apart_encodeDecimal (a b : Dec) : Apart (encodeDecimal a) (encodeDecimal b) := by
  have hbody := apart_decimalBody a b
  have hsign : decMarkerNeg ≠ decMarkerZero ∧ decMarkerPos ≠ decMarkerZero ∧
      decMarkerNeg ≠ decMarkerPos := by
    decide
  unfold encodeDecimal
  by_cases ha : a.coeff = 0 <;> by_cases hb : b.coeff = 0 <;> by_cases hna : a.coeff < 0 <;>
    by_cases hnb : b.coeff < 0 <;> simp only [ha, hb, hna, hnb, if_true, if_false]
  all_goals first
    | exact refl _
    | exact hbody.cons _
    | exact (hbody.map Fin.rev_injective).cons _
    | exact of_head_ne _ _ hsign.1
    | exact of_head_ne _ _ hsign.2.1
    | exact of_head_ne _ _ hsign.2.2
    | exact of_head_ne _ _ hsign.1.symm
    | exact of_head_ne _ _ hsign.2.1.symm
    | exact of_head_ne _ _ hsign.2.2.symm

theorem decimalBody_lt (ha : a.coeff ≠ 0) (hb : b.coeff ≠ 0) (hfa : a.Fits) (hfb : b.Fits)
    (h : a.magnitude < b.magnitude) :
    decimalBody a.scientific a.digits < decimalBody b.scientific b.digits := by
  have hexp : ∀ {d : Dec}, d.Fits → (Int64.ofInt d.scientific).toInt = d.scientific := by
    intro d hfits
    obtain ⟨hlo, hhi⟩ := hfits
    exact Int64.toInt_ofInt_of_le (by omega) (by omega)
  unfold decimalBody
  rw [append_lt_append_iff (apart_encodeInt64 _ _), encodeInt64_lt_iff, hexp hfa, hexp hfb]
  rcases lt_trichotomy a.scientific b.scientific with hlt | heq | hlt
  · exact .inl hlt
  · right
    refine ⟨by rw [heq], digits_lt_of_fraction_lt (fun _ hc => Dec.digit_lt hc)
      (fun _ hc => Dec.digit_lt hc) ?_⟩
    unfold Dec.magnitude at h
    rw [heq] at h
    exact lt_of_mul_lt_mul_right h (by positivity)
  · have hlow := (Dec.magnitude_bounds ha).1
    have hhigh := (Dec.magnitude_bounds hb).2
    have hstep : (10 : ℚ) ^ b.scientific ≤ 10 ^ (a.scientific - 1) :=
      zpow_le_zpow_right₀ (by norm_num) (by omega)
    linarith

theorem encodeDecimal_lt (hfa : a.Fits) (hfb : b.Fits) (h : a.value < b.value) :
    encodeDecimal a < encodeDecimal b := by
  have hmag : ∀ d : Dec, d.coeff ≠ 0 → 0 < d.magnitude := by
    intro d hd
    exact lt_of_lt_of_le (by positivity) (Dec.magnitude_bounds hd).1
  have hzero : ∀ {d : Dec}, d.coeff = 0 → d.value = 0 := by
    intro d hd
    rw [Dec.value, hd, Int.cast_zero, zero_mul]
  unfold encodeDecimal
  by_cases ha : a.coeff = 0
  · rw [if_pos ha]
    rw [hzero ha] at h
    have hb : b.coeff ≠ 0 := fun hb => absurd (hzero hb ▸ h) (lt_irrefl _)
    rw [if_neg hb]
    split
    · rename_i hneg
      rw [Dec.value_of_neg hneg] at h
      linarith [hmag b hb]
    · exact List.Lex.rel (by decide)
  · rw [if_neg ha]
    by_cases hb : b.coeff = 0
    · rw [hzero hb] at h
      split
      · exact List.Lex.rel (by decide)
      rename_i hpos
      rw [Dec.value_of_nonneg (not_lt.mp hpos)] at h
      linarith [hmag a ha]
    · split
      · rename_i hna
        split
        · rename_i hnb
          rw [Dec.value_of_neg hna, Dec.value_of_neg hnb] at h
          exact List.Lex.cons (map_lt_map_of_strictAnti Fin.rev_strictAnti (apart_decimalBody b a)
            (decimalBody_lt hb ha hfb hfa (neg_lt_neg_iff.mp h)))
        · exact List.Lex.rel (by decide)
      · rename_i hna
        split
        · rename_i hnb
          rw [Dec.value_of_nonneg (not_lt.mp hna), Dec.value_of_neg hnb] at h
          linarith [hmag a ha, hmag b hb]
        · rename_i hnb
          rw [Dec.value_of_nonneg (not_lt.mp hna), Dec.value_of_nonneg (not_lt.mp hnb)] at h
          exact List.Lex.cons (decimalBody_lt ha hb hfa hfb h)

theorem encodeDecimal_lt_iff (ha : a.Canonical ∧ a.Fits) (hb : b.Canonical ∧ b.Fits) :
    encodeDecimal a < encodeDecimal b ↔ a.value < b.value := by
  refine ⟨fun h => ?_, encodeDecimal_lt ha.2 hb.2⟩
  rcases lt_trichotomy a.value b.value with hlt | heq | hlt
  · exact hlt
  · rw [Dec.eq_of_value_eq ha.1 hb.1 heq] at h
    exact absurd h (lt_irrefl _)
  · exact absurd (h.trans (encodeDecimal_lt hb.2 ha.2 hlt)) (lt_irrefl _)

end Encoding

end Datax
