import Datax.Shared.Wrap
import Datax.Util.Decimal
import Mathlib.Data.List.DropRight
import Mathlib.Tactic.FinCases
import Mathlib.Tactic.NormNum
import Mathlib.Tactic.Ring

/-!
# The text of a decimal

`Parse` cuts a literal at its first `e` and leaves the exponent to `Sscanf`, which skips
white space before a number and does not look at what follows it: that is all `Parse` accepts
beyond the grammar. It bounds the exponent it reads, as the reader of keys does, and no
operation bounds what it returns.
-/

namespace Datax

open List Dec

def maxExp : Int := 2000

namespace Dec

/-- Trailing zeros of the coefficient moved into the exponent, `fuel` of them at most. -/
def strip : Nat → Int → Int → Dec
  | 0, c, exp => ⟨c, exp⟩
  | fuel + 1, c, exp => if c.tmod 10 = 0 then strip fuel (c.tdiv 10) (exp + 1) else ⟨c, exp⟩

def canon (c exp : Int) : Dec := if c = 0 then ⟨0, 0⟩ else strip c.natAbs c exp

def fromInt (i : Int64) : Dec := canon i.toInt 0

end Dec

/-- `unicode.IsSpace`. -/
def isSpace (c : Char) : Bool :=
  decide (9 ≤ c.toNat ∧ c.toNat ≤ 13 ∨ 0x2000 ≤ c.toNat ∧ c.toNat ≤ 0x200a) ||
    [0x20, 0x85, 0xa0, 0x1680, 0x2028, 0x2029, 0x202f, 0x205f, 0x3000].contains c.toNat

def trimSpace (s : List Char) : List Char := (s.dropWhile isSpace).rdropWhile isSpace

def splitSign : List Char → Bool × List Char
  | '-' :: s => (true, s)
  | '+' :: s => (false, s)
  | s => (false, s)

def signed (neg : Bool) (digits : List Char) : Int :=
  if neg then -(Nat.ofDigitChars 10 digits 0) else Nat.ofDigitChars 10 digits 0

/-- White space before a number; a newline there is an error. -/
def skipSpace : List Char → Option (List Char)
  | [] => some []
  | c :: s => if c = '\n' then none else if isSpace c then skipSpace s else some (c :: s)

/-- `fmt.Sscanf` with `%d` and a 64-bit variable: what follows the digits is not read. -/
def sscanfInt (s : List Char) : Option Int := do
  let s ← skipSpace s
  let digits := (splitSign s).2.takeWhile Char.isDigit
  let n := signed (splitSign s).1 digits
  if digits = [] ∨ ¬ Fits n then none else some n

def isExp (c : Char) : Bool := c == 'e' || c == 'E'

def scanExponent : List Char → Option Int
  | [] => some 0
  | _ :: s => sscanfInt s

def ExpInRange (exp : Int) : Prop := -maxExp ≤ exp ∧ exp ≤ maxExp
deriving Decidable

namespace Dec

def parse (s : List Char) : Option Dec := do
  let t := trimSpace s
  let exp ← scanExponent (t.dropWhile (!isExp ·))
  let neg := (splitSign (t.takeWhile (!isExp ·))).1
  let mant := (splitSign (t.takeWhile (!isExp ·))).2
  let intPart := mant.takeWhile (· != '.')
  let fracPart := (mant.dropWhile (· != '.')).tail
  let digits := intPart ++ fracPart
  if digits = [] ∨ ¬ digits.all Char.isDigit then none
  else if ¬ ExpInRange (exp - fracPart.length) then none
  else some (canon (signed neg digits) (exp - fracPart.length))

/-- The digits as a plain number, never in scientific form. -/
def plain (digits : List Char) (exp : Int) : List Char :=
  if 0 ≤ exp then digits ++ replicate exp.toNat '0'
  else
    let places := (-exp).toNat
    if places < digits.length then digits.take (digits.length - places) ++ '.' ::
      digits.drop (digits.length - places)
    else '0' :: '.' :: (replicate (places - digits.length) '0' ++ digits)

/-- `String`. -/
def text (d : Dec) : List Char :=
  if d.coeff = 0 then ['0']
  else (if d.coeff < 0 then ['-'] else []) ++ plain (Nat.toDigits 10 d.coeff.natAbs) d.exp

end Dec

/-! ### Literals -/

/-- Nothing, or a text from an exponent on. -/
def Tail (ex : List Char) : Prop := ∀ c ∈ ex.head?, isExp c = true

def signText : Option Bool → List Char
  | none => []
  | some neg => [if neg then '-' else '+']

/-- Digits with at most one point among them, after an optional sign. -/
structure Mantissa where
  sign : Option Bool
  int : List Char
  frac : Option (List Char)
  written : int ++ frac.getD [] ≠ [] ∧ ∀ c ∈ int ++ frac.getD [], c.isDigit = true

namespace Mantissa

def unsigned (m : Mantissa) : List Char := m.int ++ m.frac.elim [] ('.' :: ·)

def text (m : Mantissa) : List Char := signText m.sign ++ m.unsigned

def coeff (m : Mantissa) : Int := signed (m.sign.getD false) (m.int ++ m.frac.getD [])

def places (m : Mantissa) : Int := (m.frac.getD []).length

end Mantissa

inductive Exponent : List Char → Int → Prop
  | absent : Exponent [] 0
  | given {c : Char} (hc : isExp c = true) (sign : Option Bool) {ds : List Char} (hne : ds ≠ [])
      (hds : ∀ d ∈ ds, d.isDigit = true) :
        Exponent (c :: (signText sign ++ ds)) (signed (sign.getD false) ds)

structure Literal where
  mantissa : Mantissa
  exponent : List Char
  exp : Int
  denotes : Exponent exponent exp

namespace Literal

def text (l : Literal) : List Char := l.mantissa.text ++ l.exponent

/-- The power of ten of the last digit. -/
def scale (l : Literal) : Int := l.exp - l.mantissa.places

def value (l : Literal) : ℚ := l.mantissa.coeff * 10 ^ l.scale

def Readable (l : Literal) : Prop := Fits l.exp ∧ ExpInRange l.scale
deriving Decidable

end Literal

theorem splitSign_signText (sign : Option Bool) {s : List Char}
    (h : ∀ c ∈ s, c.isDigit = true ∨ c = '.') :
    splitSign (signText sign ++ s) = (sign.getD false, s) := by
  rcases sign with - | - | -
  · cases s with
    | nil => rfl
    | cons c s =>
      have hc := h c mem_cons_self
      change splitSign (c :: s) = (false, c :: s)
      unfold splitSign
      split <;> simp_all [Char.isDigit]
  · rfl
  · rfl

theorem exists_sign (s : List Char) : ∃ sign, s = signText sign ++ (splitSign s).2 := by
  unfold splitSign
  split
  exacts [⟨some true, rfl⟩, ⟨some false, rfl⟩, ⟨none, rfl⟩]

theorem isDigit_bounds {c : Char} (h : c.isDigit = true) : 48 ≤ c.toNat ∧ c.toNat ≤ 57 := by
  rw [Char.isDigit, Bool.and_eq_true, decide_eq_true_eq, decide_eq_true_eq] at h
  exact h

theorem not_isSpace {c : Char} (h : c.isDigit = true ∨ c ∈ ['-', '+', '.', 'e', 'E']) :
    isSpace c = false := by
  rcases h with h | h
  · have hb := isDigit_bounds h
    simp [isSpace]
    omega
  · fin_cases h <;> rfl

theorem mem_signText {sign : Option Bool} {c : Char} (h : c ∈ signText sign) : c ∈ ['-', '+'] := by
  rcases sign with - | - | - <;> simp_all [signText]

namespace Mantissa

variable {m m' : Mantissa} {ex ex' : List Char}

theorem mem_unsigned {c : Char} (h : c ∈ m.unsigned) : c.isDigit = true ∨ c = '.' := by
  have hd := m.written.2 c
  rcases mem_append.1 h with h | h
  · exact .inl (hd (mem_append_left _ h))
  · cases hf : m.frac with
    | none => simp [hf] at h
    | some frac =>
      rw [hf] at h hd
      exact (mem_cons.1 h).symm.imp_left fun h => hd (mem_append_right _ h)

theorem mem_text {c : Char} (h : c ∈ m.text) : c.isDigit = true ∨ c ∈ ['-', '+', '.'] := by
  rcases mem_append.1 h with h | h
  · exact .inr (mem_append_left ['.'] (mem_signText h))
  · exact (mem_unsigned h).imp_right fun h => by simp [h]

theorem not_isExp {c : Char} (h : c ∈ m.text) : (!isExp c) = true := by
  rcases mem_text h with h | h
  · simp [isExp]
    constructor <;> rintro rfl <;> cases h
  · fin_cases h <;> rfl

theorem cut_text (hex : Tail ex) :
    (m.text ++ ex).takeWhile (!isExp ·) = m.text ∧ (m.text ++ ex).dropWhile (!isExp ·) = ex := by
  rw [takeWhile_append_of_pos fun _ => not_isExp, dropWhile_append_of_pos fun _ => not_isExp]
  cases ex with
  | nil => simp
  | cons c ex => simp [hex c rfl]

theorem cut_unsigned (m : Mantissa) :
    m.unsigned.takeWhile (· != '.') = m.int ∧
      (m.unsigned.dropWhile (· != '.')).tail = m.frac.getD [] := by
  have hint : ∀ c ∈ m.int, (c != '.') = true := by
    intro c hc
    have hd := m.written.2 c (mem_append_left _ hc)
    rw [bne_iff_ne]
    rintro rfl
    cases hd
  rw [unsigned, takeWhile_append_of_pos hint, dropWhile_append_of_pos hint]
  cases m.frac <;> simp

theorem splitSign_text (m : Mantissa) : splitSign m.text = (m.sign.getD false, m.unsigned) :=
  splitSign_signText m.sign fun _ => mem_unsigned

theorem parse_eq {s : List Char} (hex : Tail ex) (hs : trimSpace s = m.text ++ ex) :
    parse s = (scanExponent ex).bind fun e =>
      if ExpInRange (e - m.places) then some (canon m.coeff (e - m.places)) else none := by
  have hdigits : (m.int ++ m.frac.getD []).all Char.isDigit = true := all_eq_true.2 m.written.2
  simp only [parse, hs, cut_text hex, splitSign_text, cut_unsigned, m.written.1, hdigits, not_true,
    or_self, if_false, ite_not]
  rfl

theorem exists_of_parse {s : List Char} {d : Dec} (h : parse s = some d) :
    ∃ (m : Mantissa) (ex : List Char) (e : Int), trimSpace s = m.text ++ ex ∧ Tail ex ∧
      scanExponent ex = some e ∧ ExpInRange (e - m.places) ∧ d = canon m.coeff (e - m.places) := by
  have hparse := h
  obtain ⟨_, -, h⟩ := Option.bind_eq_some_iff.1 h
  obtain ⟨sign, hsign⟩ := exists_sign ((trimSpace s).takeWhile (!isExp ·))
  set mant := (splitSign ((trimSpace s).takeWhile (!isExp ·))).2
  dsimp only at h
  split_ifs at h with hdigits
  rw [not_or, not_not, all_eq_true] at hdigits
  obtain ⟨frac, hfrac, htail⟩ :
    ∃ frac : Option (List Char), mant.dropWhile (· != '.') = frac.elim [] ('.' :: ·) ∧
      (mant.dropWhile (· != '.')).tail = frac.getD [] := by
    cases hd : mant.dropWhile (· != '.') with
    | nil => exact ⟨none, rfl, rfl⟩
    | cons c cs =>
      have hc := head?_dropWhile_not (· != '.') mant
      rw [hd] at hc
      exact ⟨some cs, by simpa using hc, rfl⟩
  rw [htail] at hdigits
  set m : Mantissa := ⟨sign, _, frac, hdigits⟩
  have hs : trimSpace s = m.text ++ (trimSpace s).dropWhile (!isExp ·) := by
    rw [text, unsigned, ← hfrac, takeWhile_append_dropWhile, ← hsign, takeWhile_append_dropWhile]
  have hex : Tail ((trimSpace s).dropWhile (!isExp ·)) := by
    intro c hc
    have hhead := head?_dropWhile_not (!isExp ·) (trimSpace s)
    rw [Option.mem_def.1 hc] at hhead
    simpa using hhead
  rw [parse_eq hex hs, Option.bind_eq_some_iff] at hparse
  obtain ⟨e, he, hd⟩ := hparse
  split at hd <;> cases hd
  exact ⟨m, _, e, hs, hex, he, ‹_›, rfl⟩

theorem ex_eq (hex : Tail ex) (hex' : Tail ex') (h : m.text ++ ex = m'.text ++ ex') : ex = ex' := by
  rw [← (cut_text hex).2, h, (cut_text hex').2]

theorem eq_of_text (h : m.text = m'.text) : m.coeff = m'.coeff ∧ m.places = m'.places := by
  obtain ⟨hsign, hunsigned⟩ :=
    Prod.mk.inj ((splitSign_text m).symm.trans ((congrArg splitSign h).trans (splitSign_text m')))
  obtain ⟨hint, hfrac⟩ := cut_unsigned m
  rw [hunsigned, (cut_unsigned m').1] at hint
  rw [hunsigned, (cut_unsigned m').2] at hfrac
  rw [coeff, coeff, places, places, hsign, hint, hfrac]
  exact ⟨rfl, rfl⟩

end Mantissa

theorem skipSpace_eq {s : List Char} (h : ∀ c ∈ s.head?, isSpace c = false) :
    skipSpace s = some s := by
  cases s with
  | nil => rfl
  | cons c s =>
    have hc : c ≠ '\n' := by
      rintro rfl
      cases h _ rfl
    rw [skipSpace, if_neg hc, h c rfl]
    rfl

section
variable {ex : List Char} {e : Int} (h : Exponent ex e)
include h

theorem Exponent.head : Tail ex := by
  cases h with
  | absent => simp [Tail]
  | given hc => simpa [Tail] using hc

theorem Exponent.eq : e = signed (splitSign ex.tail).1 (splitSign ex.tail).2 := by
  cases h with
  | absent => rfl
  | given _ sign _ hds => rw [tail_cons, splitSign_signText sign fun d hd => .inl (hds d hd)]

theorem scanExponent_eq : scanExponent ex = if Fits e then some e else none := by
  cases h with
  | absent => rfl
  | given hc sign hne hds =>
    rename_i ds
    have hskip : skipSpace (signText sign ++ ds) = some (signText sign ++ ds) := by
      refine skipSpace_eq fun c hc => not_isSpace ?_
      rcases mem_append.1 (mem_of_mem_head? hc) with h | h
      · exact .inr (mem_append_left ['.', 'e', 'E'] (mem_signText h))
      · exact .inl (hds c h)
    simp only [scanExponent, sscanfInt, hskip, Option.bind_eq_bind, Option.bind_some,
      splitSign_signText sign fun d hd => .inl (hds d hd), takeWhile_eq_self_iff.2 hds, hne,
      false_or, ite_not]

end

namespace Dec

theorem strip_spec (fuel : Nat) (c exp : Int) (h : c ≠ 0) (hfuel : c.natAbs ≤ fuel) :
    (strip fuel c exp).Canonical ∧ (strip fuel c exp).value = c * 10 ^ exp := by
  induction fuel generalizing c exp with
  | zero => exact absurd (Int.natAbs_eq_zero.1 (Nat.le_zero.1 hfuel)) h
  | succ fuel ih =>
    rw [strip]
    split
    · rename_i hmod
      have hten := Int.tdiv_mul_cancel (Int.dvd_of_tmod_eq_zero hmod)
      obtain ⟨hcanon, hvalue⟩ := ih (c.tdiv 10) (exp + 1) (by omega) (by omega)
      refine ⟨hcanon, hvalue.trans ?_⟩
      rw [zpow_add_one₀ (by norm_num), mul_comm ((10 : ℚ) ^ exp), ← mul_assoc]
      exact_mod_cast congrArg (fun n : Int => (n : ℚ) * 10 ^ exp) hten
    · rename_i hmod
      exact ⟨.inr fun hdvd => hmod (Int.tmod_eq_zero_of_dvd hdvd), rfl⟩

theorem canon_spec (c exp : Int) :
    (canon c exp).Canonical ∧ (canon c exp).value = c * 10 ^ exp := by
  unfold canon
  split
  · rename_i h
    exact ⟨.inl ⟨rfl, rfl⟩, by simp [h, value]⟩
  · rename_i h
    exact strip_spec _ c exp h le_rfl

end Dec

namespace Literal

theorem parse_text (l : Literal) {s : List Char} (hs : trimSpace s = l.text) :
    parse s = if l.Readable then some (canon l.mantissa.coeff l.scale) else none := by
  rw [Mantissa.parse_eq l.denotes.head hs, scanExponent_eq l.denotes]
  by_cases hfits : Fits l.exp
  · rw [if_pos hfits]
    exact if_congr (and_iff_right hfits).symm rfl rfl
  · rw [if_neg hfits, if_neg fun h => hfits h.1]
    rfl

theorem value_eq_of_text {l l' : Literal} (h : l.text = l'.text) : l.value = l'.value := by
  have hex : l.exponent = l'.exponent := Mantissa.ex_eq l.denotes.head l'.denotes.head h
  rw [text, text, hex, append_cancel_right_eq] at h
  obtain ⟨hcoeff, hplaces⟩ := Mantissa.eq_of_text h
  rw [value, value, scale, scale, hcoeff, hplaces, l.denotes.eq, l'.denotes.eq, hex]

theorem mem_text {l : Literal} {c : Char} (h : c ∈ l.text) :
    c.isDigit = true ∨ c ∈ ['-', '+', '.', 'e', 'E'] := by
  obtain ⟨m, ex, e, he⟩ := l
  rcases mem_append.1 h with h | h
  · exact (Mantissa.mem_text h).imp_right (mem_append_left ['e', 'E'])
  · cases he with
    | absent => cases h
    | given hc sign hne hds =>
      rcases mem_cons.1 h with rfl | h
      · rw [isExp, Bool.or_eq_true, beq_iff_eq, beq_iff_eq] at hc
        exact .inr (by rcases hc with rfl | rfl <;> simp)
      · rcases mem_append.1 h with h | h
        · exact .inr (mem_append_left ['.', 'e', 'E'] (mem_signText h))
        · exact .inl (hds _ h)

theorem trimSpace_text (l : Literal) : trimSpace l.text = l.text := by
  have hchar : ∀ c ∈ l.text, ¬ isSpace c = true := fun c hc => by simp [not_isSpace (mem_text hc)]
  rw [trimSpace, dropWhile_eq_self_iff.2 fun h => hchar _ (getElem_mem h),
    rdropWhile_eq_self_iff.2 fun h => hchar _ (getLast_mem h)]

end Literal

theorem canonical_parse {s : List Char} {d : Dec} (h : parse s = some d) : d.Canonical := by
  obtain ⟨m, ex, e, -, -, -, -, rfl⟩ := Mantissa.exists_of_parse h
  exact (canon_spec ..).1

theorem parse_exact_iff (s : List Char) :
    (∀ d, parse s = some d → (∃ l : Literal, trimSpace s = l.text ∧ d.value = l.value) ∧
        ∀ s' d', parse s' = some d' → d'.value = d.value → d' = d) ↔
      ∀ (m : Mantissa) c rest e, trimSpace s = m.text ++ c :: rest → isExp c = true →
        sscanfInt rest = some e →
        ExpInRange (e - m.places) → ∃ e', Exponent (c :: rest) e' := by
  constructor
  · intro h m c rest e hs hc he hrange
    have hex : Tail (c :: rest) := by simpa [Tail] using hc
    have hparse := Mantissa.parse_eq hex hs
    rw [scanExponent, he, Option.bind_some, if_pos hrange] at hparse
    obtain ⟨l, hl, -⟩ := (h _ hparse).1
    exact ⟨l.exp, Mantissa.ex_eq hex l.denotes.head (hs.symm.trans hl) ▸ l.denotes⟩
  · intro h d hd
    refine ⟨?_, fun s' d' hd' hv => eq_of_value_eq (canonical_parse hd') (canonical_parse hd) hv⟩
    obtain ⟨m, ex, e, hs, hex, he, hrange, rfl⟩ := Mantissa.exists_of_parse hd
    obtain ⟨e', he'⟩ : ∃ e', Exponent ex e' := by
      cases ex with
      | nil => exact ⟨0, .absent⟩
      | cons c rest => exact h m c rest e hs (hex c rfl) he hrange
    rw [scanExponent_eq he', Option.ite_none_right_eq_some] at he
    cases he.2
    exact ⟨⟨m, ex, e, he'⟩, hs, (canon_spec ..).2⟩

theorem trailing_text_accepted : parse "1e5xyz".toList = some ⟨1, 5⟩ ∧
    ¬ ∃ l : Literal, trimSpace "1e5xyz".toList = l.text := by
  refine ⟨by decide, ?_⟩
  rintro ⟨l, hl⟩
  have hx : 'x' ∈ l.text := hl ▸ by decide
  exact absurd (Literal.mem_text hx) (by decide)

namespace Dec

theorem plain_spec {ds : List Char} (hne : ds ≠ []) (hds : ∀ c ∈ ds, c.isDigit = true) (exp : Int) :
    ∃ (int : List Char) (frac : Option (List Char)),
      (int ++ frac.getD [] ≠ [] ∧ ∀ c ∈ int ++ frac.getD [], c.isDigit = true) ∧
      int ++ frac.elim [] ('.' :: ·) = plain ds exp ∧ ((frac.getD []).length : Int) = (-exp).toNat ∧
      Nat.ofDigitChars 10 (int ++ frac.getD []) 0 = Nat.ofDigitChars 10 ds 0 * 10 ^ exp.toNat := by
  have hzeros : ∀ n, ∀ c ∈ replicate n '0', c.isDigit = true :=
    fun n c hc => by rw [eq_of_mem_replicate hc]; rfl
  unfold plain
  dsimp only
  split_ifs with hexp hlen
  · refine ⟨ds ++ replicate exp.toNat '0', none, ⟨by simp [hne], ?_⟩, by simp, by simp; omega, ?_⟩
    · simpa only [Option.getD_none, append_nil, forall_mem_append] using ⟨hds, hzeros _⟩
    · simp [Nat.ofDigitChars_append, mul_comm]
  · have hall := take_append_drop (ds.length - (-exp).toNat) ds
    refine ⟨_, some (ds.drop (ds.length - (-exp).toNat)), ?_, rfl, by simp; omega, ?_⟩
    · simpa only [Option.getD_some, hall] using ⟨hne, hds⟩
    · simp [hall, Int.toNat_of_nonpos (not_le.1 hexp).le]
  · refine ⟨['0'], some (replicate ((-exp).toNat - ds.length) '0' ++ ds), ⟨by simp, ?_⟩,
      rfl, by simp; omega, ?_⟩
    · simpa only [Option.getD_some, singleton_append, forall_mem_cons,
        forall_mem_append] using ⟨rfl, hzeros _, hds⟩
    · simp [Nat.ofDigitChars_append, Int.toNat_of_nonpos (not_le.1 hexp).le, Nat.ofDigitChars_cons]

theorem exists_mantissa {d : Dec} (hc : d.Canonical) : ∃ m : Mantissa, m.text = d.text ∧
    m.places = (-d.exp).toNat ∧ m.coeff = d.coeff * 10 ^ d.exp.toNat := by
  by_cases h0 : d.coeff = 0
  · have hexp : d.exp = 0 := hc.elim And.right fun h => absurd (h0 ▸ dvd_zero _) h
    exact ⟨⟨none, ['0'],
      none, by simp⟩, by rw [text, if_pos h0]; rfl, by rw [hexp]; rfl, by rw [h0, zero_mul]; rfl⟩
  obtain ⟨int, frac, hw, htext, hplaces, hcoeff⟩ :=
    plain_spec (Nat.toDigits_ne_nil (b := 10) (n := d.coeff.natAbs))
    (fun c => Nat.isDigit_of_mem_toDigits (by decide) (by decide)) d.exp
  rw [Nat.ofDigitChars_ten_toDigits] at hcoeff
  refine ⟨⟨if d.coeff < 0 then some true else none, int, frac, hw⟩, ?_, hplaces, ?_⟩
  · rw [text, if_neg h0, ← htext]
    split_ifs <;> rfl
  · rcases lt_or_ge d.coeff 0 with hneg | hneg
    · simp [Mantissa.coeff, signed, hcoeff, hneg, abs_of_neg]
    · simp [Mantissa.coeff, signed, hcoeff, hneg.not_gt, hneg]

theorem parse_text {d : Dec} (hc : d.Canonical) :
    parse d.text = if -maxExp ≤ d.exp then some d else none := by
  obtain ⟨m, htext, hplaces, hcoeff⟩ := exists_mantissa hc
  have hl := Literal.parse_text ⟨m, [], 0, .absent⟩ (Literal.trimSpace_text _)
  simp only [Literal.text, Literal.scale, append_nil, htext, hplaces, hcoeff] at hl
  rw [hl]
  have hsame : canon (d.coeff * 10 ^ d.exp.toNat) (0 - (-d.exp).toNat) = d := by
    obtain ⟨hcanon, hvalue⟩ := canon_spec (d.coeff * 10 ^ d.exp.toNat) (0 - (-d.exp).toNat)
    refine eq_of_value_eq hcanon hc (hvalue.trans ?_)
    push_cast
    rw [mul_assoc, ← zpow_natCast, ← zpow_add₀ (by norm_num), value]
    congr
    omega
  rw [hsame]
  refine if_congr ?_ rfl rfl
  simp only [Literal.Readable, Literal.scale, hplaces, Datax.Fits, ExpInRange, maxExp]
  omega

end Dec

end Datax
