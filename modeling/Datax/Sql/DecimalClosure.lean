import Datax.Sql.KeyDecode

/-!
# The decimals that arithmetic produces

Every operation ends in canonical form with a 32-bit exponent, which it lets wrap. `Parse` and the
reader of keys bound the exponent, each in its own form of the number; the operations do not.
-/

namespace Datax

open List Encoding

namespace Dec

/-- The exponent as the 32 bits that hold it. -/
def wrap (d : Dec) : Dec := ⟨d.coeff, int32 d.exp⟩

def canon32 (c exp : Int) : Dec := (canon c exp).wrap

def parse32 (s : List Char) : Option Dec := (parse s).map wrap

def add (a b : Dec) : Dec := canon32 ((align a b).1 + (align a b).2) (min a.exp b.exp)

def sub (a b : Dec) : Dec := canon32 ((align a b).1 - (align a b).2) (min a.exp b.exp)

def neg (a : Dec) : Dec := ⟨-a.coeff, a.exp⟩

def mul (a b : Dec) : Dec := canon32 (a.coeff * b.coeff) (int32 (a.exp + b.exp))

def quoHalfEven (num den : Nat) : Nat :=
  let q := num / den
  let r := num % den
  if den < 2 * r ∨ 2 * r = den ∧ q % 2 = 1 then q + 1 else q

def divQuantize (a b : Dec) (scale : Int32) : Option Dec :=
  let k := a.exp - b.exp + scale.toInt
  if b.coeff = 0 then none
  else if 4 * maxExp < k ∨ 4 * maxExp < -k then none
  else
    let q : Int := quoHalfEven (a.coeff.natAbs * 10 ^ k.toNat) (b.coeff.natAbs * 10 ^ (-k).toNat)
    some (canon32 (if a.coeff.sign * b.coeff.sign < 0 then -q else q) (-scale).toInt)

/-- The coefficient at the scale, the digits beyond it and their unit. -/
def rescale (a : Dec) (scale : Int32) : Int × Int × Int :=
  if (-scale).toInt < a.exp then (a.coeff * 10 ^ (a.exp - (-scale).toInt).toNat, 0, 1)
  else
    let unit := 10 ^ ((-scale).toInt - a.exp).toNat
    (a.coeff.tdiv unit, a.coeff.tmod unit, unit)

def truncate (a : Dec) (scale : Int32) : Dec := canon32 (rescale a scale).1 (-scale).toInt

def roundHalfAway (a : Dec) (scale : Int32) : Dec :=
  let (q, rem, unit) := rescale a scale
  let q := if rem ≠ 0 ∧ unit ≤ 2 * rem.natAbs then (if rem < 0 then q - 1 else q + 1) else q
  canon32 q (-scale).toInt

/-- The plain form of the digits. The negated exponent wraps at the least one, and the cut then lies
before the digits: the slice panics. -/
def plain32 (digits : List Char) (exp : Int) : Option (List Char) :=
  if 0 ≤ exp then some (digits ++ replicate exp.toNat '0')
  else if int32 (-exp) < digits.length then
    let split := digits.length + exp
    if split < 0 then none else some (digits.take split.toNat ++ '.' :: digits.drop split.toNat)
  else some ('0' :: '.' :: (replicate ((int32 (-exp)).toNat - digits.length) '0' ++ digits))

def string (d : Dec) : Option (List Char) :=
  if d.coeff = 0 then some ['0']
  else (plain32 (Nat.toDigits 10 d.coeff.natAbs) d.exp).map
    ((if d.coeff < 0 then ['-'] else []) ++ ·)

/-- The decimals that literals and operations give, in any number of steps. -/
inductive Produced : Dec → Prop
  | parse {s : List Char} {d : Dec} (h : parse32 s = some d) : Produced d
  | add {a b : Dec} (ha : Produced a) (hb : Produced b) : Produced (add a b)
  | sub {a b : Dec} (ha : Produced a) (hb : Produced b) : Produced (sub a b)
  | mul {a b : Dec} (ha : Produced a) (hb : Produced b) : Produced (mul a b)
  | neg {a : Dec} (ha : Produced a) : Produced (neg a)
  | divQuantize {a b d : Dec} {scale : Int32} (ha : Produced a) (hb : Produced b)
      (h : divQuantize a b scale = some d) : Produced d
  | truncate {a : Dec} (ha : Produced a) (scale : Int32) : Produced (truncate a scale)
  | roundHalfAway {a : Dec} (ha : Produced a) (scale : Int32) : Produced (roundHalfAway a scale)

end Dec

def decodeDecimal32 (b : Key) : Option (Key × Dec) := (decodeDecimal b).map fun p => (p.1, p.2.wrap)

namespace Dec

variable {d : Dec}

/-- Canonical, with an exponent of 32 bits. -/
structure Held (d : Dec) : Prop where
  canonical : d.Canonical
  lower : -2 ^ 31 ≤ d.exp
  upper : d.exp < 2 ^ 31

theorem Held.wrap_eq (h : d.Held) : d.wrap = d := by
  rw [wrap, int32_eq_self h.lower h.upper]

theorem held_wrap (h : d.Canonical) : d.wrap.Held := by
  refine ⟨?_, (int32_bounds d.exp).1, (int32_bounds d.exp).2⟩
  rcases h with ⟨hcoeff, hexp⟩ | hdvd
  · exact .inl ⟨hcoeff, by rw [wrap, hexp]; rfl⟩
  · exact .inr hdvd

theorem held_canon32 (c exp : Int) : (canon32 c exp).Held := held_wrap (canon_spec c exp).1

theorem Held.neg (h : d.Held) : (neg d).Held := by
  refine ⟨?_, h.lower, h.upper⟩
  rcases h.canonical with ⟨hcoeff, hexp⟩ | hdvd
  · exact .inl ⟨neg_eq_zero.mpr hcoeff, hexp⟩
  · exact .inr fun hneg => hdvd (Int.dvd_neg.mp hneg)

theorem held_divQuantize {a b : Dec} {scale : Int32} (h : divQuantize a b scale = some d) :
    d.Held := by
  unfold divQuantize at h
  dsimp only at h
  split_ifs at h <;> cases h
  all_goals exact held_canon32 ..

theorem Produced.held (h : Produced d) : d.Held := by
  -- only the negation looks at what it is given
  induction h with
  | parse h =>
    obtain ⟨d, hd, rfl⟩ := Option.map_eq_some_iff.mp h
    exact held_wrap (canonical_parse hd)
  | add | sub | mul | truncate | roundHalfAway => exact held_canon32 ..
  | neg ha ih => exact ih.neg
  | divQuantize ha hb h => exact held_divQuantize h

theorem plain32_eq {digits : List Char} {exp : Int} (hlower : -2 ^ 31 < exp)
    (hupper : exp < 2 ^ 31) :
    plain32 digits exp = some (plain digits exp) := by
  unfold plain32 plain
  by_cases hexp : 0 ≤ exp
  · rw [if_pos hexp, if_pos hexp]
  rw [if_neg hexp, if_neg hexp, int32_eq_self (by omega) (by omega)]
  dsimp only
  by_cases hlen : (-exp).toNat < digits.length
  · rw [if_pos (by omega), if_neg (by omega), if_pos hlen]
    rw [show (digits.length + exp).toNat = digits.length - (-exp).toNat by omega]
  · rw [if_neg (by omega), if_neg hlen]

theorem string_eq (hlower : -2 ^ 31 < d.exp) (hupper : d.exp < 2 ^ 31) :
    d.string = some d.text := by
  rw [string, text, plain32_eq hlower hupper]
  split_ifs <;> rfl

theorem parse_beyond {digits : List Char} {n : Nat} (negative : Prop) [Decidable negative]
    (hne : digits ≠ []) (hdigits : ∀ c ∈ digits, c.isDigit = true)
    (hplaces : maxExp < (digits.drop n).length) :
    parse ((if negative then ['-'] else []) ++ (digits.take n ++ '.' :: digits.drop n)) = none := by
  have hall := take_append_drop n digits
  let m : Mantissa := ⟨if negative then some true else none, digits.take n, some (digits.drop n),
    by simpa only [Option.getD_some, hall] using ⟨hne, hdigits⟩⟩
  have htext : m.text =
      (if negative then ['-'] else []) ++ (digits.take n ++ '.' :: digits.drop n) := by
    simp only [m, Mantissa.text, Mantissa.unsigned, Option.elim_some]
    split_ifs <;> rfl
  have hfar : ¬ (⟨m, [], 0, .absent⟩ : Literal).Readable := by
    simp only [Literal.Readable, Literal.scale, m, Mantissa.places, Option.getD_some, ExpInRange]
    omega
  have hparse := Literal.parse_text ⟨m, [], 0, .absent⟩ (Literal.trimSpace_text _)
  rw [if_neg hfar] at hparse
  rwa [Literal.text, append_nil, htext] at hparse

/-- At the least exponent what is printed, if anything is, has more places than `Parse` reads. -/
theorem parse_least (h : d.Held) (hexp : d.exp = -2 ^ 31) {s : List Char} (hs : d.string = some s) :
    parse s = none := by
  have hcoeff : d.coeff ≠ 0 := by
    intro hzero
    rcases h.canonical with ⟨_, hexp'⟩ | hdvd
    · omega
    · exact hdvd (hzero ▸ dvd_zero 10)
  have hdigits : ∀ c ∈ Nat.toDigits 10 d.coeff.natAbs, c.isDigit = true :=
    fun c => Nat.isDigit_of_mem_toDigits (by decide) (by decide)
  have hwrap : int32 (-(-2 ^ 31)) = -2 ^ 31 := by decide
  rw [string, if_neg hcoeff, hexp] at hs
  obtain ⟨t, ht, rfl⟩ := Option.map_eq_some_iff.mp hs
  rw [plain32, if_neg (by decide), hwrap, if_pos (by omega)] at ht
  dsimp only at ht
  split_ifs at ht with hsplit
  cases ht
  apply parse_beyond (d.coeff < 0) Nat.toDigits_ne_nil hdigits
  rw [length_drop, maxExp]
  omega

theorem parse32_string (h : d.Held) :
    d.string.bind parse32 = if -maxExp ≤ d.exp then some d else none := by
  by_cases hexp : d.exp = -2 ^ 31
  · rw [if_neg (by rw [hexp, maxExp]; omega), Option.bind_eq_none_iff]
    intro s hs
    rw [parse32, parse_least h hexp hs, Option.map_none]
  · have hlower := h.lower
    rw [string_eq (by omega) h.upper, Option.bind_some, parse32, parse_text h.canonical]
    split_ifs
    · rw [Option.map_some, h.wrap_eq]
    · rfl

theorem decodeDecimal32_encodeDecimal (h : d.Held) (hfits : d.Fits) (rest : Key) :
    decodeDecimal32 (encodeDecimal d ++ rest) =
      if ExpInRange d.exp then some (rest, d) else none := by
  rw [decodeDecimal32, decodeDecimal_encodeDecimal h.canonical hfits]
  split_ifs
  · rw [Option.map_some, h.wrap_eq]
  · rfl

/-- A decimal that arithmetic produces is read back from its text and from its key, whatever follows
it there, exactly when its exponent is in the range of the readers. -/
theorem produced_readable_iff (h : Produced d) (hfits : d.Fits) (rest : Key) :
    (d.string.bind parse32 = some d ∧ decodeDecimal32 (encodeDecimal d ++ rest) = some (rest, d)) ↔
      ExpInRange d.exp := by
  rw [parse32_string h.held, decodeDecimal32_encodeDecimal h.held hfits]
  constructor
  · rintro ⟨_, hkey⟩
    by_contra hrange
    rw [if_neg hrange] at hkey
    cases hkey
  · intro hrange
    rw [if_pos hrange.1, if_pos hrange]
    exact ⟨rfl, rfl⟩

/-- A product of two literals at the edge of the range. -/
theorem product_readable : Produced ⟨1, -2000⟩ ∧
    (Dec.string ⟨1, -2000⟩).bind parse32 = some ⟨1, -2000⟩ ∧
      decodeDecimal32 (encodeDecimal ⟨1, -2000⟩) = some ([], ⟨1, -2000⟩) := by
  have hone : Produced ⟨1, -1000⟩ := .parse (s := "1e-1000".toList) (by decide)
  have hprod : Produced ⟨1, -2000⟩ := .mul hone hone
  have hread := (produced_readable_iff hprod (by decide) []).mpr (by decide)
  rw [append_nil] at hread
  exact ⟨hprod, hread⟩

/-- `10e2000` is accepted and its key is not read; the product of two literals in range has a text
that is not read. -/
theorem results_unreadable :
    (Produced ⟨1, 2001⟩ ∧ decodeDecimal32 (encodeDecimal ⟨1, 2001⟩) = none) ∧
      Produced ⟨1, -4000⟩ ∧ (Dec.string ⟨1, -4000⟩).bind parse32 = none := by
  have hlit : Produced ⟨1, 2001⟩ := .parse (s := "10e2000".toList) (by decide)
  have hone : Produced ⟨1, -2000⟩ := .parse (s := "1e-2000".toList) (by decide)
  have hprod : Produced ⟨1, -4000⟩ := .mul hone hone
  refine ⟨⟨hlit, by decide⟩, hprod, ?_⟩
  rw [parse32_string hprod.held]
  rfl

end Dec

end Datax
