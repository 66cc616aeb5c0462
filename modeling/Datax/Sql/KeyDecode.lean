import Datax.Sql.Rowenc

/-!
# Reading a key back

The datum at the front of a key, and what follows it. A key gives back the value it was made from,
unless that is a decimal whose exponent is out of the reader's range.
-/

namespace Datax

open List PrefixCode Encoding Scalar

def decodeInt64 (b : Key) : Option (Key × Int64) :=
  if b.length < 8 then none
  else some (b.drop 8, (UInt64.ofNat (decodeUint64 (b.take 8)) ^^^ ((1 : UInt64) <<< 63)).toInt64)

def decodeBytes : Key → Option (Key × List Byte)
  | [] => none
  | [_] => none
  | b :: c :: rest =>
    if b ≠ escape then (decodeBytes (c :: rest)).map fun p => (p.1, b :: p.2)
    else if c = escapedNul then (decodeBytes rest).map fun p => (p.1, escape :: p.2)
    else if c = terminator then some (rest, [])
    else none

def fromMantissa (neg : Bool) (digits : List Nat) (e : Int) : Option Dec :=
  if digits = [] then some ⟨0, 0⟩
  else if maxExp < e - digits.length ∨ e - digits.length < -maxExp then none
  else
    let c : Int := Nat.ofDigits 10 digits.reverse
    some (Dec.canon (if neg then -c else c) (e - digits.length))

def decodeDecimal : Key → Option (Key × Dec)
  | [] => none
  | marker :: b =>
    if marker = decMarkerZero then some (b, ⟨0, 0⟩)
    else if marker ≠ decMarkerNeg ∧ marker ≠ decMarkerPos then none
    else if b.length < 8 then none
    else do
      let flip : Byte → Byte := if marker = decMarkerNeg then Fin.rev else id
      let e : Int := decodeUint64 ((b.take 8).map flip) - 2 ^ 63
      let (digits, rest) ← takeDigits flip (b.drop 8)
      return (rest, ← fromMantissa (marker = decMarkerNeg) digits e)

def decodeKeyDatum (b : Key) : Family → Option (Key × Scalar)
  | .int => (decodeInt64 b).map fun p => (p.1, .int p.2)
  | .timestamp => (decodeInt64 b).map fun p => (p.1, .timestamp p.2)
  | .date => (decodeInt64 b).map fun p => (p.1, .date p.2)
  | .time => (decodeInt64 b).map fun p => (p.1, .time p.2)
  | .enum => do
    let (b, ord) ← decodeInt64 b
    let (b, label) ← decodeBytes b
    return (b, .enum ord label)
  | .interval => do
    let (b, cmp) ← decodeInt64 b
    let (b, months) ← decodeInt64 b
    let (b, days) ← decodeInt64 b
    return (b, .interval ⟨months, days, cmp - (months * 30 + days) * nanosPerDay⟩)
  | .string => (decodeBytes b).map fun p => (p.1, .string p.2)
  | .bytes => (decodeBytes b).map fun p => (p.1, .bytes p.2)
  | .uuid => (decodeBytes b).map fun p => (p.1, .uuid p.2)
  | .bool => b.head?.map fun c => (b.tail, .bool (c != 0))
  | .decimal => do
    let (b, d) ← decodeDecimal b
    -- what a key can hold is canonical and fits
    if h : d.Canonical ∧ d.Fits then return (b, .decimal ⟨d, h⟩) else none
  | .unknown | .jsonb | .array _ => none

def decodeColumns (desc : TableDescriptor) : Key → List ColumnID → Option (List Datum)
  | _, [] => some []
  | b, id :: ids => do
    let col ← desc.colByID id
    let (b, v) ← decodeKeyDatum b col.fam
    return .scalar v :: (← decodeColumns desc b ids)

def decodePK (desc : TableDescriptor) (key : Key) : Option (List Datum) :=
  if (primaryKeyPrefixFor desc).isPrefixOf key then
    decodeColumns desc (key.drop (primaryKeyPrefixFor desc).length) desc.primaryKey
  else none

variable {d : Dec}

section Values
variable {rest : Key}

theorem takeDigits_encode {flip : Byte → Byte} {unflip : Byte → Byte}
    (hflip : ∀ b, flip (unflip b) = b) {cs : List Nat} (hc : ∀ c ∈ cs, c < 10) (rest : Key) :
    takeDigits flip
      ((cs.map (fun c => Fin.ofNat 256 (c + 1)) ++ [decTerminator]).map unflip ++ rest) =
      some (cs, rest) := by
  induction cs with
  | nil =>
    simp only [map_nil, nil_append, map_cons, cons_append, takeDigits, hflip, if_true]
  | cons c cs ih =>
    have hlt := hc c mem_cons_self
    have hval : (Fin.ofNat 256 (c + 1)).val = c + 1 := Nat.mod_eq_of_lt (by omega)
    have hne : Fin.ofNat 256 (c + 1) ≠ decTerminator := by
      intro heq
      have hzero : c + 1 = 0 := hval.symm.trans (congrArg Fin.val heq)
      omega
    rw [map_cons, cons_append, map_cons, cons_append, takeDigits, hflip, if_neg hne,
      if_neg (by rw [hval]; omega), ih fun d hd => hc d (mem_cons_of_mem c hd),
      Option.map_some, hval]
    rfl

theorem decodeUint64_bigEndian (n v start : Nat) :
    (bigEndian n v).foldl (fun n c => n * 256 + c.val) start = start * 256 ^ n + v % 256 ^ n := by
  induction n generalizing start with
  | zero => simp [bigEndian, Nat.mod_one]
  | succ n ih =>
    have hval : (Fin.ofNat 256 (v / 256 ^ n)).val = v / 256 ^ n % 256 := rfl
    rw [bigEndian, foldl_cons, ih, hval, pow_succ, Nat.mod_mul]
    ring

theorem decodeUint64_encodeInt64 (i : Int64) :
    (decodeUint64 (encodeInt64 i) : Int) = i.toInt + 2 ^ 63 := by
  rw [← toNat_flipSign, decodeUint64, encodeInt64, encodeUint64, decodeUint64_bigEndian,
    Nat.zero_mul, Nat.zero_add, Nat.mod_eq_of_lt (show _ < 256 ^ 8 from UInt64.toNat_lt _)]

theorem decimalBody_read (flip unflip : Byte → Byte) (hflip : ∀ b, flip (unflip b) = b)
    (hfits : d.Fits) (rest : Key) {b : Key}
    (hb : b = (decimalBody d.scientific d.digits).map unflip ++ rest) :
    ¬ b.length < 8 ∧ (decodeUint64 ((b.take 8).map flip) : Int) - 2 ^ 63 = d.scientific ∧
      takeDigits flip (b.drop 8) = some (d.digits, rest) := by
  have hlen : ((encodeInt64 (Int64.ofInt d.scientific)).map unflip).length = 8 := by
    rw [length_map, length_encodeInt64]
  have hinv : ((encodeInt64 (Int64.ofInt d.scientific)).map unflip).map flip =
      encodeInt64 (Int64.ofInt d.scientific) := by
    rw [map_map, show flip ∘ unflip = id from funext hflip, map_id]
  rw [decimalBody, map_append, append_assoc] at hb
  subst hb
  refine ⟨by rw [length_append]; omega, ?_, ?_⟩
  · rw [take_left' hlen, hinv, decodeUint64_encodeInt64, Int64.toInt_ofInt_of_le hfits.1 hfits.2]
    ring
  · rw [drop_left' hlen]
    exact takeDigits_encode hflip (fun c hc => Dec.digit_lt (d := d) hc) rest

theorem decodeInt64_encodeInt64 (i : Int64) :
    decodeInt64 (encodeInt64 i ++ rest) = some (rest, i) := by
  have hlen := length_encodeInt64 i
  have hval : UInt64.ofNat (decodeUint64 (encodeInt64 i)) =
      i.toUInt64 ^^^ ((1 : UInt64) <<< 63) := by
    rw [decodeUint64, encodeInt64, encodeUint64, decodeUint64_bigEndian, Nat.zero_mul, Nat.zero_add,
      Nat.mod_eq_of_lt (show _ < 256 ^ 8 from UInt64.toNat_lt _), UInt64.ofNat_toNat]
  rw [decodeInt64, if_neg (by rw [length_append]; omega), drop_left' hlen, take_left' hlen, hval,
    UInt64.xor_assoc, UInt64.xor_self, UInt64.xor_zero]
  rfl

theorem decodeBytes_encodeBytes (s : List Byte) :
    decodeBytes (encodeBytes s ++ rest) = some (rest, s) := by
  induction s with
  | nil => rfl
  | cons c cs ih =>
    rw [encodeBytes]
    split_ifs with hc
    · simp [decodeBytes, ih, hc]
    obtain ⟨b, bs, hbs⟩ : ∃ b bs, encodeBytes cs ++ rest = b :: bs := by
      cases cs with
      | nil => exact ⟨_, _, rfl⟩
      | cons d ds =>
        rw [encodeBytes]
        split <;> exact ⟨_, _, rfl⟩
    rw [cons_append, hbs, decodeBytes, if_pos hc, ← hbs, ih]
    rfl

theorem canon_canonical (hc : d.Canonical) : Dec.canon d.coeff d.exp = d := by
  obtain ⟨c, e⟩ := d
  rcases hc with ⟨rfl, rfl⟩ | hdvd
  · rfl
  have hzero : c ≠ 0 := by
    rintro rfl
    exact hdvd (dvd_zero _)
  obtain ⟨n, hn⟩ := Nat.exists_eq_succ_of_ne_zero (Int.natAbs_ne_zero.mpr hzero)
  rw [Dec.canon, if_neg hzero, hn, Dec.strip, if_neg (fun h => hdvd (Int.dvd_of_tmod_eq_zero h))]

theorem fromMantissa_digits (hc : d.Canonical) (hzero : d.coeff ≠ 0) :
    fromMantissa (decide (d.coeff < 0)) d.digits d.scientific =
      if ExpInRange d.exp then some d else none := by
  have hne : d.digits ≠ [] := by simp [Dec.digits, hzero]
  have hexp : d.scientific - d.digits.length = d.exp := by
    unfold Dec.scientific
    omega
  have hval : Nat.ofDigits (10 : Int) d.digits.reverse = d.coeff.natAbs := by
    rw [Dec.digits, reverse_reverse]
    exact_mod_cast Nat.ofDigits_digits 10 _
  have hcoeff : (if d.coeff < 0 then -(d.coeff.natAbs : Int) else d.coeff.natAbs) =
      d.coeff := by omega
  have hrange : maxExp < d.exp ∨ d.exp < -maxExp ↔ ¬ ExpInRange d.exp := by
    unfold ExpInRange
    omega
  simp only [fromMantissa, hne, hexp, hval, decide_eq_true_eq, hcoeff, canon_canonical hc, if_false,
    hrange, ite_not]

theorem decodeDecimal_encodeDecimal (hc : d.Canonical) (hfits : d.Fits) :
    decodeDecimal (encodeDecimal d ++ rest) =
      if ExpInRange d.exp then some (rest, d) else none := by
  by_cases hzero : d.coeff = 0
  · obtain ⟨c, e⟩ := d
    rcases hc with ⟨rfl, rfl⟩ | hdvd
    · rfl
    exact absurd (hzero ▸ dvd_zero _) hdvd
  have hback := fromMantissa_digits hc hzero
  rw [encodeDecimal, if_neg hzero]
  by_cases hneg : d.coeff < 0
  · obtain ⟨hlen, he, htake⟩ := decimalBody_read Fin.rev Fin.rev Fin.rev_rev hfits rest rfl
    rw [decide_eq_true hneg] at hback
    rw [if_pos hneg, cons_append, decodeDecimal, if_neg (by decide), if_neg (by decide),
      if_neg hlen]
    simp only [if_true, he, htake, Option.bind_eq_bind, Option.bind_some, decide_true, hback]
    split <;> rfl
  · obtain ⟨hlen, he, htake⟩ := decimalBody_read id id (fun _ => rfl) hfits rest rfl
    simp only [map_id] at hlen he htake
    rw [decide_eq_false hneg] at hback
    rw [if_neg hneg, cons_append, decodeDecimal, if_neg (by decide), if_neg (by decide),
      if_neg hlen]
    simp only [if_neg (show ¬ decMarkerPos = decMarkerNeg by decide), map_id, he, htake,
      Option.bind_eq_bind, Option.bind_some,
      decide_eq_false (show ¬ decMarkerPos = decMarkerNeg by decide), hback]
    split <;> rfl

/-- The text of a decimal, which its key is made from, is read. -/
def Scalar.writable : Scalar → Bool
  | .decimal d => decide (-maxExp ≤ d.val.exp)
  | _ => true

/-- The reader of keys takes the exponent of a decimal. -/
def Scalar.readable : Scalar → Bool
  | .decimal d => decide (ExpInRange d.val.exp)
  | _ => true

theorem writable_of_readable {v : Scalar} (h : v.readable = true) : v.writable = true := by
  cases v with
  | decimal d => exact decide_eq_true (of_decide_eq_true h).1
  | _ => rfl

theorem keyCode_isSome {v : Scalar} (hfam : v.fam ≠ .jsonb) : v.keyCode.isSome = v.writable := by
  cases v with
  | jsonb s => exact absurd rfl hfam
  | decimal d =>
    rw [keyCode, writable, decimalVal_eq]
    by_cases hexp : -maxExp ≤ d.val.exp <;> simp [hexp]
  | _ => rfl

theorem decodeKeyDatum_keyCode {v : Scalar} {w : Key} (hw : v.keyCode = some w) :
    decodeKeyDatum (w ++ rest) v.fam = if v.readable = true then some (rest, v) else none := by
  cases v with
  | jsonb s => cases hw
  | bool b =>
    cases hw
    cases b <;> rfl
  | decimal d =>
    have hcode : w = encodeDecimal d.val := (keyCode_eq hw).trans (append_nil _)
    rw [hcode, fam, decodeKeyDatum, decodeDecimal_encodeDecimal d.property.1 d.property.2, readable]
    by_cases hexp : ExpInRange d.val.exp <;> simp [hexp, d.property.1, d.property.2]
  | enum o l =>
    cases hw
    simp [decodeKeyDatum, fam, decodeInt64_encodeInt64, decodeBytes_encodeBytes, readable]
  | interval iv =>
    cases hw
    have hnanos : iv.cmpValue - (iv.months * 30 + iv.days) * nanosPerDay = iv.nanos := by
      unfold Interval.cmpValue
      grind
    simp [decodeKeyDatum, fam, decodeInt64_encodeInt64, readable, hnanos]
  | string s | bytes s | uuid s =>
    cases hw
    simp [decodeKeyDatum, fam, decodeBytes_encodeBytes, readable]
  | _ =>
    cases hw
    simp [decodeKeyDatum, fam, decodeInt64_encodeInt64, readable]

/-! ### Skipping -/

theorem skipInt64_eq (b : Key) : skipInt64 b = (decodeInt64 b).map Prod.fst := by
  unfold skipInt64 decodeInt64
  split <;> rfl

theorem skipBytes_eq (b : Key) : skipBytes b = (decodeBytes b).map Prod.fst := by
  fun_induction decodeBytes b <;> simp_all [skipBytes, Function.comp_def]

theorem fromMantissa_isSome (neg : Bool) (digits : List Nat) (e : Int) :
    (fromMantissa neg digits e).isSome = mantissaInRange digits e := by
  cases digits with
  | nil => rfl
  | cons c cs =>
    simp only [fromMantissa, mantissaInRange, isEmpty_cons, Bool.false_or, reduceCtorEq, if_false]
    split
    · exact (decide_eq_false (by omega)).symm
    · exact (decide_eq_true (by omega)).symm

theorem skipDecimal_eq (b : Key) : skipDecimal b = (decodeDecimal b).map Prod.fst := by
  cases b with
  | nil => rfl
  | cons marker b =>
    rw [skipDecimal, decodeDecimal]
    split
    · rfl
    split
    · rfl
    split
    · rfl
    dsimp only
    cases takeDigits (if marker = decMarkerNeg then Fin.rev else id) (b.drop 8) with
    | none => rfl
    | some p =>
      simp only [Option.bind_eq_bind, Option.bind_some,
        ← fromMantissa_isSome (marker = decMarkerNeg)]
      cases fromMantissa (marker = decMarkerNeg) p.1 _ <;> rfl

theorem skipDatum_keyCode {v : Scalar} {w : Key} (hw : v.keyCode = some w) :
    skipDatum (w ++ rest) v.fam = if v.readable = true then some rest else none := by
  cases v with
  | jsonb s => cases hw
  | bool b =>
    cases hw
    cases b <;> rfl
  | decimal d =>
    have hcode : w = encodeDecimal d.val := (keyCode_eq hw).trans (append_nil _)
    rw [hcode, fam, skipDatum, skipDecimal_eq,
      decodeDecimal_encodeDecimal d.property.1 d.property.2, readable]
    by_cases hexp : ExpInRange d.val.exp <;> simp [hexp]
  | _ =>
    cases hw
    simp [skipDatum, fam, skipInt64_eq, skipBytes_eq, decodeInt64_encodeInt64,
      decodeBytes_encodeBytes, readable]

end Values

end Datax
