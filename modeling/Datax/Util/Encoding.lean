import Datax.Keys.Key
import Datax.Shared.PrefixCode
import Mathlib.Data.Nat.Bitwise

/-!
# Order-preserving byte encodings

Each encoding is the string it appends to a key. Integers are eight bytes, the sign bit of a signed
one flipped; byte strings are escaped and end with a terminator that sorts below the escape's
continuation. Every encoding keeps the order of the values, and no value's code continues another's.
-/

namespace Datax.Encoding

open List PrefixCode Apart

def bigEndian : Nat → Nat → Key
  | 0, _ => []
  | n + 1, v => Fin.ofNat 256 (v / 256 ^ n) :: bigEndian n v

theorem length_bigEndian (n v : Nat) : (bigEndian n v).length = n := by
  induction n with
  | zero => rfl
  | succ n ih => rw [bigEndian, length_cons, ih]

theorem bigEndian_mod (n v k : Nat) (h : n ≤ k) : bigEndian n (v % 256 ^ k) = bigEndian n v := by
  induction n with
  | zero => rfl
  | succ n ih =>
    have hbyte : v % 256 ^ k / 256 ^ n % 256 = v / 256 ^ n % 256 := by
      obtain ⟨m, rfl⟩ : ∃ m, k = n + (m + 1) := ⟨k - n - 1, by omega⟩
      rw [Nat.pow_add, Nat.mod_mul_right_div_self, Nat.pow_succ, Nat.mul_comm (256 ^ m) 256,
        Nat.mod_mul_right_mod]
    have hfirst : Fin.ofNat 256 (v % 256 ^ k / 256 ^ n) = Fin.ofNat 256 (v / 256 ^ n) :=
      Fin.ext hbyte
    rw [bigEndian, bigEndian, ih (by omega), hfirst]

theorem bigEndian_lt_iff (n : Nat) {v w : Nat} (hv : v < 256 ^ n) (hw : w < 256 ^ n) :
    bigEndian n v < bigEndian n w ↔ v < w := by
  induction n generalizing v w with
  | zero =>
    have hv0 : v = 0 := by omega
    have hw0 : w = 0 := by omega
    subst hv0 hw0
    simp
  | succ n ih =>
    have hpos : 0 < 256 ^ n := Nat.pow_pos (by decide)
    have hhigh : ∀ {u : Nat}, u < 256 ^ (n + 1) → u / 256 ^ n < 256 := by
      intro u hu
      exact Nat.div_lt_of_lt_mul hu
    have hval : ∀ {u : Nat}, u < 256 ^ (n + 1) → (Fin.ofNat 256 (u / 256 ^ n)).val = u / 256 ^ n :=
      fun hu => Nat.mod_eq_of_lt (hhigh hu)
    have hrest := ih (Nat.mod_lt v hpos) (Nat.mod_lt w hpos)
    rw [bigEndian_mod n v n (Nat.le_refl n), bigEndian_mod n w n (Nat.le_refl n)] at hrest
    have hvsplit := Nat.div_add_mod v (256 ^ n)
    have hwsplit := Nat.div_add_mod w (256 ^ n)
    rw [bigEndian, bigEndian, cons_lt_cons_iff, hrest, Fin.lt_def, Fin.ext_iff, hval hv, hval hw]
    constructor
    · rintro (hlt | ⟨heq, hlt⟩)
      · exact Nat.lt_of_div_lt_div hlt
      · rw [heq] at hvsplit
        omega
    · intro hlt
      rcases Nat.lt_or_eq_of_le (Nat.div_le_div_right (c := 256 ^ n) (Nat.le_of_lt hlt)) with hd
        | hd
      · exact .inl hd
      · rw [hd] at hvsplit
        exact .inr ⟨hd, by omega⟩

def encodeUint64 (v : UInt64) : Key := bigEndian 8 v.toNat

theorem length_encodeUint64 (v : UInt64) : (encodeUint64 v).length = 8 := length_bigEndian 8 _

theorem encodeUint64_lt_iff (v w : UInt64) : encodeUint64 v < encodeUint64 w ↔ v < w := by
  unfold encodeUint64
  rw [bigEndian_lt_iff 8 v.toNat_lt w.toNat_lt]
  exact UInt64.lt_iff_toNat_lt.symm

/-- The sign bit flipped, so that negative numbers sort below positive ones. -/
def encodeInt64 (v : Int64) : Key := encodeUint64 (v.toUInt64 ^^^ ((1 : UInt64) <<< 63))

theorem xor_sign_of_msb_eq_false {x : BitVec 64} (h : x.msb = false) :
    x ^^^ BitVec.intMin 64 = x + BitVec.intMin 64 := by
  have hdisjoint : x &&& BitVec.intMin 64 = 0#64 := by
    apply BitVec.eq_of_getLsbD_eq
    intro i hi
    rw [BitVec.getLsbD_and, BitVec.getLsbD_intMin, BitVec.getLsbD_zero]
    by_cases htop : i + 1 = 64
    · have hx : x.getLsbD i = false := by
        have hi63 : i = 63 := by omega
        subst hi63
        rwa [BitVec.msb_eq_getLsbD_last] at h
      rw [hx, Bool.false_and]
    · rw [decide_eq_false htop, Bool.and_false]
  rw [BitVec.add_eq_or_of_and_eq_zero _ _ hdisjoint]
  apply BitVec.eq_of_getLsbD_eq
  intro i hi
  have hbit := congrArg (BitVec.getLsbD · i) hdisjoint
  simp only [BitVec.getLsbD_and, BitVec.getLsbD_zero] at hbit
  cases hx : x.getLsbD i <;> cases hm : (BitVec.intMin 64).getLsbD i <;> simp_all

theorem xor_sign (x : BitVec 64) : x ^^^ BitVec.intMin 64 = x + BitVec.intMin 64 := by
  cases hmsb : x.msb with
  | false => exact xor_sign_of_msb_eq_false hmsb
  | true =>
    have hlow : (x ^^^ BitVec.intMin 64).msb = false := by
      rw [BitVec.msb_xor, hmsb, BitVec.msb_intMin]
      rfl
    have hback := xor_sign_of_msb_eq_false hlow
    rw [BitVec.xor_assoc, BitVec.xor_self, BitVec.xor_zero] at hback
    have htwice : BitVec.intMin 64 + BitVec.intMin 64 = 0#64 := by decide
    calc x ^^^ BitVec.intMin 64 =
          (x ^^^ BitVec.intMin 64) + (BitVec.intMin 64 + BitVec.intMin 64) := by
          rw [htwice, BitVec.add_zero]
      _ = x + BitVec.intMin 64 := by rw [← BitVec.add_assoc, ← hback]

theorem toNat_flipSign (v : Int64) :
    ((v.toUInt64 ^^^ ((1 : UInt64) <<< 63)).toNat : Int) = v.toInt + 2 ^ 63 := by
  have hmin : ((1 : UInt64) <<< 63).toBitVec = BitVec.intMin 64 := by decide
  have hbits : (v.toUInt64 ^^^ ((1 : UInt64) <<< 63)).toBitVec = v.toBitVec + BitVec.intMin 64 := by
    rw [UInt64.toBitVec_xor, hmin, xor_sign]
    rfl
  have hnat : (v.toUInt64 ^^^ ((1 : UInt64) <<< 63)).toNat =
      (v.toBitVec.toNat + 2 ^ 63) % 2 ^ 64 := by
    rw [← UInt64.toNat_toBitVec, hbits, BitVec.toNat_add]
    rfl
  have hint : v.toInt = v.toBitVec.toInt := rfl
  rw [hnat, hint, BitVec.toInt_eq_toNat_cond]
  split <;> omega

theorem length_encodeInt64 (v : Int64) : (encodeInt64 v).length = 8 := length_encodeUint64 _

theorem encodeInt64_lt_iff (v w : Int64) : encodeInt64 v < encodeInt64 w ↔ v.toInt < w.toInt := by
  unfold encodeInt64
  rw [encodeUint64_lt_iff, UInt64.lt_iff_toNat_lt]
  have hv := toNat_flipSign v
  have hw := toNat_flipSign w
  omega

theorem encodeInt64_inj {v w : Int64} (h : encodeInt64 v = encodeInt64 w) : v = w := by
  apply Int64.toInt_inj.mp
  exact eq_of_lt_iff (encodeInt64_lt_iff v w) (encodeInt64_lt_iff w v) h

theorem apart_encodeInt64 (v w : Int64) : Apart (encodeInt64 v) (encodeInt64 w) :=
  of_length ((length_encodeInt64 v).trans (length_encodeInt64 w).symm)

def encodeBool (b : Bool) : Key := if b then [1] else [0]

theorem apart_encodeBool (a b : Bool) : Apart (encodeBool a) (encodeBool b) := by
  apply of_length
  cases a <;> cases b <;> rfl

theorem encodeBool_lt_iff (a b : Bool) : encodeBool a < encodeBool b ↔ a < b := by
  cases a <;> cases b <;> decide

def escape : Byte := 0x00
def escapedNul : Byte := 0xff
def terminator : Byte := 0x01

/-- A NUL is followed by `0xff`, the end is marked by a NUL followed by `0x01`. -/
def encodeBytes : List Byte → Key
  | [] => [escape, terminator]
  | c :: cs => if c = escape then escape :: escapedNul :: encodeBytes cs else c :: encodeBytes cs

/-- A byte string without the terminator of its code. -/
def escaped : List Byte → Key
  | [] => []
  | c :: cs => if c = escape then escape :: escapedNul :: escaped cs else c :: escaped cs

theorem encodeBytes_eq (x : List Byte) : encodeBytes x = escaped x ++ [escape, terminator] := by
  induction x with
  | nil => rfl
  | cons c cs ih =>
    rw [encodeBytes, escaped, ih]
    split <;> rfl

theorem encodeBytes_append_lt_iff (x y : List Byte) (s : Key) :
    encodeBytes x ++ s < escaped y ↔ x < y := by
  induction x generalizing y with
  | nil =>
    cases y with
    | nil => simp [escaped]
    | cons c cs =>
      simp only [encodeBytes, escaped, nil_lt_cons, iff_true]
      split
      · exact List.Lex.cons (List.Lex.rel (by decide))
      next hc => exact List.Lex.rel (lt_of_le_of_ne (Fin.zero_le c) (Ne.symm hc))
  | cons b bs ih =>
    cases y with
    | nil => simp [escaped]
    | cons c cs =>
      rw [encodeBytes, escaped, cons_lt_cons_iff, ← ih cs]
      by_cases hb : b = escape
      · by_cases hc : c = escape
        · simp [hb, hc]
        · simp [hb, hc, cons_lt_cons_iff, Ne.symm hc]
      · by_cases hc : c = escape <;> simp [hb, hc, cons_lt_cons_iff]

theorem encodeBytes_append_lt {x y : List Byte} (h : x < y) (s t : Key) :
    encodeBytes x ++ s < encodeBytes y ++ t := by
  have hy : escaped y ≤ encodeBytes y ++ t :=
    not_lt.mp fun hlt => lt_irrefl y ((encodeBytes_append_lt_iff y y t).mp hlt)
  exact lt_of_lt_of_le ((encodeBytes_append_lt_iff x y s).mpr h) hy

theorem encodeBytes_append_inj {x y : List Byte} {s t : Key}
    (h : encodeBytes x ++ s = encodeBytes y ++ t) : x = y := by
  rcases lt_trichotomy x y with hlt | heq | hlt
  · exact absurd h (encodeBytes_append_lt hlt s t).ne
  · exact heq
  · exact absurd h (encodeBytes_append_lt hlt t s).ne'

theorem apart_encodeBytes (x y : List Byte) : Apart (encodeBytes x) (encodeBytes y) := by
  constructor
  · rintro ⟨s, hs⟩
    rw [encodeBytes_append_inj (hs.trans (append_nil _).symm)]
  · rintro ⟨s, hs⟩
    rw [encodeBytes_append_inj (hs.trans (append_nil _).symm)]

theorem strictMono_encodeBytes : StrictMono encodeBytes := by
  intro x y h
  simpa using encodeBytes_append_lt h [] []

theorem encodeBytes_lt_iff (x y : List Byte) : encodeBytes x < encodeBytes y ↔ x < y :=
  strictMono_encodeBytes.lt_iff_lt

end Datax.Encoding
