import Datax.Util.DecimalText

/-!
# Types and values

The column types, `FLOAT8` left out, and their values. An array holds scalars and nulls. A
`DECIMAL`, stored as canonical text, is the number, and whoever needs the number parses the text.
Display fields take no part in comparisons and are left out. `convert` stands for the conversions
between different types; nothing depends on which ones it makes.
-/

namespace Datax

inductive Family where
  | unknown | int | string | bool | timestamp | date | bytes | uuid | decimal | jsonb | interval
  | time | enum
  | array (elem : Family)
deriving DecidableEq, Repr

structure Interval where
  months : Int64
  days : Int64
  nanos : Int64
deriving DecidableEq

def nanosPerDay : Int64 := 86400000000000

/-- The length intervals compare by: a month is 30 days, a day 24 hours. -/
def Interval.cmpValue (iv : Interval) : Int64 := (iv.months * 30 + iv.days) * nanosPerDay + iv.nanos

abbrev StoredDec := { d : Dec // d.Canonical ∧ d.Fits }

def decimalVal (d : StoredDec) : Option Dec := Dec.parse d.val.text

theorem decimalVal_eq (d : StoredDec) :
    decimalVal d = if -maxExp ≤ d.val.exp then some d.val else none :=
  Dec.parse_text d.property.1

inductive Scalar where
  | int (i : Int64)
  | string (s : List Byte)
  | bool (b : Bool)
  | timestamp (nanos : Int64)
  | date (days : Int64)
  | bytes (s : List Byte)
  | uuid (s : List Byte)
  | decimal (d : StoredDec)
  | jsonb (s : List Byte)
  | interval (iv : Interval)
  | time (nanos : Int64)
  | enum (ordinal : Int64) (label : List Byte)
deriving DecidableEq

def Scalar.fam : Scalar → Family
  | .int _ => .int
  | .string _ => .string
  | .bool _ => .bool
  | .timestamp _ => .timestamp
  | .date _ => .date
  | .bytes _ => .bytes
  | .uuid _ => .uuid
  | .decimal _ => .decimal
  | .jsonb _ => .jsonb
  | .interval _ => .interval
  | .time _ => .time
  | .enum _ _ => .enum

inductive Datum where
  | null
  | scalar (v : Scalar)
  | array (elem : Family) (elems : List (Option Scalar))
deriving DecidableEq

def Datum.fam : Datum → Family
  | .null => .unknown
  | .scalar v => v.fam
  | .array elem _ => .array elem

inductive CompareError where
  | null
  | incomparable (left right : Family)
  | jsonbOrder
  | decimalRange
  | conversion (value target : Family)
deriving DecidableEq, Repr

def cmpInt (a b : Int64) : Ordering := cmp a.toInt b.toInt

def cmpBool (a b : Bool) : Ordering := cmp a b

/-- Both sides are lifted, a `DECIMAL` from its text. -/
def compareDecimals : Option Dec → Option Dec → Except CompareError Ordering
  | some a, some b => .ok (Dec.cmp a b)
  | _, _ => .error .decimalRange

def Scalar.compare : Scalar → Scalar → Except CompareError Ordering
  | .decimal a, .decimal b => compareDecimals (decimalVal a) (decimalVal b)
  | .decimal a, .int b => compareDecimals (decimalVal a) (some (Dec.fromInt b))
  | .int a, .decimal b => compareDecimals (some (Dec.fromInt a)) (decimalVal b)
  | .enum _ a, .string b => .ok (cmp a b)
  | .string a, .enum _ b => .ok (cmp a b)
  | .enum a _, .enum b _ => .ok (cmpInt a b)
  | .int a, .int b => .ok (cmpInt a b)
  | .timestamp a, .timestamp b => .ok (cmpInt a b)
  | .date a, .date b => .ok (cmpInt a b)
  | .time a, .time b => .ok (cmpInt a b)
  | .interval a, .interval b => .ok (cmpInt a.cmpValue b.cmpValue)
  | .string a, .string b => .ok (cmp a b)
  | .bytes a, .bytes b => .ok (cmp a b)
  | .uuid a, .uuid b => .ok (cmp a b)
  | .bool a, .bool b => .ok (cmpBool a b)
  | .jsonb a, .jsonb b => if a = b then .ok .eq else .error .jsonbOrder
  | a, b => .error (.incomparable a.fam b.fam)

def compareArrays : List (Option Scalar) → List (Option Scalar) → Except CompareError Ordering
  | [], [] => .ok .eq
  | [], _ :: _ => .ok .lt
  | _ :: _, [] => .ok .gt
  | none :: xs, none :: ys => compareArrays xs ys
  | none :: _, some _ :: _ => .ok .gt
  | some _ :: _, none :: _ => .ok .lt
  | some x :: xs, some y :: ys => do
    match ← x.compare y with
    | .eq => compareArrays xs ys
    | c => return c

section Convert
variable (convert : Datum → Family → Option Datum)

def Datum.coerce (d : Datum) (target : Family) : Option Datum :=
  match d with
  | .null => some .null
  | d => if d.fam = target then some d else convert d target

def Datum.asArray (d : Datum) (target : Family) : Except CompareError (List (Option Scalar)) :=
  match d.coerce convert target with
  | some (.array _ elems) => .ok elems
  | _ => .error (.conversion d.fam target)

def Datum.compare : Datum → Datum → Except CompareError Ordering
  | .null, _ => .error .null
  | _, .null => .error .null
  | .scalar a, .scalar b => a.compare b
  | .scalar a,
    .array elem ys => do compareArrays (← Datum.asArray convert (.scalar a) (.array elem)) ys
  | .array elem xs, o => do compareArrays xs (← Datum.asArray convert o (.array elem))

end Convert

end Datax
