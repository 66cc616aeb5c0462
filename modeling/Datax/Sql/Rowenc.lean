import Datax.Sql.Datum

/-!
# Keys of rows and of index entries

A row is stored under the encodings of its primary key's columns, an index entry under those of the
indexed columns and, in a non-unique index, of the primary key's after them.
-/

namespace Datax

open PrefixCode Encoding Option

abbrev ColumnID := Nat

structure Column where
  id : ColumnID
  name : String
  fam : Family
  enumLabels : List (List Byte) := []

structure IndexDescriptor where
  id : UInt64
  name : String
  unique : Bool := false
  columnIDs : List ColumnID

/-- A sharded table's primary key begins with the hidden bucket column. -/
structure TableDescriptor where
  id : UInt64
  columns : List Column
  primaryKey : List ColumnID
  indexes : List IndexDescriptor := []
  livePrimaryIndex : UInt64 := 1
  shardBuckets : Nat := 0
  sharded : 0 < shardBuckets →
    ∃ shard ∈ primaryKey.head?, (columns.find? (·.id == shard)).map (·.fam) = some .int := by decide

namespace TableDescriptor

def colByID (desc : TableDescriptor) (id : ColumnID) : Option Column :=
  desc.columns.find? (·.id == id)

def col (desc : TableDescriptor) (name : String) : Option Column :=
  desc.columns.find? (·.name == name)

end TableDescriptor

abbrev Row := ColumnID → Datum

def tablePrefixByte : Byte := 0x04

def tableIndexPrefix (tableID indexID : UInt64) : Key :=
  tablePrefixByte :: encodeUint64 tableID ++ encodeUint64 indexID

def primaryKeyPrefixFor (desc : TableDescriptor) : Key :=
  tableIndexPrefix desc.id desc.livePrimaryIndex

/-- The key encoding of a value; a `JSONB` value has none, nor has a `DECIMAL` whose text is not
read. -/
def Scalar.keyCode : Scalar → Option Key
  | .int i | .timestamp i | .date i | .time i => some (encodeInt64 i)
  | .enum ordinal label => some (encodeInt64 ordinal ++ encodeBytes label)
  | .interval iv => some (encodeInt64 iv.cmpValue ++ (encodeInt64 iv.months ++ encodeInt64 iv.days))
  | .string s | .bytes s | .uuid s => some (encodeBytes s)
  | .bool b => some (encodeBool b)
  | .decimal d => (decimalVal d).map encodeDecimal
  | .jsonb _ => none

/-- What the fields of a null datum encode as in a column of the given type. -/
def Family.nullCode : Family → Option Key
  | .int | .timestamp | .date | .time => some (encodeInt64 0)
  | .enum => some (encodeInt64 0 ++ encodeBytes [])
  | .interval => some (encodeInt64 0 ++ (encodeInt64 0 ++ encodeInt64 0))
  | .string | .bytes | .uuid => some (encodeBytes [])
  | .bool => some (encodeBool false)
  | .unknown | .decimal | .jsonb | .array _ => none

section Encode
variable (convert : Datum → Family → Option Datum)

def appendDatum (k : Key) (fam : Family) (d : Datum) : Option Key :=
  match d.coerce convert fam with
  | some .null => fam.nullCode.map (k ++ ·)
  | some (.scalar v) => if v.fam = fam then v.keyCode.map (k ++ ·) else none
  | some (.array _ _) => none
  | none => none

def appendColumns (desc : TableDescriptor) : Key → List (ColumnID × Datum) → Option Key
  | k, [] => some k
  | k, (id, d) :: rest => do
    let col ← desc.colByID id
    if d = .null then none
    else appendColumns desc (← appendDatum convert k col.fam d) rest

def encodePKAt (desc : TableDescriptor) (indexID : UInt64) (pkVals : List Datum) : Option Key :=
  if pkVals.length = desc.primaryKey.length then
    appendColumns convert desc (tableIndexPrefix desc.id indexID) (desc.primaryKey.zip pkVals)
  else none

def encodePK (desc : TableDescriptor) (pkVals : List Datum) : Option Key :=
  encodePKAt convert desc desc.livePrimaryIndex pkVals

def pkKey (desc : TableDescriptor) (row : Row) : Option Key :=
  encodePK convert desc (desc.primaryKey.map row)

def encodeIndexPrefix (desc : TableDescriptor) (idx : IndexDescriptor) (vals : List Datum) :
    Option Key :=
  if idx.columnIDs.length < vals.length then none
  else appendColumns convert desc (tableIndexPrefix desc.id idx.id) (idx.columnIDs.zip vals)

def nonUniqueIndexValue : Key := [0]

def encodePKColumns (desc : TableDescriptor) (row : Row) : Key → List ColumnID → Option Key
  | k, [] => some k
  | k, id :: rest => do
    let col ← desc.colByID id
    encodePKColumns desc row (← appendDatum convert k col.fam (row id)) rest

inductive IndexEntry where
  | skip
  | entry (key value : Key)
deriving DecidableEq

def encodeIndexEntryAt (desc : TableDescriptor) (idx : IndexDescriptor) (entryID : UInt64)
    (row : Row) :
    Option IndexEntry :=
  if idx.columnIDs.any (fun id => row id == .null) then some .skip
  else do
    let k ← encodeIndexPrefix convert desc { idx with id := entryID } (idx.columnIDs.map row)
    let pkEnc ← encodePKColumns convert desc row [] desc.primaryKey
    if idx.unique then return .entry k pkEnc
    else return .entry (k ++ pkEnc) nonUniqueIndexValue

def encodeIndexEntry (desc : TableDescriptor) (idx : IndexDescriptor) (row : Row) :
    Option IndexEntry :=
  encodeIndexEntryAt convert desc idx idx.id row

end Encode

/-! ### Reading a key back -/

def skipInt64 (b : Key) : Option Key := if b.length < 8 then none else some (b.drop 8)

def skipBytes : Key → Option Key
  | [] => none
  | [_] => none
  | b :: c :: rest =>
    if b ≠ escape then skipBytes (c :: rest)
    else if c = escapedNul then skipBytes rest
    else if c = terminator then some rest
    else none

/-- The digits of an encoded decimal up to its terminator, and the rest. -/
def takeDigits (flip : Byte → Byte) : Key → Option (List Nat × Key)
  | [] => none
  | b :: rest =>
    if flip b = decTerminator then some ([], rest)
    else if (flip b).val < 1 ∨ 10 < (flip b).val then none
    else (takeDigits flip rest).map fun p => (((flip b).val - 1) :: p.1, p.2)

def decodeUint64 (b : Key) : Nat := b.foldl (fun n c => n * 256 + c.val) 0

def mantissaInRange (digits : List Nat) (e : Int) : Bool :=
  digits.isEmpty || decide (-maxExp ≤ e - digits.length ∧ e - digits.length ≤ maxExp)

def skipDecimal : Key → Option Key
  | [] => none
  | marker :: b =>
    if marker = decMarkerZero then some b
    else if marker ≠ decMarkerNeg ∧ marker ≠ decMarkerPos then none
    else if b.length < 8 then none
    else do
      let flip : Byte → Byte := if marker = decMarkerNeg then Fin.rev else id
      let e : Int := decodeUint64 ((b.take 8).map flip) - 2 ^ 63
      let (digits, rest) ← takeDigits flip (b.drop 8)
      if mantissaInRange digits e then some rest else none

def skipDatum (b : Key) : Family → Option Key
  | .int | .timestamp | .date | .time => skipInt64 b
  | .enum => skipInt64 b >>= skipBytes
  | .interval => skipInt64 b >>= skipInt64 >>= skipInt64
  | .string | .bytes | .uuid => skipBytes b
  | .bool => if b.length < 1 then none else some (b.drop 1)
  | .decimal => skipDecimal b
  | .unknown | .jsonb | .array _ => none

def skipColumns (desc : TableDescriptor) : Key → List ColumnID → Option Key
  | b, [] => some b
  | b, id :: rest => do
    let col ← desc.colByID id
    skipColumns desc (← skipDatum b col.fam) rest

/-- The primary key an index entry leads to. -/
def indexEntryPrimaryKey (desc : TableDescriptor) (idx : IndexDescriptor) (key value : Key) :
    Option Key :=
  if idx.unique then some (primaryKeyPrefixFor desc ++ value)
  else if (tableIndexPrefix desc.id idx.id).isPrefixOf key then
    (skipColumns desc (key.drop (tableIndexPrefix desc.id idx.id).length) idx.columnIDs).map
      (primaryKeyPrefixFor desc ++ ·)
  else none

/-! ### Codes of values -/

/-- What comparison sees of a value: the leading part of its code. -/
def Scalar.sortCode : Scalar → Key
  | .int i | .timestamp i | .date i | .time i => encodeInt64 i
  | .enum ordinal _ => encodeInt64 ordinal
  | .interval iv => encodeInt64 iv.cmpValue
  | .string s | .bytes s | .uuid s => encodeBytes s
  | .bool b => encodeBool b
  | .decimal d => encodeDecimal d.val
  | .jsonb s => s

/-- What the code keeps beside it: the label of an enum, the spelling of an interval. -/
def Scalar.spelling : Scalar → Key
  | .enum _ label => encodeBytes label
  | .interval iv => encodeInt64 iv.months ++ encodeInt64 iv.days
  | _ => []

theorem Scalar.keyCode_decimal {d : StoredDec} (h : (Scalar.decimal d).keyCode ≠ none) :
    decimalVal d = some d.val := by
  rw [decimalVal_eq]
  split_ifs with hexp
  · rfl
  · simp [keyCode, decimalVal_eq, hexp] at h

theorem Scalar.keyCode_eq {v : Scalar} {w : Key} (h : v.keyCode = some w) :
    w = v.sortCode ++ v.spelling := by
  cases v with
  | jsonb s => cases h
  | decimal d =>
    have hval := keyCode_decimal (d := d) (by rw [h]; exact some_ne_none w)
    rw [keyCode, hval] at h
    exact (some.inj h).symm.trans (List.append_nil _).symm
  | enum ordinal label | interval iv => exact (some.inj h).symm
  | _ => exact (some.inj h).symm.trans (List.append_nil _).symm

variable {a b : Scalar}

theorem Scalar.apart_sortCode (hfam : a.fam = b.fam) (hkey : a.keyCode ≠ none) :
    Apart a.sortCode b.sortCode := by
  cases a <;> cases b <;> cases hfam
  case jsonb.jsonb => exact absurd rfl hkey
  case bool.bool a b => exact apart_encodeBool a b
  case decimal.decimal a b => exact apart_encodeDecimal a.val b.val
  case string.string a b | bytes.bytes a b | uuid.uuid a b => exact apart_encodeBytes a b
  all_goals exact apart_encodeInt64 _ _

theorem Scalar.apart_spelling (hfam : a.fam = b.fam) : Apart a.spelling b.spelling := by
  cases a <;> cases b <;> cases hfam
  case enum.enum => exact apart_encodeBytes _ _
  case interval.interval => exact (apart_encodeInt64 _ _).append fun _ => apart_encodeInt64 _ _
  all_goals exact Apart.refl _

theorem cmp_congr {α β : Type} [LT α] [DecidableLT α] [LT β] [DecidableLT β] {a b : α} {x y : β}
    (hlt : a < b ↔ x < y) (hgt : b < a ↔ y < x) : cmp a b = cmp x y := by
  unfold cmp cmpUsing
  simp only [hlt, hgt]

theorem Scalar.compare_eq (hfam : a.fam = b.fam) (hkey : a.keyCode ≠ none)
    (hkey' : b.keyCode ≠ none) : a.compare b = .ok (cmp a.sortCode b.sortCode) := by
  have hint : ∀ v w : Int64, cmpInt v w = cmp (encodeInt64 v) (encodeInt64 w) := fun v w =>
    cmp_congr (encodeInt64_lt_iff v w).symm (encodeInt64_lt_iff w v).symm
  have hbytes : ∀ x y : List Byte, cmp x y = cmp (encodeBytes x) (encodeBytes y) := fun x y =>
    cmp_congr (encodeBytes_lt_iff x y).symm (encodeBytes_lt_iff y x).symm
  cases a <;> cases b <;> cases hfam
  case jsonb.jsonb => exact absurd rfl hkey
  case bool.bool a b =>
    exact congrArg Except.ok (cmp_congr (encodeBool_lt_iff a b).symm (encodeBool_lt_iff b a).symm)
  case decimal.decimal a b =>
    have hcmp : Dec.cmp a.val b.val = cmp (encodeDecimal a.val) (encodeDecimal b.val) := by
      rw [Dec.cmp_eq, ← cmp_eq_compare]
      exact cmp_congr (encodeDecimal_lt_iff a.property b.property).symm
        (encodeDecimal_lt_iff b.property a.property).symm
    rw [compare, keyCode_decimal hkey, keyCode_decimal hkey']
    exact congrArg Except.ok hcmp
  case string.string a b | bytes.bytes a b | uuid.uuid a b => exact congrArg Except.ok (hbytes a b)
  all_goals exact congrArg Except.ok (hint _ _)

theorem Scalar.apart_keyCode {x y : Key} (hfam : a.fam = b.fam) (ha : a.keyCode = some x)
    (hb : b.keyCode = some y) :
    Apart x y := by
  rw [keyCode_eq ha, keyCode_eq hb]
  refine (apart_sortCode hfam ?_).append fun _ => apart_spelling hfam
  rw [ha]
  exact some_ne_none x

theorem Scalar.keyCode_inj {x : Key} (hfam : a.fam = b.fam) (ha : a.keyCode = some x)
    (hb : b.keyCode = some x) :
    a = b := by
  have hcode : a.keyCode = b.keyCode := ha.trans hb.symm
  cases a <;> cases b <;> cases hfam
  case jsonb.jsonb => cases ha
  case bool.bool a b =>
    cases a <;> cases b <;> first | rfl | exact absurd (some.inj hcode) (by decide)
  case decimal.decimal a b =>
    rw [keyCode, keyCode, keyCode_decimal (d := a) (by rw [ha]; exact some_ne_none x),
      keyCode_decimal (d := b) (by rw [hb]; exact some_ne_none x)] at hcode
    have hvalue : a.val.value = b.val.value :=
      eq_of_lt_iff (encodeDecimal_lt_iff a.property b.property)
      (encodeDecimal_lt_iff b.property a.property) (some.inj hcode)
    exact congrArg Scalar.decimal
      (Subtype.ext (Dec.eq_of_value_eq a.property.1 b.property.1 hvalue))
  case enum.enum o l o' l' =>
    obtain ⟨ho, hl⟩ := (apart_encodeInt64 o o').eq_of_append_eq (some.inj hcode)
    rw [encodeInt64_inj ho, strictMono_encodeBytes.injective hl]
  case interval.interval iv iv' =>
    obtain ⟨hcmp, hrest⟩ := (apart_encodeInt64 _ _).eq_of_append_eq (some.inj hcode)
    obtain ⟨hmonths, hdays⟩ := (apart_encodeInt64 _ _).eq_of_append_eq hrest
    have hm := encodeInt64_inj hmonths
    have hd := encodeInt64_inj hdays
    have hc := encodeInt64_inj hcmp
    unfold Interval.cmpValue at hc
    cases iv
    cases iv'
    simp_all
  case string.string a b | bytes.bytes a b | uuid.uuid a b =>
    rw [strictMono_encodeBytes.injective (some.inj hcode)]
  all_goals rw [encodeInt64_inj (some.inj hcode)]

end Datax
