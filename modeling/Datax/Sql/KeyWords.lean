import Datax.Keys.PrefixEnd
import Datax.Sql.KeyDecode

/-!
# Keys as lists of words

The key of a row or an index entry is a prefix followed by one word for each of its columns,
and words of one column are apart. So a key determines its words, and keys with one prefix
are ordered as their lists of words.
-/

namespace Datax

open List PrefixCode Encoding Scalar

def IsCode (fam : Family) (w : Key) : Prop := ∃ v : Scalar, v.fam = fam ∧ v.keyCode = some w

theorem IsCode.apart {fam : Family} {x y : Key} (hx : IsCode fam x) (hy : IsCode fam y) :
    Apart x y := by
  obtain ⟨a, hfa, ha⟩ := hx
  obtain ⟨b, hfb, hb⟩ := hy
  exact apart_keyCode (hfa.trans hfb.symm) ha hb

def WordsOf (desc : TableDescriptor) (ids : List ColumnID) (ws : List Key) : Prop :=
  List.Forall₂ (fun id w => ∃ col, desc.colByID id = some col ∧ IsCode col.fam w) ids ws

variable {ids : List ColumnID} {k : Key}

namespace WordsOf

variable {desc : TableDescriptor} {xs ys : List Key}

theorem apart (hx : WordsOf desc ids xs) (hy : WordsOf desc ids ys) : List.Forall₂ Apart xs ys := by
  induction hx generalizing ys with
  | nil =>
    cases hy
    exact List.Forall₂.nil
  | cons hw _ ih =>
    cases hy with
    | cons hw' hrest =>
      obtain ⟨col, hcol, hcode⟩ := hw
      obtain ⟨col', hcol', hcode'⟩ := hw'
      cases hcol.symm.trans hcol'
      exact List.Forall₂.cons (hcode.apart hcode') (ih hrest)

theorem take {ws : List Key} (h : WordsOf desc ids ws) (n : Nat) :
    WordsOf desc (ids.take n) (ws.take n) :=
  List.forall₂_take n h

theorem lt_iff (hx : WordsOf desc ids xs) (hy : WordsOf desc ids ys)
    (k : Key) : k ++ xs.flatten < k ++ ys.flatten ↔ xs < ys := by
  have h := flatten_lt_flatten_iff (hx.apart hy) [] []
  simp only [append_nil, lt_irrefl, and_false, or_false] at h
  rw [append_lt_append_left_iff, h]

theorem take_eq {n : Nat} (hx : WordsOf desc (ids.take n) xs)
    (hy : WordsOf desc ids ys) (h : k ++ xs.flatten <+: k ++ ys.flatten) : ys.take n = xs := by
  obtain ⟨s, hs⟩ := h
  rw [append_assoc] at hs
  have hcancel := append_cancel_left hs
  rw [← take_append_drop n ys, flatten_append] at hcancel
  exact (flatten_inj (hx.apart (hy.take n)) hcancel).1.symm

end WordsOf

variable {row : Row} {id : ColumnID} {idx : IndexDescriptor}

section Encode
variable {convert : Datum → Family → Option Datum} {desc : TableDescriptor} {k' : Key}

theorem appendDatum_isCode {fam : Family} {d : Datum} (h : appendDatum convert k fam d = some k') :
    ∃ w, IsCode fam w ∧ k' = k ++ w := by
  unfold appendDatum at h
  split at h
  · obtain ⟨w, hw, rfl⟩ := Option.map_eq_some_iff.mp h
    refine ⟨w, ?_, rfl⟩
    -- A null datum's fields are those of the type's zero value.
    cases fam with
    | int => exact ⟨.int 0, rfl, hw⟩
    | timestamp => exact ⟨.timestamp 0, rfl, hw⟩
    | date => exact ⟨.date 0, rfl, hw⟩
    | time => exact ⟨.time 0, rfl, hw⟩
    | enum => exact ⟨.enum 0 [], rfl, hw⟩
    | interval => exact ⟨.interval ⟨0, 0, 0⟩, rfl, hw⟩
    | string => exact ⟨.string [], rfl, hw⟩
    | bytes => exact ⟨.bytes [], rfl, hw⟩
    | uuid => exact ⟨.uuid [], rfl, hw⟩
    | bool => exact ⟨.bool false, rfl, hw⟩
    | _ => cases hw
  · rename_i v _
    split_ifs at h with hfam
    obtain ⟨w, hw, rfl⟩ := Option.map_eq_some_iff.mp h
    exact ⟨w, ⟨v, hfam, hw⟩, rfl⟩
  · cases h
  · cases h

theorem appendColumns_words {cols : List (ColumnID × Datum)}
    (h : appendColumns convert desc k cols = some k') :
    ∃ ws, WordsOf desc (cols.map Prod.fst) ws ∧ k' = k ++ ws.flatten := by
  induction cols generalizing k with
  | nil =>
    cases h
    exact ⟨[], List.Forall₂.nil, (append_nil k').symm⟩
  | cons c cols ih =>
    obtain ⟨col, hcol, h⟩ := Option.bind_eq_some_iff.mp h
    split_ifs at h
    obtain ⟨k₁, hk₁, h⟩ := Option.bind_eq_some_iff.mp h
    obtain ⟨w, hw, rfl⟩ := appendDatum_isCode hk₁
    obtain ⟨ws, hws, rfl⟩ := ih h
    exact ⟨w :: ws, List.Forall₂.cons ⟨col, hcol, hw⟩ hws, by rw [flatten_cons, append_assoc]⟩

theorem Datum.coerce_self {d : Datum} {target : Family} (hnull : d ≠ .null) (h : d.fam = target) :
    d.coerce convert target = some d := by
  cases d with
  | null => exact absurd rfl hnull
  | scalar v | array elem elems => exact if_pos h

def code (row : Row) (id : ColumnID) : Key :=
  match row id with
  | .scalar v => v.keyCode.getD []
  | _ => []

/-- A stored value of a column: null, or of the column's type, an enum with the label its ordinal
names. -/
def Column.Conforms (col : Column) : Datum → Prop
  | .null => True
  | .scalar v => v.fam = col.fam ∧ ∀ o l, v = .enum o l → col.enumLabels[o.toInt.toNat]? = some l
  | .array elem _ => col.fam = .array elem

def Row.Conforms (desc : TableDescriptor) (row : Row) : Prop :=
  ∀ id col, desc.colByID id = some col → col.Conforms (row id)

/-- The row holds a value with a key encoding in the column. -/
structure Keyed (desc : TableDescriptor) (row : Row) (id : ColumnID) : Prop where
  value : ∃ col v, desc.colByID id = some col ∧ row id = .scalar v ∧ v.fam = col.fam ∧
    v.keyCode = some (code row id)

/-- The value in the column can be written into a key. -/
def Row.writable (row : Row) (id : ColumnID) : Bool :=
  match row id with
  | .scalar v => v.writable
  | _ => true

/-- The value in the column can be read back from its key. -/
def Row.readable (row : Row) (id : ColumnID) : Bool :=
  match row id with
  | .scalar v => v.readable
  | _ => true

/-- The row holds a value of the column's type, a type with a key encoding. -/
structure Typed (desc : TableDescriptor) (row : Row) (id : ColumnID) : Prop where
  value : ∃ col v, desc.colByID id = some col ∧ row id = .scalar v ∧ v.fam = col.fam ∧
    v.fam ≠ .jsonb

theorem Typed.keyed (h : Typed desc row id) (hwrite : row.writable id = true) :
    Keyed desc row id := by
  obtain ⟨col, v, hcol, hv, hfam, hjson⟩ := h.value
  simp only [Row.writable, hv, ← keyCode_isSome hjson] at hwrite
  obtain ⟨w, hw⟩ := Option.isSome_iff_exists.mp hwrite
  refine ⟨⟨col, v, hcol, hv, hfam, ?_⟩⟩
  simp only [code, hv, hw, Option.getD_some]

theorem Keyed.writable (h : Keyed desc row id) : row.writable id = true := by
  obtain ⟨_, v, _, hv, _, hcode⟩ := h.value
  have hjson : v.fam ≠ .jsonb := by
    cases v with
    | jsonb s => cases hcode
    | _ => exact Family.noConfusion
  simp only [Row.writable, hv, ← keyCode_isSome hjson, hcode, Option.isSome_some]

theorem Row.writable_of_readable (h : row.readable id = true) : row.writable id = true := by
  unfold Row.readable at h
  unfold Row.writable
  cases hd : row id with
  | scalar v =>
    rw [hd] at h
    exact Datax.writable_of_readable h
  | null | array elem elems => rfl

/-- What comparison sees of the column. -/
def sortKey (r : Row) (id : ColumnID) : Key :=
  match r id with
  | .scalar v => v.sortCode
  | _ => []

/-- What the key keeps beside it. -/
def spelled (r : Row) (id : ColumnID) : Key :=
  match r id with
  | .scalar v => v.spelling
  | _ => []

theorem Keyed.code_eq (h : Keyed desc row id) : code row id = sortKey row id ++ spelled row id := by
  obtain ⟨_, v, _, hv, _, hcode⟩ := h.value
  simp only [sortKey, spelled, hv, keyCode_eq hcode]

theorem Keyed.compare {row' : Row} (convert : Datum → Family → Option Datum) (h : Keyed desc row id)
    (h' : Keyed desc row' id) :
    (row id).compare convert (row' id) = .ok (cmp (sortKey row id) (sortKey row' id)) ∧
      Apart (sortKey row id) (sortKey row' id) ∧ Apart (spelled row id) (spelled row' id) := by
  obtain ⟨col, v, hcol, hv, hfam, hcode⟩ := h.value
  obtain ⟨col', v', hcol', hv', hfam', hcode'⟩ := h'.value
  cases hcol.symm.trans hcol'
  have hsame := hfam.trans hfam'.symm
  have hkey : v.keyCode ≠ none := by simp [hcode]
  unfold sortKey spelled
  rw [hv, hv']
  exact ⟨compare_eq hsame hkey (by simp [hcode']), apart_sortCode hsame hkey, apart_spelling hsame⟩

theorem row_eq_of_code_eq {row' : Row} (h : Keyed desc row id) (h' : Keyed desc row' id)
    (heq : code row id = code row' id) : row id = row' id := by
  obtain ⟨col, v, hcol, hv, hfam, hcode⟩ := h.value
  obtain ⟨col', v', hcol', hv', hfam', hcode'⟩ := h'.value
  cases hcol.symm.trans hcol'
  rw [hv, hv', keyCode_inj (hfam.trans hfam'.symm) hcode (heq ▸ hcode')]

/-- What is stored in the column is null or of the column's type. -/
def OfType (desc : TableDescriptor) (row : Row) (id : ColumnID) : Prop :=
  ∀ col, desc.colByID id = some col → row id ≠ .null → (row id).fam = col.fam

theorem Row.Conforms.ofType (h : row.Conforms desc) (id : ColumnID) : OfType desc row id := by
  intro col hcol hnull
  have hconf := h id col hcol
  cases hd : row id with
  | null => exact absurd hd hnull
  | scalar v =>
    rw [hd] at hconf
    exact hconf.1
  | array elem elems =>
    rw [hd] at hconf
    exact hconf.symm

theorem Typed.ofType (h : Typed desc row id) : OfType desc row id := by
  intro col hcol _
  obtain ⟨col', v, hcol', hv, hfam, _⟩ := h.value
  cases hcol.symm.trans hcol'
  rw [hv]
  exact hfam

theorem keyed_of_appendDatum {col : Column} (hcol : desc.colByID id = some col)
    (htype : OfType desc row id) (hnull : row id ≠ .null)
    (h : appendDatum convert k col.fam (row id) = some k') : Keyed desc row id := by
  have hfam := htype col hcol hnull
  unfold appendDatum at h
  rw [Datum.coerce_self hnull hfam] at h
  cases hd : row id with
  | null => exact absurd hd hnull
  | array elem elems => simp [hd] at h
  | scalar v =>
    rw [hd] at h hfam
    simp only [show v.fam = col.fam from hfam, if_true] at h
    obtain ⟨w, hw, rfl⟩ := Option.map_eq_some_iff.mp h
    refine ⟨⟨col, v, hcol, hd, hfam, ?_⟩⟩
    simp only [code, hd, hw, Option.getD_some]

theorem appendDatum_keyed {col : Column} (h : Keyed desc row id)
    (hcol : desc.colByID id = some col) (k : Key) :
    appendDatum convert k col.fam (row id) = some (k ++ code row id) := by
  obtain ⟨col', v, hcol', hv, hfam, hcode⟩ := h.value
  cases hcol.symm.trans hcol'
  simp [appendDatum, hv, Datum.coerce, Datum.fam, hfam, hcode]

theorem keyed_of_appendColumns (htype : ∀ id ∈ ids, OfType desc row id)
    (h : appendColumns convert desc k (ids.zip (ids.map row)) = some k') :
    ∀ id ∈ ids, Keyed desc row id := by
  induction ids generalizing k with
  | nil => simp
  | cons id ids ih =>
    obtain ⟨hid, hrest⟩ := forall_mem_cons.mp htype
    obtain ⟨col, hcol, h⟩ := Option.bind_eq_some_iff.mp h
    split_ifs at h with hnull
    obtain ⟨k₁, hk₁, h⟩ := Option.bind_eq_some_iff.mp h
    exact forall_mem_cons.mpr ⟨keyed_of_appendDatum hcol hid hnull hk₁, ih hrest h⟩

theorem keyed_of_encodePKColumns (htyped : ∀ id ∈ ids, Typed desc row id)
    (h : encodePKColumns convert desc row k ids = some k') : ∀ id ∈ ids, Keyed desc row id := by
  induction ids generalizing k with
  | nil => simp
  | cons id ids ih =>
    obtain ⟨hid, hrest⟩ := forall_mem_cons.mp htyped
    obtain ⟨col, hcol, h⟩ := Option.bind_eq_some_iff.mp h
    obtain ⟨k₁, hk₁, h⟩ := Option.bind_eq_some_iff.mp h
    obtain ⟨_, v, _, hv, _⟩ := hid.value
    have hnull : row id ≠ .null := by simp [hv]
    exact forall_mem_cons.mpr ⟨keyed_of_appendDatum hcol hid.ofType hnull hk₁, ih hrest h⟩

section
variable (h : ∀ id ∈ ids, Keyed desc row id)
include h

theorem appendColumns_keyed (k : Key) :
    appendColumns convert desc k (ids.zip (ids.map row)) =
      some (k ++ (ids.map (code row)).flatten) := by
  induction ids generalizing k with
  | nil => simp [appendColumns]
  | cons id ids ih =>
    obtain ⟨hid, hrest⟩ := forall_mem_cons.mp h
    obtain ⟨col, v, hcol, hv, _⟩ := hid.value
    simp [appendColumns, hcol, hv ▸ appendDatum_keyed hid hcol k, hv, ih hrest]

theorem encodePKColumns_keyed (k : Key) :
    encodePKColumns convert desc row k ids = some (k ++ (ids.map (code row)).flatten) := by
  induction ids generalizing k with
  | nil => simp [encodePKColumns]
  | cons id ids ih =>
    obtain ⟨hid, hrest⟩ := forall_mem_cons.mp h
    obtain ⟨col, _, hcol, _⟩ := hid.value
    simp [encodePKColumns, hcol, appendDatum_keyed hid hcol, ih hrest]

theorem Keyed.wordsOf : WordsOf desc ids (ids.map (code row)) := by
  induction ids with
  | nil => exact List.Forall₂.nil
  | cons id ids ih =>
    obtain ⟨hid, hrest⟩ := forall_mem_cons.mp h
    obtain ⟨col, v, hcol, _, hfam, hcode⟩ := hid.value
    exact List.Forall₂.cons ⟨col, hcol, v, hfam, hcode⟩ (ih hrest)

end

theorem pkKey_keyed (h : ∀ id ∈ desc.primaryKey, Keyed desc row id) :
    pkKey convert desc row =
      some (primaryKeyPrefixFor desc ++ (desc.primaryKey.map (code row)).flatten) := by
  rw [pkKey, encodePK, encodePKAt, if_pos (length_map _)]
  exact appendColumns_keyed h _

theorem pkKey_eq (htype : ∀ id ∈ desc.primaryKey, OfType desc row id)
    (h : pkKey convert desc row = some k) :
    (∀ id ∈ desc.primaryKey, Keyed desc row id) ∧
      k = primaryKeyPrefixFor desc ++ (desc.primaryKey.map (code row)).flatten := by
  have hkeyed : ∀ id ∈ desc.primaryKey, Keyed desc row id := by
    unfold pkKey encodePK encodePKAt at h
    split_ifs at h
    exact keyed_of_appendColumns htype h
  rw [pkKey_keyed hkeyed] at h
  exact ⟨hkeyed, (Option.some.inj h).symm⟩

def IndexDescriptor.keyColumns (desc : TableDescriptor) (idx : IndexDescriptor) : List ColumnID :=
  if idx.unique then idx.columnIDs else idx.columnIDs ++ desc.primaryKey

theorem encodeIndexEntryAt_keyed (entryID : UInt64)
    (hcols : ∀ id ∈ idx.columnIDs, Keyed desc row id) (hpk : ∀ id ∈ desc.primaryKey,
      Keyed desc row id) : encodeIndexEntryAt convert desc idx entryID row = some (.entry
      (tableIndexPrefix desc.id entryID ++ ((idx.keyColumns desc).map (code row)).flatten)
      (if idx.unique = true then (desc.primaryKey.map (code row)).flatten
        else nonUniqueIndexValue)) := by
  have hnull : idx.columnIDs.any (fun id => row id == .null) = false := by
    rw [any_eq_false]
    intro id hid
    obtain ⟨_, v, _, hv, _⟩ := (hcols id hid).value
    simp [hv]
  unfold encodeIndexEntryAt encodeIndexPrefix IndexDescriptor.keyColumns
  simp only [hnull, length_map, lt_irrefl, if_false, Bool.false_eq_true, appendColumns_keyed hcols,
    encodePKColumns_keyed hpk]
  cases idx.unique <;> simp

theorem encodeIndexEntry_eq {key value : Key} (hrow : row.Conforms desc)
    (hpk : ∀ id ∈ desc.primaryKey, Keyed desc row id)
    (h : encodeIndexEntry convert desc idx row = some (.entry key value)) :
    (∀ id ∈ idx.keyColumns desc, Keyed desc row id) ∧
      key = tableIndexPrefix desc.id idx.id ++ ((idx.keyColumns desc).map (code row)).flatten ∧
      (idx.unique = true → value = (desc.primaryKey.map (code row)).flatten) := by
  have hcols : ∀ id ∈ idx.columnIDs, Keyed desc row id := by
    unfold encodeIndexEntry encodeIndexEntryAt at h
    split at h
    · cases h
    obtain ⟨_, hk, _⟩ := Option.bind_eq_some_iff.mp h
    unfold encodeIndexPrefix at hk
    split_ifs at hk
    exact keyed_of_appendColumns (fun id _ => hrow.ofType id) hk
  rw [encodeIndexEntry, encodeIndexEntryAt_keyed idx.id hcols hpk] at h
  cases h
  refine ⟨?_, rfl, fun hunique => if_pos hunique⟩
  unfold IndexDescriptor.keyColumns
  split_ifs
  · exact hcols
  · exact forall_mem_append.mpr ⟨hcols, hpk⟩

end Encode

/-! ### From an entry back to its row -/

variable {rest : Key}

variable {desc : TableDescriptor}

theorem skipColumns_row (rest : Key) (hkeyed : ∀ id ∈ ids, Keyed desc row id) :
    skipColumns desc ((ids.map (code row)).flatten ++ rest) ids =
      if ids.all row.readable = true then some rest else none := by
  induction ids with
  | nil => rfl
  | cons id ids ih =>
    obtain ⟨hid, hrest⟩ := forall_mem_cons.mp hkeyed
    obtain ⟨col, v, hcol, hv, hfam, hcode⟩ := hid.value
    have hread : row.readable id = v.readable := by simp only [Row.readable, hv]
    rw [map_cons, flatten_cons, append_assoc, skipColumns, hcol, Option.bind_eq_bind,
      Option.bind_some, ← hfam, skipDatum_keyCode hcode, all_cons, hread]
    cases v.readable with
    | true => exact ih hrest
    | false => rfl

theorem decodeColumns_row (h : ∀ id ∈ ids, Keyed desc row id) :
    decodeColumns desc (ids.map (code row)).flatten ids =
      if ids.all row.readable = true then some (ids.map row) else none := by
  induction ids with
  | nil => rfl
  | cons id ids ih =>
    obtain ⟨hid, hrest⟩ := forall_mem_cons.mp h
    obtain ⟨col, v, hcol, hv, hfam, hcode⟩ := hid.value
    have hread : row.readable id = v.readable := by simp only [Row.readable, hv]
    rw [map_cons, flatten_cons, decodeColumns, hcol, Option.bind_eq_bind, Option.bind_some, ← hfam,
      decodeKeyDatum_keyCode hcode, all_cons, hread]
    cases v.readable with
    | true =>
      simp only [if_true, Option.bind_eq_bind, Option.bind_some, ih hrest, Bool.true_and,
        map_cons, hv]
      split <;> rfl
    | false => rfl

theorem decodePK_row (h : ∀ id ∈ desc.primaryKey, Keyed desc row id) :
    decodePK desc (primaryKeyPrefixFor desc ++ (desc.primaryKey.map (code row)).flatten) =
      if desc.primaryKey.all row.readable = true then some (desc.primaryKey.map row) else none := by
  rw [decodePK, if_pos ( isPrefixOf_iff_prefix.mpr (prefix_append ..)), drop_left,
    decodeColumns_row h]

theorem indexEntryPrimaryKey_words (idx : IndexDescriptor)
    (hkeyed : ∀ id ∈ idx.columnIDs, Keyed desc row id) (value : Key) : indexEntryPrimaryKey desc idx
        (tableIndexPrefix desc.id idx.id ++ ((idx.keyColumns desc).map (code row)).flatten) value =
      if idx.unique = true then some (primaryKeyPrefixFor desc ++ value)
      else if idx.columnIDs.all row.readable = true then
        some (primaryKeyPrefixFor desc ++ (desc.primaryKey.map (code row)).flatten)
      else none := by
  unfold indexEntryPrimaryKey IndexDescriptor.keyColumns
  by_cases hunique : idx.unique = true
  · rw [if_pos hunique, if_pos hunique]
  rw [if_neg hunique, if_neg hunique, if_neg hunique,
    if_pos ( isPrefixOf_iff_prefix.mpr (prefix_append ..)), drop_left, map_append,
    flatten_append, skipColumns_row _ hkeyed]
  split_ifs <;> rfl

theorem indexEntryPrimaryKey_eq {convert : Datum → Family → Option Datum} {key value pk : Key}
    (hrow : row.Conforms desc) (hpk : ∀ id ∈ desc.primaryKey, Keyed desc row id)
    (hentry : encodeIndexEntry convert desc idx row = some (.entry key value))
    (h : indexEntryPrimaryKey desc idx key value = some pk) :
    pk = primaryKeyPrefixFor desc ++ (desc.primaryKey.map (code row)).flatten := by
  obtain ⟨hkeyed, rfl, hvalue⟩ := encodeIndexEntry_eq hrow hpk hentry
  have hcols : ∀ id ∈ idx.columnIDs, Keyed desc row id := by
    intro id hid
    apply hkeyed
    unfold IndexDescriptor.keyColumns
    split_ifs
    · exact hid
    · exact mem_append_left _ hid
  rw [indexEntryPrimaryKey_words idx hcols] at h
  split_ifs at h with hunique
  · rw [← hvalue hunique]
    exact (Option.some.inj h).symm
  · exact (Option.some.inj h).symm

end Datax
