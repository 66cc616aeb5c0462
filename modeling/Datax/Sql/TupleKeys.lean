import Mathlib
import Datax.Sql.IndexEntries

/-!
# Primary keys against the tuples they encode

A key orders rows as the primary-key tuples compare, column by column, until two spellings of one
interval meet: comparison goes on to the next column there, and the key does not. A decimal whose
text is not read has no key, and one above the bound has a key that is not read back.
-/

namespace Datax

open Option List PrefixCode Encoding

section Order
variable (convert : Datum → Family → Option Datum) (desc : TableDescriptor) (row row' : Row)

/-- The tuples of the columns `ids`, compared lexicographically. -/
def compareColumns : List ColumnID → Except CompareError Ordering
  | [] => .ok .eq
  | id :: ids =>
    match (row id).compare convert (row' id) with
    | .ok .eq => compareColumns ids
    | o => o

/-- The key is read as the tuple of the row, and that is encoded to the key. -/
def ReadBack (row : Row) (key : Key) : Prop :=
  ∃ ds, decodePK desc key = some ds ∧ encodePK convert desc ds = some key ∧
    List.Forall₂ (fun d id => d.compare convert (row id) = .ok .eq) ds desc.primaryKey

/-- What the primary keys of two rows are to say of their tuples. -/
structure TupleCode (key key' : Key) : Prop where
  order : compareColumns convert row row' desc.primaryKey = .ok (cmp key key')
  equal : key = key' ↔ ∀ id ∈ desc.primaryKey, (row id).compare convert (row' id) = .ok .eq
  whole : key <+: key' → key = key'
  back : ReadBack convert desc row key
  back' : ReadBack convert desc row' key'

/-- Where the rows first differ they do not compare equal, or the columns after are in the order
of the spellings. -/
def OrderedAlike : List ColumnID → Prop
  | [] => True
  | id :: ids =>
    if row id = row' id then OrderedAlike ids
    else (row id).compare convert (row' id) = .ok .eq →
      compareColumns convert row row' ids = .ok (cmp (spelled row id) (spelled row' id))

variable {convert desc row row'} {ids : List ColumnID}

theorem cmp_eq_eq {x y : Key} : cmp x y = .eq ↔ x = y := by
  rcases lt_trichotomy x y with hxy | rfl | hxy
  · simp [cmp, cmpUsing, hxy, hxy.ne]
  · simp [cmp, cmpUsing]
  · simp [cmp, cmpUsing, hxy, hxy.asymm, hxy.ne']

theorem cmp_append {x y : Key} (h : Apart x y) (s t : Key) :
    cmp (x ++ s) (y ++ t) = (cmp x y).then (cmp s t) := by
  have hlt := append_lt_append_iff h s t
  have hgt := append_lt_append_iff h.symm t s
  rcases lt_trichotomy x y with hxy | rfl | hxy
  · simp [cmp, cmpUsing, hlt, hxy]
  · simp [cmp, cmpUsing, hlt, hgt]
  · simp [cmp, cmpUsing, hlt, hgt, hxy, hxy.asymm, hxy.ne']

theorem compareColumns_iff (h : ∀ id ∈ ids, Keyed desc row id)
    (h' : ∀ id ∈ ids, Keyed desc row' id) :
    (compareColumns convert row row' ids =
      .ok (cmp (ids.map (code row)).flatten (ids.map (code row')).flatten) ↔
      OrderedAlike convert row row' ids) ∧
    (compareColumns convert row row' ids = .ok .eq ↔
      ∀ id ∈ ids, (row id).compare convert (row' id) = .ok .eq) := by
  induction ids with
  | nil => exact ⟨iff_of_true rfl trivial, iff_of_true rfl (forall_mem_nil _)⟩
  | cons id ids ih =>
    obtain ⟨hid, hrest⟩ := forall_mem_cons.mp h
    obtain ⟨hid', hrest'⟩ := forall_mem_cons.mp h'
    obtain ⟨hcompare, hsort, hspell⟩ := hid.compare convert hid'
    have hsame : row id = row' id ↔
        sortKey row id = sortKey row' id ∧ spelled row id = spelled row' id := by
      refine ⟨fun heq => by simp only [sortKey, spelled, heq, and_self], fun ⟨hs, hp⟩ => ?_⟩
      refine row_eq_of_code_eq hid hid' ?_
      rw [hid.code_eq, hid'.code_eq, hs, hp]
    rw [map_cons, flatten_cons, map_cons, flatten_cons, hid.code_eq, hid'.code_eq,
      append_assoc, append_assoc, cmp_append hsort, cmp_append hspell, forall_mem_cons,
      compareColumns, OrderedAlike, hcompare]
    simp only [hsame, ← cmp_eq_eq]
    cases cmp (sortKey row id) (sortKey row' id) with
    | eq =>
      refine ⟨?_, by simpa using (ih hrest hrest').2⟩
      cases cmp (spelled row id) (spelled row' id) with
      | eq => simpa using (ih hrest hrest').1
      | lt | gt => simp
    | lt | gt => simp

theorem readBack_iff (h : ∀ id ∈ desc.primaryKey, Keyed desc row id) :
    ReadBack convert desc row
      (primaryKeyPrefixFor desc ++ (desc.primaryKey.map (code row)).flatten) ↔
      desc.primaryKey.all row.readable = true := by
  have hback := decodePK_row h
  constructor
  · rintro ⟨ds, hds, _⟩
    by_contra hread
    simp [hback, hread] at hds
  · intro hread
    refine ⟨desc.primaryKey.map row, by rw [hback, if_pos hread], pkKey_keyed h, ?_⟩
    rw [List.forall₂_map_left_iff, List.forall₂_same]
    intro id hid
    obtain ⟨_, v, _, hv, _, hcode⟩ := (h id hid).value
    rw [hv]
    exact compare_self (by simp [hcode])

section Tuples
variable (h : ∀ id ∈ desc.primaryKey, Keyed desc row id)
  (h' : ∀ id ∈ desc.primaryKey, Keyed desc row' id)
include h h'

theorem tuple_codes_of_keyed :
    (∃ key key', pkKey convert desc row = some key ∧ pkKey convert desc row' = some key' ∧
      TupleCode convert desc row row' key key') ↔
      OrderedAlike convert row row' desc.primaryKey ∧
        desc.primaryKey.all row.readable = true ∧ desc.primaryKey.all row'.readable = true := by
  obtain ⟨halike, heq⟩ := compareColumns_iff h h'
  rw [pkKey_keyed h, pkKey_keyed h']
  have horder :=
    cmp_append (Apart.refl (primaryKeyPrefixFor desc)) (desc.primaryKey.map (code row)).flatten
    (desc.primaryKey.map (code row')).flatten
  rw [cmp_eq_eq.mpr rfl] at horder
  rw [← halike, ← readBack_iff h, ← readBack_iff h']
  constructor
  · rintro ⟨_, _, ⟨⟩, ⟨⟩, hcode⟩
    exact ⟨hcode.order.trans (congrArg _ horder), hcode.back, hcode.back'⟩
  · rintro ⟨hcmp, hback, hback'⟩
    replace hcmp := hcmp.trans (congrArg _ horder.symm)
    refine ⟨_, _, rfl, rfl, hcmp, ?_, ?_, hback, hback'⟩
    · rw [← heq, hcmp, Except.ok.injEq, cmp_eq_eq]
    · rintro ⟨s, hs⟩
      rw [append_assoc] at hs
      rw [(flatten_inj (t := []) ((Keyed.wordsOf h).apart (Keyed.wordsOf h'))
        (by simpa using hs)).1]

end Tuples

theorem keyed_of_pkKey {key : Key} (htyped : ∀ id ∈ desc.primaryKey, Typed desc row id)
    (h : pkKey convert desc row = some key) : ∀ id ∈ desc.primaryKey, Keyed desc row id :=
  (pkKey_eq (fun id hid => (htyped id hid).ofType) h).1

theorem keyed_of_readable (htyped : ∀ id ∈ ids, Typed desc row id)
    (h : ids.all row.readable = true) :
    ∀ id ∈ ids, Keyed desc row id :=
  fun id hid => (htyped id hid).keyed (Row.writable_of_readable (all_eq_true.mp h id hid))

/-- The keys of two rows order them, tell them apart and are read back exactly when every decimal
can be read back and no two spellings of one value go against the columns after them. -/
theorem primary_key_codes_tuple (h : ∀ id ∈ desc.primaryKey, Typed desc row id)
    (h' : ∀ id ∈ desc.primaryKey, Typed desc row' id) :
    (∃ key key', pkKey convert desc row = some key ∧ pkKey convert desc row' = some key' ∧
      TupleCode convert desc row row' key key') ↔
      OrderedAlike convert row row' desc.primaryKey ∧
        desc.primaryKey.all row.readable = true ∧ desc.primaryKey.all row'.readable = true := by
  constructor
  · rintro ⟨key, key', hkey, hkey', hcode⟩
    exact (tuple_codes_of_keyed (keyed_of_pkKey h hkey) (keyed_of_pkKey h' hkey')).mp
      ⟨key, key', hkey, hkey', hcode⟩
  · rintro ⟨halike, hread, hread'⟩
    exact (tuple_codes_of_keyed (keyed_of_readable h hread) (keyed_of_readable h' hread')).mpr
      ⟨halike, hread, hread'⟩

end Order

namespace Durations

/-- '1 mon', 1 comes before '30 days', 2, and its key after. -/
theorem keys_against_tuples :
    compareColumns noConvert (row oneMonth 1) (row thirtyDays 2) table.primaryKey = .ok .lt ∧
      ∃ key key', pkKey noConvert table (row oneMonth 1) = some key ∧
        pkKey noConvert table (row thirtyDays 2) = some key' ∧ key' < key :=
  ⟨by decide +kernel, _, _, rfl, rfl, by decide +kernel⟩

theorem months_coded : ∃ key key', pkKey noConvert table (row oneMonth 1) = some key ∧
    pkKey noConvert table (row oneMonth 2) = some key' ∧
    TupleCode noConvert table (row oneMonth 1) (row oneMonth 2) key key' := by
  have htyped (ts : Int64) : ∀ id ∈ table.primaryKey, Typed table (row oneMonth ts) id :=
    fun id hid => typed_row oneMonth ts id (mem_append_right _ hid)
  refine (primary_key_codes_tuple (htyped 1) (htyped 2)).mpr ⟨?_, by decide, by decide⟩
  have hts : ((row oneMonth 1) 2).compare noConvert ((row oneMonth 2) 2) = .ok .lt := by decide
  simp [OrderedAlike, table, hts, show row oneMonth 1 1 = row oneMonth 2 1 from rfl]

end Durations

end Datax
