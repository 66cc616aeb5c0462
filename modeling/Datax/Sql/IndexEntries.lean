import Datax.Sql.OrderSatisfied

/-!
# From an index entry to its row

The key of an entry is made of the words of the indexed columns and, in a non-unique index, of the
primary key. Two spellings of one interval compare equal and have different words, and the reader
of a decimal refuses an exponent that its writer accepts. A decimal whose text is not read has no
entry at all.
-/

namespace Datax

open List PrefixCode Encoding Key

section Words
variable {convert : Datum → Family → Option Datum} {desc : TableDescriptor} {idx : IndexDescriptor}
  {row row' : Row} {id : ColumnID} {ids : List ColumnID}

theorem words_eq_iff (h : ∀ id ∈ ids, Keyed desc row id)
    (h' : ∀ id ∈ ids, Keyed desc row' id) (k : Key) :
    k ++ (ids.map (code row)).flatten = k ++ (ids.map (code row')).flatten ↔
      ∀ id ∈ ids, row id = row' id := by
  constructor
  · intro heq id hid
    have hflat := append_cancel_left heq
    rw [← append_nil (List.flatten _), ← append_nil (List.flatten (ids.map (code row')))] at hflat
    have hwords := (flatten_inj ((Keyed.wordsOf h).apart (Keyed.wordsOf h')) hflat).1
    exact row_eq_of_code_eq (h id hid) (h' id hid) (map_inj_left.mp hwords id hid)
  · intro heq
    have hwords : ids.map (code row) = ids.map (code row') := by
      apply map_inj_left.mpr
      intro id hid
      unfold code
      rw [heq id hid]
    rw [hwords]

theorem compare_self {v : Scalar} (h : v.keyCode ≠ none) : v.compare v = .ok .eq := by
  rw [Scalar.compare_eq rfl h h]
  simp [cmp, cmpUsing]

end Words

/-! ### Spans of indexes and tables -/

def tableDataPrefix (tableID : UInt64) : Key := tablePrefixByte :: encodeUint64 tableID

theorem encodeUint64_inj {v w : UInt64} (h : encodeUint64 v = encodeUint64 w) : v = w := by
  have hvw := encodeUint64_lt_iff v w
  have hwv := encodeUint64_lt_iff w v
  simp only [h, lt_irrefl, false_iff, UInt64.lt_iff_toNat_lt] at hvw hwv
  exact UInt64.toNat_inj.mp (by omega)

theorem prefix_of_mem_span {bs q : Key}
    (h : q ∈ Set.Ico (tablePrefixByte :: bs) (prefixEnd (tablePrefixByte :: bs))) :
    tablePrefixByte :: bs <+: q :=
  prefix_of_lt_prefixEnd (by decide) h.1 h.2

section Spans
variable {tableID tableID' indexID indexID' : UInt64} {words : Key}

theorem prefix_same_table {x : Key} (h : tablePrefixByte :: encodeUint64 tableID' ++ x <+:
      tableIndexPrefix tableID indexID ++ words) :
    tableID' = tableID ∧ x <+: encodeUint64 indexID ++ words := by
  obtain ⟨s, hs⟩ := h
  simp only [tableIndexPrefix, cons_append, append_assoc, List.cons.injEq, true_and] at hs
  obtain ⟨hid, hrest⟩ := append_inj hs (by rw [length_encodeUint64, length_encodeUint64])
  exact ⟨encodeUint64_inj hid, s, hrest⟩

theorem not_mem_other_table (hne : tableID' ≠ tableID) : tableIndexPrefix tableID indexID ++ words ∉
    Set.Ico (tableDataPrefix tableID') (prefixEnd (tableDataPrefix tableID')) := by
  intro hmem
  have hpre := prefix_of_mem_span hmem
  rw [← append_nil (tablePrefixByte :: _)] at hpre
  exact hne (prefix_same_table hpre).1

theorem not_mem_other_index (hne : (tableID', indexID') ≠ (tableID, indexID)) :
    tableIndexPrefix tableID indexID ++ words ∉
      Set.Ico (tableIndexPrefix tableID' indexID')
        (prefixEnd (tableIndexPrefix tableID' indexID')) := by
  intro hmem
  obtain ⟨rfl, s, hs⟩ := prefix_same_table (prefix_of_mem_span hmem)
  obtain ⟨hid, _⟩ := append_inj hs (by rw [length_encodeUint64, length_encodeUint64])
  exact hne (by rw [encodeUint64_inj hid])

end Spans

/-- What the entries of two rows in an index at `entryID` are to lead to. -/
structure LeadsBack (convert : Datum → Family → Option Datum) (desc : TableDescriptor)
    (idx : IndexDescriptor) (entryID : UInt64) (row row' : Row) (key value key' value' : Key) :
    Prop where
  back : indexEntryPrimaryKey desc { idx with id := entryID } key value = pkKey convert desc row
  back' : indexEntryPrimaryKey desc { idx with id := entryID } key' value' = pkKey convert desc row'
  distinct : idx.unique = false → key = key' → ∀ id ∈ desc.primaryKey, row id = row' id
  unique : idx.unique = true →
    (key = key' ↔ ∀ id ∈ idx.columnIDs, (row id).compare convert (row' id) = .ok .eq)
  otherIndex : ∀ t i, (t, i) ≠ (desc.id, entryID) →
    key ∉ Set.Ico (tableIndexPrefix t i) (prefixEnd (tableIndexPrefix t i))
  otherTable : ∀ t, t ≠ desc.id → key ∉ Set.Ico (tableDataPrefix t) (prefixEnd (tableDataPrefix t))

/-- The decimals of both rows can be written, those in the keys of a non-unique index read back,
and columns of a unique index that compare equal are the same. -/
structure Spelled (convert : Datum → Family → Option Datum) (desc : TableDescriptor)
    (idx : IndexDescriptor) (row row' : Row) : Prop where
  writable : ∀ id ∈ idx.columnIDs ++ desc.primaryKey, row.writable id = true ∧
    row'.writable id = true
  readable : idx.unique = false →
    ∀ id ∈ idx.columnIDs, row.readable id = true ∧ row'.readable id = true
  same : idx.unique = true →
    (∀ id ∈ idx.columnIDs, (row id).compare convert (row' id) = .ok .eq) →
    ∀ id ∈ idx.columnIDs, row id = row' id

section Lead
variable {convert : Datum → Family → Option Datum} {desc : TableDescriptor} {idx : IndexDescriptor}
  {entryID : UInt64} {row row' : Row}

theorem keyed_of_entry {key value : Key}
    (htyped : ∀ id ∈ idx.columnIDs ++ desc.primaryKey, Typed desc row id)
    (h : encodeIndexEntryAt convert desc idx entryID row = some (.entry key value)) :
    ∀ id ∈ idx.columnIDs ++ desc.primaryKey, Keyed desc row id := by
  obtain ⟨hcols, hpk⟩ := forall_mem_append.mp htyped
  unfold encodeIndexEntryAt at h
  split at h
  · cases h
  obtain ⟨_, hk, h⟩ := Option.bind_eq_some_iff.mp h
  obtain ⟨_, hpkEnc, _⟩ := Option.bind_eq_some_iff.mp h
  unfold encodeIndexPrefix at hk
  split_ifs at hk
  exact forall_mem_append.mpr ⟨keyed_of_appendColumns (fun id hid => (hcols id hid).ofType) hk,
    keyed_of_encodePKColumns hpk hpkEnc⟩

theorem back_iff (hrow : ∀ id ∈ idx.columnIDs ++ desc.primaryKey, Keyed desc row id) :
    indexEntryPrimaryKey desc { idx with id := entryID }
        (tableIndexPrefix desc.id entryID ++ ((idx.keyColumns desc).map (code row)).flatten)
        (if idx.unique = true then (desc.primaryKey.map (code row)).flatten
          else nonUniqueIndexValue) =
      pkKey convert desc row ↔
    (idx.unique = false → ∀ id ∈ idx.columnIDs, row.readable id = true) := by
  obtain ⟨hcols, hpk⟩ := forall_mem_append.mp hrow
  have hwords := indexEntryPrimaryKey_words { idx with id := entryID } hcols
  refine (iff_of_eq (congrArg (· = pkKey convert desc row) (hwords _))).trans ?_
  rw [pkKey_keyed hpk]
  cases hunique : idx.unique with
  | true => simp
  | false =>
    rw [forall_prop_of_true rfl, ← all_eq_true]
    cases idx.columnIDs.all row.readable <;> simp

section Entries
variable (hrow : ∀ id ∈ idx.columnIDs ++ desc.primaryKey, Keyed desc row id)
  (hrow' : ∀ id ∈ idx.columnIDs ++ desc.primaryKey, Keyed desc row' id)
include hrow hrow'

theorem leads_back_of_keyed :
    (∃ key value key' value', encodeIndexEntryAt convert desc idx entryID row =
      some (.entry key value) ∧ encodeIndexEntryAt convert desc idx entryID row' =
        some (.entry key' value') ∧
      LeadsBack convert desc idx entryID row row' key value key' value') ↔
    Spelled convert desc idx row row' := by
  obtain ⟨hcols, hpk⟩ := forall_mem_append.mp hrow
  obtain ⟨hcols', hpk'⟩ := forall_mem_append.mp hrow'
  rw [encodeIndexEntryAt_keyed entryID hcols hpk, encodeIndexEntryAt_keyed entryID hcols' hpk']
  have hself (hall : ∀ id ∈ idx.columnIDs, row id = row' id) :
      ∀ id ∈ idx.columnIDs, (row id).compare convert (row' id) = .ok .eq := by
    intro id hid
    obtain ⟨_, v, _, hv, _, hcode⟩ := (hcols id hid).value
    rw [← hall id hid, hv]
    exact compare_self (by rw [hcode]; exact Option.some_ne_none _)
  have hkeys (hunique : idx.unique = true) :
      tableIndexPrefix desc.id entryID ++ ((idx.keyColumns desc).map (code row)).flatten =
        tableIndexPrefix desc.id entryID ++ ((idx.keyColumns desc).map (code row')).flatten ↔
      ∀ id ∈ idx.columnIDs, row id = row' id := by
    rw [IndexDescriptor.keyColumns, if_pos hunique]
    exact words_eq_iff hcols hcols' _
  constructor
  · rintro ⟨_, _, _, _, ⟨⟩, ⟨⟩, h⟩
    refine ⟨fun id hid => ⟨(hrow id hid).writable, (hrow' id hid).writable⟩, ?_, ?_⟩
    · intro hplain id hid
      exact ⟨(back_iff hrow).mp h.back hplain id hid, (back_iff hrow').mp h.back' hplain id hid⟩
    · intro hunique heq
      exact (hkeys hunique).mp ((h.unique hunique).mpr heq)
  · rintro ⟨_, hread, hsame⟩
    refine ⟨_, _, _, _, rfl, rfl, (back_iff hrow).mpr fun hplain id hid => (hread hplain id hid).1,
      (back_iff hrow').mpr fun hplain id hid => (hread hplain id hid).2, ?_, ?_,
      fun t i hne => not_mem_other_index hne, fun t hne => not_mem_other_table hne⟩
    · intro hplain heq id hid
      rw [IndexDescriptor.keyColumns, hplain] at heq
      exact (words_eq_iff hrow hrow' _).mp heq id (mem_append_right _ hid)
    · exact fun hunique => ⟨fun heq => hself ((hkeys hunique).mp heq),
        fun heq => (hkeys hunique).mpr (hsame hunique heq)⟩

end Entries

theorem entries_lead_back (entryID : UInt64)
    (hrow : ∀ id ∈ idx.columnIDs ++ desc.primaryKey, Typed desc row id)
    (hrow' : ∀ id ∈ idx.columnIDs ++ desc.primaryKey, Typed desc row' id) :
    (∃ key value key' value', encodeIndexEntryAt convert desc idx entryID row =
      some (.entry key value) ∧ encodeIndexEntryAt convert desc idx entryID row' =
        some (.entry key' value') ∧
      LeadsBack convert desc idx entryID row row' key value key' value') ↔
    Spelled convert desc idx row row' := by
  -- either way both rows have their entries
  constructor
  · rintro ⟨key, value, key', value', he, he', h⟩
    exact (leads_back_of_keyed (keyed_of_entry hrow he) (keyed_of_entry hrow' he')).mp
      ⟨key, value, key', value', he, he', h⟩
  · intro h
    exact (leads_back_of_keyed (fun id hid => (hrow id hid).keyed (h.writable id hid).1)
      (fun id hid => (hrow' id hid).keyed (h.writable id hid).2)).mpr h

end Lead

namespace Durations

/-- A month and thirty days compare equal in it. -/
def byLength : IndexDescriptor := { id := 2, name := "by_length", unique := true, columnIDs := [1] }

theorem entry_keys_differ :
    ((row oneMonth 1) 1).compare noConvert ((row thirtyDays 2) 1) = .ok .eq ∧ ∃ key value key'
      value', encodeIndexEntry noConvert table byLength (row oneMonth 1) = some (.entry key value) ∧
      encodeIndexEntry noConvert table byLength (row thirtyDays 2) = some (.entry key' value') ∧
      key ≠ key' :=
  ⟨by decide +kernel, _, _, _, _, rfl, rfl, by decide +kernel⟩

theorem typed_row (iv : Interval) (ts : Int64) :
    ∀ id ∈ byLength.columnIDs ++ table.primaryKey, Typed table (row iv ts) id := by
  intro id hid
  obtain rfl | rfl : id = 1 ∨ id = 2 := by simpa [byLength, table] using hid
  · exact ⟨⟨_, _, rfl, rfl, rfl, Family.noConfusion⟩⟩
  · exact ⟨⟨_, _, rfl, rfl, rfl, Family.noConfusion⟩⟩

theorem months_lead_back : ∃ key value key' value',
    encodeIndexEntryAt noConvert table byLength 7 (row oneMonth 1) = some (.entry key value) ∧
      encodeIndexEntryAt noConvert table byLength 7 (row oneMonth 2) = some (.entry key' value') ∧
      LeadsBack noConvert table byLength 7 (row oneMonth 1) (row oneMonth 2) key
        value key' value' := by
  refine (entries_lead_back 7 (typed_row oneMonth 1) (typed_row oneMonth 2)).mpr
    ⟨by decide, fun h => (by cases h), fun _ _ id hid => ?_⟩
  rw [mem_singleton.mp hid]
  rfl

end Durations

end Datax
