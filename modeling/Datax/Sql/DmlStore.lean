import Datax.Shared.Fallible
import Datax.Shared.Keyed
import Datax.Sql.Dml

/-!
# What the store holds after a batch

The rows and entries after a batch are read key by key. Where all writes of a batch to a key
agree, the key holds what they say.
-/

namespace Datax.Dml

open AList Option List

variable {V : Type}

/-! ### Tables by their ID -/

variable {schema : Schema V} {t : Table V}

theorem Schema.mem_of_table {id : TableID} (h : schema.table id = some t) :
    t ∈ schema.tables ∧ t.id = id := by
  have hid := find?_some h
  exact ⟨mem_of_find?_eq_some h, beq_iff_eq.mp hid⟩

theorem Schema.table_of_mem (h : t ∈ schema.tables) : schema.table t.id = some t :=
  Keyed.find?_of_nodup schema.tableIDs h

theorem Schema.eq_of_id {t' : Table V} (ht : t ∈ schema.tables) (ht' : t' ∈ schema.tables)
    (hid : t.id = t'.id) : t = t' :=
  inj_on_of_nodup_map schema.tableIDs ht ht' hid

variable [DecidableEq V]

/-! ### Rows after a batch -/

variable {fr : Fetched V}

namespace DB

theorem lookup_writeRow (rows : AList fun _ : RowKey V => Row V) (w : RowKey V × Option (Row V)) :
    (fun k => (writeRow rows w).lookup k) = Function.update (fun k => rows.lookup k) w.1 w.2 := by
  funext k
  unfold writeRow
  by_cases hk : k = w.1
  · subst hk
    rw [Function.update_self]
    split
    · rename_i row hrow
      rw [lookup_insert, hrow]
    · rename_i hrow
      rw [lookup_erase, hrow]
  · rw [Function.update_of_ne hk]
    split
    · exact lookup_insert_ne hk
    · exact lookup_erase_ne hk

theorem row_runBatch (db : DB V) (wb : WriteBatch V) (k : RowKey V) :
    (db.runBatch wb).row k = Batch.apply db.row wb.rows k := by
  have hall : ∀ rows : AList fun _ : RowKey V => Row V,
      (fun k => (wb.rows.foldl writeRow rows).lookup k) =
        Batch.apply (fun k => rows.lookup k) wb.rows := by
    induction wb.rows with
    | nil =>
      intro rows
      rfl
    | cons w ws ih =>
      intro rows
      rw [foldl_cons, Batch.apply_cons, ih, lookup_writeRow]
  exact congrFun (hall db.rows) k

theorem mem_scan {db : DB V} {table : TableID} :
    fr ∈ db.scan table ↔ db.row (table, fr.1) = some fr.2 := by
  unfold scan row
  rw [mem_filterMap, ← mem_def, mem_lookup_iff]
  constructor
  · rintro ⟨⟨⟨t, pk⟩, row⟩, hmem, he⟩
    obtain ⟨ht, hfr⟩ := ite_none_right_eq_some.mp he
    subst ht
    cases hfr
    exact hmem
  · intro hmem
    exact ⟨_, hmem, if_pos rfl⟩

theorem scan_keys_nodup (db : DB V) (table : TableID) : ((db.scan table).map Prod.fst).Nodup := by
  have hkeys : db.rows.entries.Pairwise fun a b => a.1 ≠ b.1 := pairwise_map.mp db.rows.nodupKeys
  refine pairwise_map.mpr (pairwise_filterMap.mpr (hkeys.imp ?_))
  intro a b hab fr hfr fr' hfr' heq
  obtain ⟨ha, hfr⟩ := ite_none_right_eq_some.mp hfr
  obtain ⟨hb, hfr'⟩ := ite_none_right_eq_some.mp hfr'
  cases hfr
  cases hfr'
  exact hab (Prod.ext (ha.trans hb.symm) heq)

end DB

/-! ### What a fetch returns -/

variable {env : Env V}

theorem mem_matching {cols : List ColumnID} {vals : Tuple V} :
    fr ∈ matching env t cols vals ↔
      env.db.row (t.id, fr.1) = some fr.2 ∧ Row.at fr.2 cols = vals := by
  unfold matching
  rw [(env.arranged _ _ _).mem_iff, mem_filter, DB.mem_scan, decide_eq_true_iff]

theorem matching_keys_nodup (t : Table V) (cols : List ColumnID) (vals : Tuple V) :
    ((matching env t cols vals).map Prod.fst).Nodup := by
  have hperm := (env.arranged t.id cols
    ((env.db.scan t.id).filter fun fr => decide (Row.at fr.2 cols = vals))).map
    Prod.fst
  refine hperm.nodup_iff.mpr ?_
  exact (DB.scan_keys_nodup env.db t.id).sublist (filter_sublist.map Prod.fst)

theorem mem_selected {filter : Row V → Bool} :
    fr ∈ selected env t filter ↔ env.db.row (t.id, fr.1) = some fr.2 ∧ filter fr.2 = true := by
  unfold selected
  rw [mem_filter, (env.arranged _ _ _).mem_iff, DB.mem_scan]

/-! ### The entries of a row -/

variable {w : EntryWrite V}

omit [DecidableEq V] in
theorem mem_addedEntries {row : Row V} : w ∈ addedEntries t row ↔
    ∃ idx ∈ t.indexes, ∃ e, idx.encodeEntry t row = some e ∧ w = (e.1, some e.2) := by
  unfold addedEntries
  simp only [mem_flatMap, List.mem_map, mem_toList, eq_comm]

omit [DecidableEq V] in
theorem mem_droppedEntries {row : Row V} : w ∈ droppedEntries t row ↔
    ∃ idx ∈ t.indexes, ∃ e, idx.encodeEntry t row = some e ∧ w = (e.1, none) := by
  unfold droppedEntries
  simp only [mem_flatMap, List.mem_map, mem_toList, eq_comm]

end Datax.Dml
