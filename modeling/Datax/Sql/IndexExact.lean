import Datax.Shared.Runs
import Datax.Sql.DmlOutcome

/-!
# Indexes stay exact

The entries of every index are those of the stored rows. A statement moves the entries of
each row it changes from the row as it was to the row as it becomes, so the indexes stay
exact as long as no row is changed twice and no two rows are given one unique entry.
-/

namespace Datax.Dml

open List Change Option

variable {V : Type} [DecidableEq V]

/-- The entries of every index are those of the stored rows, which lie under their keys. -/
structure Exact (schema : Schema V) (db : DB V) : Prop where
  keyed : ∀ t ∈ schema.tables, ∀ k row, db.row (t.id, k) = some row → t.pkKey row = k
  entries : ∀ t ∈ schema.tables, ∀ idx ∈ t.indexes, ∀ k v, k.table = t.id → k.index = idx.id →
    (db.entries k = some v ↔
      ∃ fr : Fetched V, db.row (t.id, fr.1) = some fr.2 ∧ idx.encodeEntry t fr.2 = some (k, v))

/-- No two stored rows have equal values in the columns of a unique index. -/
def UniqueHolds (schema : Schema V) (db : DB V) : Prop :=
  ∀ t ∈ schema.tables, ∀ idx ∈ t.indexes, idx.unique = true →
    ∀ k k' row row', db.row (t.id, k) = some row →
    db.row (t.id, k') = some row' → ∀ cols, idx.columns.mapM row = some cols →
      idx.columns.mapM row' = some cols → k = k'

/-- The statement changes no row twice and gives no two rows one unique entry. -/
structure Untangled (env : Env V) (stmt : Statement V) : Prop where
  apart : Apart env (ownChanges env stmt)
  entries : ∀ p q ch ch', Chain env (ownChanges env stmt) p ch →
    Chain env (ownChanges env stmt) q ch' → p ≠ q →
    ∀ row row' idx idx' e e', ch.new = some row → ch'.new = some row' → idx ∈ ch.table.indexes →
      idx' ∈ ch'.table.indexes → idx.unique = true → idx.encodeEntry ch.table row = some e →
      idx'.encodeEntry ch'.table row' = some e' → e.1 ≠ e'.1

/-! ### Entries of rows -/

variable {e' : EntryKey V × EntryVal V} {e : EntryKey V × EntryVal V}

section Entry
variable {t : Table V} {idx : Index} {row row' : Row V}

omit [DecidableEq V] in
theorem encodeEntry_eq_some (h : idx.encodeEntry t row = some e) :
    e.1.table = t.id ∧ e.1.index = idx.id ∧ idx.columns.mapM row = some e.1.columns ∧
      (idx.unique = true → e.1.suffix = none ∧ e.2 = .pk (t.pkKey row)) ∧
      (idx.unique = false → e.1.suffix = some (t.pkKey row) ∧ e.2 = .present) := by
  obtain ⟨cols, hcols, rfl⟩ := map_eq_some_iff.mp h
  refine ⟨rfl, rfl, hcols, fun hunique => ?_, fun hunique => ?_⟩ <;> simp [hunique]

omit [DecidableEq V] in
theorem pkKey_of_entry (hunique : idx.unique = false) (h : idx.encodeEntry t row = some e)
    (h' : idx.encodeEntry t row' = some e') (hk : e.1 = e'.1) : t.pkKey row = t.pkKey row' := by
  have hs := ((encodeEntry_eq_some h).2.2.2.2 hunique).1
  have hs' := ((encodeEntry_eq_some h').2.2.2.2 hunique).1
  rw [hk, hs'] at hs
  exact (some.inj hs).symm

omit [DecidableEq V] in
theorem entry_eq (hpk : t.pkKey row = t.pkKey row') (h : idx.encodeEntry t row = some e)
    (h' : idx.encodeEntry t row' = some e') (hk : e.1 = e'.1) : e = e' := by
  refine Prod.ext hk ?_
  obtain ⟨_, _, _, hu, hn⟩ := encodeEntry_eq_some h
  obtain ⟨_, _, _, hu', hn'⟩ := encodeEntry_eq_some h'
  cases hunique : idx.unique with
  | true => rw [(hu hunique).2, (hu' hunique).2, hpk]
  | false => rw [(hn hunique).2, (hn' hunique).2]

theorem keepsEntry_iff : keepsEntry t idx row row' = true ↔
    ∃ e e', idx.encodeEntry t row = some e ∧ idx.encodeEntry t row' = some e' ∧ e.1 = e'.1 := by
  unfold keepsEntry
  split
  · rename_i o n ho hn
    rw [beq_iff_eq]
    constructor
    · intro heq
      exact ⟨o, n, ho, hn, heq⟩
    · rintro ⟨e, e', he, he', heq⟩
      cases ho.symm.trans he
      cases hn.symm.trans he'
      exact heq
  · rename_i hno
    constructor
    · simp
    · rintro ⟨e, e', he, he', _⟩
      exact absurd he' (hno e e' he)

end Entry

/-! ### The entry writes of a change -/

namespace Change
variable {ch : Change V}

@[mk_iff] structure Puts (ch : Change V) (idx : Index) (row : Row V)
    (en : EntryKey V × EntryVal V) : Prop where
  index : idx ∈ ch.table.indexes
  new : ch.new = some row
  entry : idx.encodeEntry ch.table row = some en
  moved : ¬ ch.Keeps idx

@[mk_iff] structure Drops (ch : Change V) (idx : Index) (fr : Fetched V)
    (en : EntryKey V × EntryVal V) : Prop where
  index : idx ∈ ch.table.indexes
  old : ch.old = some fr
  entry : idx.encodeEntry ch.table fr.2 = some en
  moved : ¬ ch.Keeps idx

theorem mem_batch_entries {w : EntryWrite V} : w ∈ ch.batch.entries ↔
    (∃ idx fr en, ch.Drops idx fr en ∧ w = (en.1, none)) ∨ ∃ idx row en, ch.Puts idx row en ∧
      w = (en.1, some en.2) := by
  obtain ⟨t, old, new, exempt⟩ := ch
  simp only [puts_iff, drops_iff, Keeps]
  cases old with
  | none =>
    cases new with
    | none => simp [batch]
    | some row =>
      change w ∈ addedEntries t row ↔ _
      simp [mem_addedEntries, and_assoc]
  | some fr =>
    cases new with
    | none =>
      change w ∈ droppedEntries t fr.2 ↔ _
      simp [mem_droppedEntries, and_assoc]
    | some row =>
      simp only [batch]
      split
      · rename_i hkey
        change w ∈ movedEntries t fr.2 row ↔ _
        simp only [movedEntries, mem_flatMap, mem_ite_nil_left, mem_append, List.mem_map,
          mem_toList, some.injEq, ↓existsAndEq, hkey, true_and, exists_eq_left']
        constructor
        · rintro ⟨idx, hidx, hkeep, ⟨e, he, rfl⟩ | ⟨e, he, rfl⟩⟩
          · exact .inl ⟨idx, e, ⟨hidx, he, hkeep⟩, rfl⟩
          · exact .inr ⟨idx, e, ⟨hidx, he, hkeep⟩, rfl⟩
        · rintro (⟨idx, e, ⟨hidx, he, hkeep⟩, rfl⟩ | ⟨idx, e, ⟨hidx, he, hkeep⟩, rfl⟩)
          · exact ⟨idx, hidx, hkeep, .inl ⟨e, he, rfl⟩⟩
          · exact ⟨idx, hidx, hkeep, .inr ⟨e, he, rfl⟩⟩
      · rename_i hkey
        change w ∈ droppedEntries t fr.2 ++ addedEntries t row ↔ _
        simp [mem_addedEntries, mem_droppedEntries, hkey, and_assoc]

end Change

/-! ### The entries after a statement -/

variable {t : Table V}

section Statement
variable {env : Env V} {stmt : Statement V} {log : Log V} {st : Cascade V}

theorem index_eq (ht : t ∈ env.schema.tables) {idx idx' : Index} (hidx : idx ∈ t.indexes)
    (hidx' : idx' ∈ t.indexes) (hid : idx.id = idx'.id) : idx = idx' :=
  inj_on_of_nodup_map (env.schema.indexIDs t ht) hidx hidx' hid

variable {fr : Fetched V}

theorem stored_eq (hexact : Exact env.schema env.db) (ht : t ∈ env.schema.tables) {idx : Index}
    (hidx : idx ∈ t.indexes) {fr' : Fetched V} (hrow : env.db.row (t.id, fr.1) = some fr.2)
    (hrow' : env.db.row (t.id, fr'.1) = some fr'.2) (he : idx.encodeEntry t fr.2 = some e)
    (he' : idx.encodeEntry t fr'.2 = some e') (hk : e.1 = e'.1) : fr = fr' := by
  have hpk := hexact.keyed t ht fr.1 fr.2 hrow
  have hpk' := hexact.keyed t ht fr'.1 fr'.2 hrow'
  have hkey : fr.1 = fr'.1 := by
    rw [← hpk, ← hpk']
    cases hunique : idx.unique with
    | false => exact pkKey_of_entry hunique he he' hk
    | true =>
      obtain ⟨htable, hindex, _⟩ := encodeEntry_eq_some he
      have hin := (hexact.entries t ht idx hidx e.1 e.2 htable hindex).mpr ⟨fr, hrow, he⟩
      have hin' :=
        (hexact.entries t ht idx hidx e.1 e'.2 htable hindex).mpr ⟨fr', hrow', by rw [he', hk]⟩
      have hval := some.inj (hin.symm.trans hin')
      rw [((encodeEntry_eq_some he).2.2.2.1 hunique).2,
        ((encodeEntry_eq_some he').2.2.2.1 hunique).2] at hval
      exact EntryVal.pk.inj hval
  rw [hkey, hrow'] at hrow
  exact Prod.ext hkey (some.inj hrow).symm

variable {e : List (Step V) × Change V} {en : EntryKey V × EntryVal V}

variable {e' : List (Step V) × Change V} {idx idx' : Index} {row row' : Row V}

theorem put_free (hexact : Exact env.schema env.db) (hchecked : Checked env log e.2)
    (hput : e.2.Puts idx row en) :
    env.db.entries en.1 = none := by
  cases hunique : idx.unique with
  | true =>
    obtain ⟨en', hen', hfree⟩ := hchecked.entries row hput.new idx hput.index hunique hput.moved
    cases hput.entry.symm.trans hen'
    exact hfree
  | false =>
    rw [eq_none_iff_forall_ne_some]
    intro v hv
    obtain ⟨htable, hindex, _⟩ := encodeEntry_eq_some hput.entry
    obtain ⟨fr, hrow, hfr⟩ :=
      (hexact.entries _ hchecked.table idx hput.index en.1 v htable hindex).mp hv
    have hpk := pkKey_of_entry hunique hfr hput.entry rfl
    rw [hexact.keyed _ hchecked.table fr.1 fr.2 hrow] at hpk
    have hold := old_of_key hchecked hrow (mem_keys.mpr (.inr ⟨row, hput.new, by rw [hpk]⟩))
    exact hput.moved
      ⟨fr, row, hold, hput.new, hpk.symm, keepsEntry_iff.mpr ⟨_, _, hfr, hput.entry, rfl⟩⟩

theorem put_once (hcond : Untangled env stmt) (hcarried : Carried env (ownChanges env stmt) log)
    {en' : EntryKey V × EntryVal V} (he : e ∈ log) (he' : e' ∈ log) (hput : e.2.Puts idx row en)
    (hput' : e'.2.Puts idx' row' en') (hk : en.1 = en'.1) : en = en' := by
  have htable := (hcarried.checked e he).table
  have htable' := (hcarried.checked e' he').table
  obtain ⟨hidx, hnew, hen, _⟩ := hput
  obtain ⟨hidx', hnew', hen', _⟩ := hput'
  obtain ⟨hent, heni, _⟩ := encodeEntry_eq_some hen
  obtain ⟨hent', heni', _⟩ := encodeEntry_eq_some hen'
  have htt : e.2.table = e'.2.table := Schema.eq_of_id htable htable' (by rw [← hent, ← hent', hk])
  have hsame : e = e' := by
    cases hunique : idx.unique with
    | true =>
      have hpath : e.1 = e'.1 := by
        by_contra hne
        exact hcond.entries _ _ _ _ (hcarried.chains e he) (hcarried.chains e' he') hne row row' idx
          idx' en en' hnew
          hnew' hidx hidx' hunique hen hen' hk
      have hchain := hcarried.chains e he
      rw [hpath] at hchain
      exact Prod.ext hpath (hchain.unique (hcarried.chains e' he'))
    | false =>
      have hmem := mem_keys.mpr (.inr ⟨row', hnew', rfl⟩)
      rw [← htt] at hidx' hen' hmem
      cases index_eq htable hidx hidx' (by rw [← heni, ← heni', hk])
      rw [← pkKey_of_entry hunique hen hen' hk] at hmem
      exact eq_of_key hcond.apart hcarried.chains he he' (mem_keys.mpr (.inr ⟨row, hnew, rfl⟩)) hmem
  cases hsame
  cases hnew.symm.trans hnew'
  cases index_eq htable hidx hidx' (by rw [← heni, ← heni', hk])
  exact some.inj (hen.symm.trans hen')

theorem Exact.found (hexact : Exact env.schema env.db) (hchecked : Checked env log e.2)
    (hdrop : e.2.Drops idx fr en) :
    env.db.entries en.1 = some en.2 := by
  obtain ⟨hent, heni, _⟩ := encodeEntry_eq_some hdrop.entry
  exact (hexact.entries _ hchecked.table idx hdrop.index en.1 en.2 hent heni).mpr
    ⟨fr, hchecked.stored fr hdrop.old, hdrop.entry⟩

theorem entry_written (hexact : Exact env.schema env.db) (hcond : Untangled env stmt)
    (hcarried : Carried env (ownChanges env stmt) log)
    (hlog : Logged env (ownChanges env stmt) st log) (he : e ∈ log) (hput : e.2.Puts idx row en) :
    (env.db.runBatch st.wb).entries en.1 = some en.2 := by
  have hfree := put_free hexact (hcarried.checked e he) hput
  refine Batch.apply_of_agree ?_ ?_
  · exact (hlog.entries _).mpr ⟨e, he, mem_batch_entries.mpr (.inr ⟨idx, row, en, hput, rfl⟩)⟩
  intro w hw hk
  obtain ⟨e', he', hw'⟩ := (hlog.entries w).mp hw
  rcases mem_batch_entries.mp hw' with ⟨idx', fr, en', hdrop, rfl⟩ | ⟨idx', row', en', hput', rfl⟩
  · have hstored := hexact.found (hcarried.checked e' he') hdrop
    simp [show en'.1 = en.1 from hk, hfree] at hstored
  · rw [put_once hcond hcarried he he' hput hput' hk.symm]

theorem entry_kept (hlog : Logged env (ownChanges env stmt) st log) {k : EntryKey V}
    (hput : ∀ e ∈ log, ∀ idx row en, e.2.Puts idx row en → en.1 ≠ k)
    (hdrop : ∀ e ∈ log, ∀ idx fr en, e.2.Drops idx fr en → en.1 ≠ k) :
    (env.db.runBatch st.wb).entries k = env.db.entries k := by
  refine Batch.apply_of_forall_ne ?_
  intro w hw hk
  obtain ⟨e, he, hw⟩ := (hlog.entries w).mp hw
  rcases mem_batch_entries.mp hw with ⟨idx, fr, en, hdrops, rfl⟩ | ⟨idx, row, en, hputs, rfl⟩
  · exact hdrop e he idx fr en hdrops hk
  · exact hput e he idx row en hputs hk

theorem entry_dropped (hlog : Logged env (ownChanges env stmt) st log) (he : e ∈ log)
    (hdrop : e.2.Drops idx fr en)
    (hput : ∀ e ∈ log, ∀ idx row en', e.2.Puts idx row en' → en'.1 ≠ en.1) :
    (env.db.runBatch st.wb).entries en.1 = none := by
  refine Batch.apply_of_agree ?_ ?_
  · exact (hlog.entries _).mpr ⟨e, he, mem_batch_entries.mpr (.inl ⟨idx, fr, en, hdrop, rfl⟩)⟩
  intro w hw hk
  obtain ⟨e', he', hw'⟩ := (hlog.entries w).mp hw
  rcases mem_batch_entries.mp hw' with ⟨_, _, _, _, rfl⟩ | ⟨idx', row, en', hput', rfl⟩
  · rfl
  · exact absurd hk (hput e' he' idx' row en' hput')

theorem stored_entry_kept (hexact : Exact env.schema env.db)
    (hcarried : Carried env (ownChanges env stmt) log) (hlog :
      Logged env (ownChanges env stmt) st log) (ht : t ∈ env.schema.tables) (hidx : idx ∈ t.indexes)
    (hrow : env.db.row (t.id, fr.1) = some fr.2) (hen : idx.encodeEntry t fr.2 = some en)
    (hkept : ∀ e ∈ log, e.2.old = some fr → e.2.table = t → e.2.Keeps idx) :
    (env.db.runBatch st.wb).entries en.1 = some en.2 := by
  obtain ⟨hent, heni, _⟩ := encodeEntry_eq_some hen
  have hstored := (hexact.entries t ht idx hidx en.1 en.2 hent heni).mpr ⟨fr, hrow, hen⟩
  rw [← hstored]
  refine entry_kept hlog ?_ ?_
  · intro e he idx' row en' hput hk
    have hfree := put_free hexact (hcarried.checked e he) hput
    simp [hk, hstored] at hfree
  · rintro e he idx' fr' en' ⟨hidx', hold, hen', hkeeps⟩ hk
    have hchecked := hcarried.checked e he
    obtain ⟨hent', heni', _⟩ := encodeEntry_eq_some hen'
    cases Schema.eq_of_id hchecked.table ht (by rw [← hent', ← hent, hk])
    cases index_eq ht hidx' hidx (by rw [← heni', ← heni, hk])
    cases stored_eq hexact ht hidx (hchecked.stored fr' hold) hrow hen' hen hk
    exact hkeeps (hkept e he hold rfl)

theorem exact_after (hexact : Exact env.schema env.db) (hcond : Untangled env stmt) {db : DB V}
    (h : execute env stmt = .ok db) : Exact env.schema db := by
  obtain ⟨log, st, hcarried, hlog, _, rfl⟩ := execute_carried hexact.keyed hcond.apart h
  constructor
  · intro t ht k row hrow
    rcases row_cases hcond.apart hlog hrow with ⟨e, he, _, hkey⟩ | ⟨hold, _⟩
    · cases Schema.eq_of_id ht (hcarried.checked e he).table (Prod.mk.inj hkey).1
      exact (Prod.mk.inj hkey).2.symm
    · exact hexact.keyed t ht k row hold
  · intro t ht idx hidx k v htable hindex
    constructor
    · intro hentry
      by_cases hput : ∀ e ∈ log, ∀ idx row en, e.2.Puts idx row en → en.1 ≠ k
      · have hdrop : ∀ e ∈ log, ∀ idx fr en, e.2.Drops idx fr en → en.1 ≠ k := by
          rintro e he idx' fr en hdrops rfl
          have hgone := entry_dropped hlog he hdrops hput
          simp [hentry] at hgone
        rw [entry_kept hlog hput hdrop] at hentry
        obtain ⟨fr, hrow, hen⟩ := (hexact.entries t ht idx hidx k v htable hindex).mp hentry
        by_cases hk : ∃ e ∈ log, (t.id, fr.1) ∈ e.2.keys
        · -- The row is changed and keeps its entry.
          obtain ⟨e, he, hk⟩ := hk
          have hchecked := hcarried.checked e he
          have hid : t.id = e.2.table.id := by
            rcases mem_keys.mp hk with ⟨_, _, hkey⟩ | ⟨_, _, hkey⟩ <;> exact (Prod.mk.inj hkey).1
          cases Schema.eq_of_id ht hchecked.table hid
          have hold := old_of_key hchecked hrow hk
          by_cases hkeeps : e.2.Keeps idx
          · obtain ⟨fr', row, hold', hnew, hpk, hkeep⟩ := hkeeps
            cases hold.symm.trans hold'
            obtain ⟨en₀, en₁, hen₀, hen₁, hkk⟩ := keepsEntry_iff.mp hkeep
            have hsame : en₁ = en₀ :=
              entry_eq (by rw [hpk, hexact.keyed _ ht fr.1 fr.2 hrow]) hen₁ hen₀ hkk.symm
            rw [hsame, ← hen₀, hen] at hen₁
            exact ⟨(e.2.table.pkKey row, row), row_written hcond.apart hlog he hnew, hen₁⟩
          · exact absurd rfl (hdrop e he idx fr _ ⟨hidx, hold, hen, hkeeps⟩)
        · refine ⟨fr, ?_, hen⟩
          rw [row_kept hlog fun e he hin => hk ⟨e, he, hin⟩]
          exact hrow
      · simp only [not_forall, not_not] at hput
        obtain ⟨e, he, idx', row, en, hput, rfl⟩ := hput
        obtain ⟨hent, heni, _⟩ := encodeEntry_eq_some hput.entry
        cases Schema.eq_of_id ht (hcarried.checked e he).table (htable.symm.trans hent)
        cases index_eq ht hidx hput.index (hindex.symm.trans heni)
        have hwritten := entry_written hexact hcond hcarried hlog he hput
        rw [hentry] at hwritten
        cases hwritten
        exact ⟨(e.2.table.pkKey row, row), row_written hcond.apart hlog he hput.new, hput.entry⟩
    · rintro ⟨fr, hrow, hen⟩
      rcases row_cases hcond.apart hlog hrow with ⟨e, he, hnew, hkey⟩ | ⟨hold, hfree⟩
      · cases Schema.eq_of_id ht (hcarried.checked e he).table (Prod.mk.inj hkey).1
        by_cases hkeeps : e.2.Keeps idx
        · obtain ⟨fr₀, row, hold, hnew', hpk, hkeep⟩ := id hkeeps
          cases hnew.symm.trans hnew'
          obtain ⟨en₀, en₁, hen₀, hen₁, hk⟩ := keepsEntry_iff.mp hkeep
          cases hen.symm.trans hen₁
          have hstored := (hcarried.checked e he).stored fr₀ hold
          have hsame : en₀ = (k, v) :=
            entry_eq (by rw [hpk, hexact.keyed _ ht fr₀.1 fr₀.2 hstored]) hen₀ hen₁ hk
          rw [hsame] at hen₀
          refine stored_entry_kept hexact hcarried hlog ht hidx hstored hen₀ ?_
          intro e' he' hold' htt
          have hmem : (e.2.table.id, fr₀.1) ∈ e'.2.keys :=
            mem_keys.mpr (.inl ⟨fr₀, hold', by rw [htt]⟩)
          cases eq_of_key hcond.apart hcarried.chains he he'
            (mem_keys.mpr (.inl ⟨fr₀, hold, rfl⟩)) hmem
          exact hkeeps
        · exact entry_written hexact hcond hcarried hlog he ⟨hidx, hnew, hen, hkeeps⟩
      · refine stored_entry_kept hexact hcarried hlog ht hidx hold hen ?_
        intro e he hold' htt
        refine absurd (mem_keys.mpr (.inl ⟨fr, hold', ?_⟩)) (hfree e he)
        rw [htt]

end Statement

/-! ### Runs of statements -/

theorem Exact.unique {schema : Schema V} {db : DB V} (hexact : Exact schema db) :
    UniqueHolds schema db := by
  intro t ht idx hidx hunique k k' row row' hrow hrow' cols hcols hcols'
  have hentry : ∀ {r : Row V}, idx.columns.mapM r = some cols →
      idx.encodeEntry t r = some (⟨t.id, idx.id, cols, none⟩, .pk (t.pkKey r)) := by
    intro r hr
    unfold Index.encodeEntry
    rw [hr, hunique]
    rfl
  have h := (hexact.entries t ht idx hidx _ _ rfl rfl).mpr ⟨(k, row), hrow, hentry hcols⟩
  have h' := (hexact.entries t ht idx hidx _ _ rfl rfl).mpr ⟨(k', row'), hrow', hentry hcols'⟩
  have hpk := EntryVal.pk.inj (some.inj (h.symm.trans h'))
  rw [← hexact.keyed t ht k row hrow, ← hexact.keyed t ht k' row' hrow', hpk]

def Env.over (env : Env V) (db : DB V) : Env V := { env with db := db }

def stepStatement (env : Env V) (db : DB V) (stmt : Statement V) : Option (DB V) :=
  (execute (env.over db) stmt).toOption

theorem exact_empty (schema : Schema V) : Exact schema (DB.empty : DB V) := by
  constructor
  · intro t _ k row hrow
    cases hrow
  intro t _ idx _ k v _ _
  constructor
  · intro h
    cases h
  · rintro ⟨fr, hrow, _⟩
    cases hrow

/-- From the empty store on, the indexes are exact and unique indexes unique as long as no
statement changes a row twice or gives two rows one unique entry. -/
theorem indexes_exact (env : Env V) {stmts : List (Statement V)} {db : DB V}
    (hcond : Runs.Guarded (stepStatement env) (fun db stmt => Untangled (env.over db) stmt)
      DB.empty stmts)
    (hrun : Runs.run (stepStatement env) DB.empty stmts = some db) :
    Exact env.schema db ∧ UniqueHolds env.schema db := by
  have hexact : Exact env.schema db := by
    refine Runs.invariant_of_run (I := Exact env.schema) ?_ (exact_empty _) hcond hrun
    intro db stmt db' hexact huntangled hstep
    have hstore : Exact (env.over db).schema (env.over db).db := hexact
    exact exact_after hstore huntangled (Fallible.ok_of_toOption hstep)
  exact ⟨hexact, hexact.unique⟩

theorem untangled_insert_one (env : Env V) (table : TableID) (row : Row V) :
    Untangled env (.insert table [row]) where
  apart := apart_insert fun t _ => nodup_singleton _
  entries := by
    intro p q ch ch' hp hq hne
    obtain ⟨i, _, _, rfl, _, _, hi⟩ := chain_of_insert hp
    obtain ⟨j, _, _, rfl, _, _, hj⟩ := chain_of_insert hq
    obtain ⟨hi, _⟩ := List.getElem?_eq_some_iff.mp hi
    obtain ⟨hj, _⟩ := List.getElem?_eq_some_iff.mp hj
    rw [length_singleton] at hi hj
    exact absurd (by rw [show i = j by omega]) hne

/-! ### A row that is updated twice -/

namespace Upsert

def table : Table Nat where
  id := 1
  primaryKey := [0]
  notNull := [0]
  indexes := [{ id := 2, unique := true, columns := [1] }]
  fks := []
  inboundFKs := []
  checks := fun _ => true

def env : Env Nat where
  schema :=
    { tables := [table], tableIDs := by decide, indexIDs := by decide
      fkIDs := by decide, arity := by decide
      inbound := by decide, inboundOnly := by decide, inboundTables := by decide }
  db := DB.empty
  fkCascadeLimit := 10000
  arrange := fun _ _ rows => rows
  arranged := arranged_stored

def row (id u : Nat) : Row Nat := fun c => [id, u][c]?

/-- `INSERT INTO t VALUES (2, 10), (3, 10) ON CONFLICT (u) DO UPDATE SET u = excluded.id`. -/
def twice : Statement Nat := .insertOnConflict 1 [row 2 10, row 3 10] (.index 2)
  (.doUpdate (fun _ _ => some true) [(1, fun _ excluded => some (excluded 0))])

def firstEntry : EntryKey Nat := ⟨1, 2, [2], none⟩

def leavesEntry (db : DB Nat) : Bool :=
  decide (db.entries firstEntry = some (.pk [some 1])) && (db.scan 1).all fun fr =>
    decide (fr.2 1 = some 3)

/-- Both updates start from the row as it was: the entry of the first one stays. -/
theorem twice_leaves_entry :
    ∃ db, Runs.run (stepStatement env) DB.empty [.insert 1 [row 1 10], twice] = some db ∧
      ¬ Exact env.schema db := by
  refine Runs.exists_of_run (fun db => leavesEntry db = true) (by decide +kernel) fun db _ htest
    hexact => ?_
  obtain ⟨hentry, hrows⟩ := Bool.and_eq_true_iff.mp htest
  obtain ⟨fr, hrow, hen⟩ :=
    (hexact.entries table mem_cons_self { id := 2, unique := true, columns := [1] }
    mem_cons_self firstEntry _ rfl rfl).mp (of_decide_eq_true hentry)
  have hu := of_decide_eq_true (all_eq_true.mp hrows fr (DB.mem_scan.mpr hrow))
  have hcols := (encodeEntry_eq_some hen).2.2.1
  rw [mapM_cons, hu, mapM_nil] at hcols
  exact absurd hcols (by decide)

theorem two_inserts_exact : ∃ db,
    Runs.run (stepStatement env) DB.empty [.insert 1 [row 1 10], .insert 1 [row 2 20]] = some db ∧
      (db.scan 1).length = 2 ∧ Exact env.schema db ∧ UniqueHolds env.schema db := by
  refine Runs.exists_of_run (fun db => (db.scan 1).length = 2) (by decide +kernel) fun db
    hrun htest => ?_
  refine ⟨htest, indexes_exact env ?_ hrun⟩
  exact ⟨untangled_insert_one _ _ _, fun _ _ => ⟨untangled_insert_one _ _ _, fun _ _ => trivial⟩⟩

end Upsert

end Datax.Dml
