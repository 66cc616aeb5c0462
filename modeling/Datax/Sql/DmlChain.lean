import Datax.Sql.DmlEnforce

/-!
# The changes a statement forces

A change of a referenced key forces a change on every row that refers to it, and so on. A chain
leads from one of the statement's own changes to a change that it forces, read off the store
from before the statement.
-/

namespace Datax.Dml

open List Fallible

variable {V : Type} [DecidableEq V]

structure Change (V : Type) where
  table : Table V
  old : Option (Fetched V)
  new : Option (Row V)
  exempt : Option Nat := none

namespace Change

def keys (ch : Change V) : List (RowKey V) :=
  ch.old.toList.map (fun fr => (ch.table.id, fr.1)) ++ ch.new.toList.map fun row =>
    (ch.table.id, ch.table.pkKey row)

def batch (ch : Change V) : WriteBatch V :=
  match ch.old, ch.new with
  | none, none => {}
  | none, some row => putRow ch.table row
  | some fr, none => deleteRow ch.table fr
  | some fr, some row =>
    if ch.table.pkKey row = fr.1 then rewriteInPlace ch.table fr row
    else deleteRow ch.table fr ++ putRow ch.table row

def Keeps (ch : Change V) (idx : Index) : Prop :=
  ∃ fr row, ch.old = some fr ∧ ch.new = some row ∧ ch.table.pkKey row = fr.1 ∧
    keepsEntry ch.table idx fr.2 row = true

end Change

section Forced
variable (env : Env V)

/-- The foreign key behind a reference of the table's list, for a row that gives up the key. -/
structure Touches (ch : Change V) (i : Nat) (fr : Fetched V) (child : Table V) (fk : ForeignKey) :
    Prop where
  old : ch.old = some fr
  ref : ∃ ref, ch.table.inboundFKs[i]? = some ref ∧ env.schema.table ref.tableID = some child ∧
    child.constraintByID ref.constraintID = some fk
  notNull : hasNull (Row.at fr.2 fk.refColumns) = false
  changed : keyChanged fk fr.2 ch.new = true

def forced (ch : Change V) (child : Table V) (fk : ForeignKey) (fr : Fetched V) : Change V :=
  ⟨child, some fr, referencing fk (fkAction fk ch.new) ch.new fr.2, some fk.id⟩

abbrev Step (V : Type) := Nat × Tuple V

def Forces (ch : Change V) (step : Step V) (ch' : Change V) : Prop :=
  ∃ fr child fk fr', Touches env ch step.1 fr child fk ∧ fkAction fk ch.new ≠ .restrict ∧
    fr' ∈ matching env child fk.columns (Row.at fr.2 fk.refColumns) ∧ fr'.1 = step.2 ∧
      ch' = forced ch child fk fr'

inductive Chain (own : List (Change V)) : List (Step V) → Change V → Prop
  | own {i : Nat} {ch : Change V} (h : own[i]? = some ch) : Chain own [(i, [])] ch
  | force {p : List (Step V)} {ch ch' : Change V} {step : Step V} (h : Chain own p ch)
    (hforce : Forces env ch step ch') :
    Chain own (p ++ [step]) ch'

def Apart (own : List (Change V)) : Prop :=
  ∀ p q ch ch', Chain env own p ch → Chain env own q ch' → p ≠ q → ∀ k ∈ ch.keys, k ∉ ch'.keys

abbrev Log (V : Type) := List (List (Step V) × Change V)

/-- The parent row is there, or among the rows the statement has written. -/
def Refers (log : Log V) (row : Row V) (fk : ForeignKey) : Prop :=
  hasNull (Row.at row fk.columns) = true ∨ ∃ parent, env.schema.table fk.refTable = some parent ∧
      ((∃ fr : Fetched V, env.db.row (parent.id, fr.1) = some fr.2 ∧
        Row.at fr.2 fk.refColumns = Row.at row fk.columns) ∨
        fk.refColumns = parent.primaryKey ∧
          ∃ e ∈ log, e.2.table = parent ∧ ∃ row', e.2.new = some row' ∧
          parent.pkKey row' = Row.at row fk.columns)

structure Checked (log : Log V) (ch : Change V) : Prop where
  table : ch.table ∈ env.schema.tables
  stored : ∀ fr, ch.old = some fr → env.db.row (ch.table.id, fr.1) = some fr.2
  fks : ∀ row, ch.new = some row → ∀ fk ∈ ch.table.fks, some fk.id ≠ ch.exempt →
    fkChanged fk (ch.old.map Prod.snd) row = true → Refers env log row fk
  fresh : ∀ row, ch.new = some row → (∀ fr, ch.old = some fr → ch.table.pkKey row ≠ fr.1) →
    env.db.row (ch.table.id, ch.table.pkKey row) = none
  entries : ∀ row, ch.new = some row → ∀ idx ∈ ch.table.indexes, idx.unique = true →
    ¬ ch.Keeps idx →
    ∃ e, idx.encodeEntry ch.table row = some e ∧ env.db.entries e.1 = none

/-- Every row that refers to the changed one is seen to: the change it is forced to make is
logged, or it stands in the way, unless one such row is gone. -/
structure Settled (log : Log V) (p : List (Step V)) (ch : Change V) : Prop where
  forces : ∀ step ch', Forces env ch step ch' → (p ++ [step], ch') ∈ log
  blocks : ∀ i fr child fk, Touches env ch i fr child fk → fkAction fk ch.new = .restrict →
    matching env child fk.columns (Row.at fr.2 fk.refColumns) = [] ∨
      ∃ fr' ∈ matching env child fk.columns (Row.at fr.2 fk.refColumns), ∃ e ∈ log,
        (child.id, fr'.1) ∈ e.2.keys

structure Logged (own : List (Change V)) (st : Cascade V) (log : Log V) : Prop where
  chains : ∀ e ∈ log, Chain env own e.1 e.2
  rows : ∀ w, w ∈ st.wb.rows ↔ ∃ e ∈ log, w ∈ e.2.batch.rows
  entries : ∀ w, w ∈ st.wb.entries ↔ ∃ e ∈ log, w ∈ e.2.batch.entries
  inflight : ∀ k, (st.inflight k).isSome = true → ∃ e ∈ log, k ∈ e.2.keys

end Forced

variable {env : Env V} {own : List (Change V)} {log log' : Log V} {row : Row V} {fk : ForeignKey}

theorem Refers.mono (hsub : log ⊆ log') (h : Refers env log row fk) : Refers env log' row fk := by
  rcases h with hnull | ⟨parent, hparent, hrow | ⟨hpk, e, he, hrest⟩⟩
  · exact .inl hnull
  · exact .inr ⟨parent, hparent, .inl hrow⟩
  · exact .inr ⟨parent, hparent, .inr ⟨hpk, e, hsub he, hrest⟩⟩

variable {ch : Change V}

theorem Checked.mono (hsub : log ⊆ log') (h : Checked env log ch) : Checked env log' ch :=
  { h with
    fks := fun row hrow fk hfk hexempt hchanged =>
      (h.fks row hrow fk hfk hexempt hchanged).mono hsub }

theorem Settled.mono (hsub : log ⊆ log') {p : List (Step V)} (h : Settled env log p ch) :
    Settled env log' p ch where
  forces := fun step ch' hforce => hsub (h.forces step ch' hforce)
  blocks := by
    intro i fr child fk htouch haction
    rcases h.blocks i fr child fk htouch haction with hnil | ⟨fr', hfr', e, he, hk⟩
    · exact .inl hnil
    · exact .inr ⟨fr', hfr', e, hsub he, hk⟩

variable {st : Cascade V} {st' : Cascade V}

theorem Logged.append {more : Log V} (h : Logged env own st log)
    (hchains : ∀ e ∈ more, Chain env own e.1 e.2)
    (hrows : ∀ w, w ∈ st'.wb.rows ↔ w ∈ st.wb.rows ∨ ∃ e ∈ more, w ∈ e.2.batch.rows)
    (hentries : ∀ w, w ∈ st'.wb.entries ↔ w ∈ st.wb.entries ∨ ∃ e ∈ more, w ∈ e.2.batch.entries)
    (hinflight : ∀ k, (st'.inflight k).isSome = true →
      (st.inflight k).isSome = true ∨ ∃ e ∈ more, k ∈ e.2.keys) :
    Logged env own st' (log ++ more) where
  chains := by
    intro e he
    rcases mem_append.mp he with he | he
    · exact h.chains e he
    · exact hchains e he
  rows := by
    intro w
    rw [hrows, h.rows]
    simp only [mem_append, or_and_right, exists_or]
  entries := by
    intro w
    rw [hentries, h.entries]
    simp only [mem_append, or_and_right, exists_or]
  inflight := by
    intro k hk
    rcases hinflight k hk with hk | ⟨e, he, hk⟩
    · obtain ⟨e, he, hk⟩ := h.inflight k hk
      exact ⟨e, mem_append_left _ he, hk⟩
    · exact ⟨e, mem_append_right _ he, hk⟩

/-! ### The checks of a referencing row -/

variable {t : Table V}

theorem checkForeignKeys_ok {old : Option (Row V)} {inserted : List (Tuple V)}
    {exempt : Option Nat} (h : checkForeignKeys env t old row inserted exempt = .ok ())
    (hinserted : ∀ vals ∈ inserted, ∃ e ∈ log, e.2.table = t ∧ ∃ row', e.2.new = some row' ∧
      t.pkKey row' = vals)
    (ht : t ∈ env.schema.tables) :
    ∀ fk ∈ t.fks, some fk.id ≠ exempt → fkChanged fk old row = true → Refers env log row fk := by
  intro fk hfk hexempt hchanged
  have hone := forM_eq_ok h fk (mem_filter.mpr ⟨hfk, decide_eq_true hexempt⟩)
  unfold checkForeignKey at hone
  simp only at hone
  split at hone
  · rename_i hskip
    rw [hchanged, Bool.not_true, Bool.or_false] at hskip
    exact .inl hskip
  · split at hone
    · cases hone
    rename_i parent hparent
    refine .inr ⟨parent, hparent, ?_⟩
    split at hone
    · rename_i hheld
      obtain ⟨hboth, hcontains⟩ := Bool.and_eq_true_iff.mp hheld
      obtain ⟨hid, hpk⟩ := Bool.and_eq_true_iff.mp hboth
      have hparent' := Schema.table_of_mem ht
      rw [← of_decide_eq_true hid, (Schema.mem_of_table hparent).2, hparent] at hparent'
      cases hparent'
      exact .inr ⟨of_decide_eq_true hpk, hinserted _ (contains_iff_mem.mp hcontains)⟩
    · obtain ⟨hne, _⟩ := ite_error_eq_ok hone
      obtain ⟨fr, hfr⟩ := exists_mem_of_ne_nil _ fun hnil => hne (isEmpty_iff.mpr hnil)
      obtain ⟨hrow, hvals⟩ := mem_matching.mp hfr
      exact .inl ⟨fr, hrow, hvals⟩

variable {seen seen' : List (EntryKey V)}

theorem addIndexEntry_ok {idx : Index} (h : addIndexEntry env t row seen idx = .ok seen')
    (hunique : idx.unique = true) :
    ∃ e, idx.encodeEntry t row = some e ∧ env.db.entries e.1 = none := by
  unfold addIndexEntry at h
  split at h
  · simp [if_pos hunique] at h
  rename_i e he
  refine ⟨e, he, ?_⟩
  unfold claimEntry at h
  rw [hunique, Bool.not_true, if_neg Bool.false_ne_true] at h
  obtain ⟨hfree, _⟩ := ite_error_eq_ok h
  rw [Bool.or_eq_true_iff, not_or, Bool.not_eq_true, Bool.not_eq_true] at hfree
  exact Option.isSome_eq_false_iff.mp hfree.2 |> Option.isNone_iff_eq_none.mp

theorem addIndexEntries_ok (h : addIndexEntries env t row seen = .ok seen') :
    ∀ idx ∈ t.indexes, idx.unique = true →
      ∃ e, idx.encodeEntry t row = some e ∧ env.db.entries e.1 = none := by
  refine (foldlM_all (I := fun _ => True) ?_ trivial h).2
  intro _ idx _ _ _ hadd
  exact ⟨trivial, addIndexEntry_ok hadd⟩

theorem updateIndexEntries_ok {old : Row V}
    (h : updateIndexEntries env t old row seen = .ok seen') : ∀ idx ∈ t.indexes, idx.unique = true →
      keepsEntry t idx old row = false →
        ∃ e, idx.encodeEntry t row = some e ∧ env.db.entries e.1 = none := by
  refine (foldlM_all (I := fun _ => True) ?_ trivial h).2
  intro _ idx _ _ _ hupdate
  refine ⟨trivial, fun hunique hkeeps => ?_⟩
  unfold updateIndexEntry at hupdate
  rw [if_neg (by rw [hkeeps]; exact Bool.false_ne_true)] at hupdate
  exact addIndexEntry_ok hupdate hunique

variable {child : Table V} {fr : Fetched V}

theorem rewriteRow_ok {updated : Row V} {newKey : Tuple V} {wb : WriteBatch V}
    (h : rewriteRow env child fr updated = .ok (newKey, wb)) :
    newKey = child.pkKey updated ∧ wb = (⟨child, some fr, some updated, none⟩ : Change V).batch ∧
      (child.pkKey updated ≠ fr.1 → env.db.row (child.id, child.pkKey updated) = none) ∧
      ∀ idx ∈ child.indexes, idx.unique = true →
        ¬ (child.pkKey updated = fr.1 ∧ keepsEntry child idx fr.2 updated = true) →
        ∃ e, idx.encodeEntry child updated = some e ∧ env.db.entries e.1 = none := by
  unfold rewriteRow at h
  simp only at h
  unfold Change.batch
  simp only
  split at h
  · rename_i hkey
    obtain ⟨seen, hseen, h⟩ := bind_eq_ok.mp h
    cases h
    refine ⟨rfl, by rw [if_pos hkey], fun hne => absurd hkey hne, ?_⟩
    intro idx hidx hunique hkeeps
    refine updateIndexEntries_ok hseen idx hidx hunique ?_
    rw [← Bool.not_eq_true]
    exact fun hkeep => hkeeps ⟨hkey, hkeep⟩
  · rename_i hkey
    obtain ⟨hfree, h⟩ := ite_error_eq_ok h
    obtain ⟨seen, hseen, h⟩ := bind_eq_ok.mp h
    cases h
    refine ⟨rfl, by rw [if_neg hkey], fun _ => ?_, ?_⟩
    · exact Option.not_isSome_iff_eq_none.mp hfree
    · intro idx hidx hunique _
      exact addIndexEntries_ok hseen idx hidx hunique

theorem inflight_mark {k k' : RowKey V} {f : InflightRow V}
    (h : ((st.mark k' f).inflight k).isSome = true) : k = k' ∨ (st.inflight k).isSome = true := by
  unfold Cascade.inflight Cascade.mark at h
  rw [lookup_cons] at h
  split at h
  · rename_i heq
    exact .inl (beq_iff_eq.mp heq)
  · exact .inr h

theorem enforceRow_ok {again : Enforcer V} (hchild : child ∈ env.schema.tables)
    (hstored : env.db.row (child.id, fr.1) = some fr.2)
    (h : enforceRow env again child fk (fkAction fk ch.new) ch.new st fr = .ok st') :
    Checked env [] (forced ch child fk fr) ∧
      ∃ st₁, again child fr.2 (forced ch child fk fr).new st = .ok st₁ ∧
        st'.wb = st₁.wb ++ (forced ch child fk fr).batch ∧ ∀ k, (st'.inflight k).isSome = true →
          (st₁.inflight k).isSome = true ∨ k ∈ (forced ch child fk fr).keys := by
  unfold enforceRow at h
  unfold forced
  split at h
  · rename_i hnew
    rw [hnew]
    obtain ⟨st₁, hst₁, h⟩ := bind_eq_ok.mp h
    refine ⟨?_, st₁, hst₁, ?_, ?_⟩
    · refine ⟨hchild, ?_, ?_, ?_, ?_⟩
      · intro fr' hfr'
        cases hfr'
        exact hstored
      all_goals
        simp
    · cases h
      rfl
    · cases h
      intro k hk
      rcases inflight_mark hk with rfl | hk
      · exact .inr mem_cons_self
      · exact .inl hk
  · rename_i updated hnew
    rw [hnew]
    obtain ⟨_, _, h⟩ := bind_eq_ok.mp h
    obtain ⟨_, _, h⟩ := bind_eq_ok.mp h
    obtain ⟨_, hfks, h⟩ := bind_eq_ok.mp h
    obtain ⟨st₁, hst₁, h⟩ := bind_eq_ok.mp h
    obtain ⟨⟨newKey, wb⟩, hwrite, h⟩ := bind_eq_ok.mp h
    obtain ⟨rfl, hwb, hfresh, hentries⟩ := rewriteRow_ok hwrite
    refine ⟨?_, st₁, hst₁, ?_, ?_⟩
    · refine ⟨hchild, ?_, ?_, ?_, ?_⟩
      · intro fr' hfr'
        cases hfr'
        exact hstored
      · intro row hrow
        cases hrow
        exact checkForeignKeys_ok hfks (fun vals hvals => absurd hvals not_mem_nil) hchild
      · intro row hrow hne
        cases hrow
        exact hfresh (hne fr rfl)
      · intro row hrow idx hidx hunique hkeeps
        cases hrow
        exact hentries idx hidx hunique fun hkeep =>
          hkeeps ⟨fr, updated, rfl, rfl, hkeep.1, hkeep.2⟩
    · cases h
      rw [hwb]
      split <;> rfl
    · cases h
      intro k hk
      rcases inflight_mark hk with rfl | hk
      · exact .inr (mem_cons_of_mem _ mem_cons_self)
      split at hk
      · exact .inl hk
      rcases inflight_mark hk with rfl | hk
      · exact .inr mem_cons_self
      · exact .inl hk

end Datax.Dml
