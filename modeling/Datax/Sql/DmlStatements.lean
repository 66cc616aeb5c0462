import Datax.Sql.DmlWalk

/-!
# What a statement carries out

The changes a statement makes of its own accord can be read off the store before it. Where
different chains from them change different rows, a statement that succeeds carries out its
own changes and the ones they force, each once, and its batch is made of theirs.
-/

namespace Datax.Dml

open List Fallible

variable {V : Type} [DecidableEq V]

section Own
variable (env : Env V)

def insertion (t : Table V) (row : Row V) : Change V := { table := t, old := none, new := some row }

/-- The changes of INSERT ... ON CONFLICT. A row whose key the statement has written already
is passed over, or fails the statement. -/
def conflictChanges (t : Table V) (action : ConflictAction V) :
    List (Tuple V) → List (Row V) → List (Change V)
  | _, [] => []
  | inserted, row :: rows =>
    if inserted.contains (t.pkKey row) then conflictChanges t action inserted rows
    else
      match conflicting env t row with
      | none => insertion t row :: conflictChanges t action (t.pkKey row :: inserted) rows
      | some (_, fr) =>
        match action with
        | .doNothing => conflictChanges t action inserted rows
        | .doUpdate filter sets =>
          match conflictUpdate t filter sets fr.2 row with
          | .ok (some new) =>
            { table := t, old := some fr, new := some new } :: conflictChanges t action
              (fr.1 :: inserted) rows
          | _ => conflictChanges t action inserted rows

def ownChanges : Statement V → List (Change V)
  | .insert table rows => (env.schema.table table).elim [] fun t => rows.map (insertion t)
  | .insertOnConflict table rows _ action =>
    (env.schema.table table).elim [] fun t => conflictChanges env t action [] rows
  | .update table filter sets => (env.schema.table table).elim [] fun t =>
    match updatedRows t sets (selected env t filter) with
    | .ok rows => rows.map fun r => { table := t, old := some r.1, new := some r.2 }
    | .error _ => []
  | .delete table filter => (env.schema.table table).elim [] fun t =>
    (selected env t filter).map fun fr => { table := t, old := some fr, new := none }

def Keyed : Prop :=
  ∀ t ∈ env.schema.tables, ∀ k row, env.db.row (t.id, k) = some row → t.pkKey row = k

/-- The log of a statement: its own changes and the forced ones. -/
structure Carried (own : List (Change V)) (log : Log V) : Prop where
  chains : ∀ e ∈ log, Chain env own e.1 e.2
  checked : ∀ e ∈ log, Checked env log e.2
  settled : ∀ e ∈ log, Settled env log e.1 e.2
  parent : ∀ e ∈ log, e.2.exempt = none ∨ ∃ q c step, e.1 = q ++ [step] ∧ (q, c) ∈ log ∧
    Forces env c step e.2

/-- What the statement has carried out before its change number `i`. -/
structure Ready (own : List (Change V)) (t : Table V) (p : Progress V) (log : Log V)
    (i : Nat) : Prop extends Carried env own log where
  logged : Logged env own p.cascade log
  before : ∀ e ∈ log, ∃ j rest, e.1 = (j, []) :: rest ∧ j < i
  done : ∀ j < i, ∀ ch, own[j]? = some ch → ([(j, [])], ch) ∈ log
  inserted : ∀ vals ∈ p.inserted, ∃ e ∈ log, e.2.table = t ∧ ∃ row, e.2.new = some row ∧
    t.pkKey row = vals

end Own

variable {env : Env V} {own : List (Change V)} {t : Table V} {p p' : Progress V} {log : Log V}
  {i : Nat} {ch : Change V}

theorem Ready.step (hready : Ready env own t p log i) (hch : own[i]? = some ch)
    (htable : ch.table = t) (hexempt : ch.exempt = none) (st : Cascade V) (more : Log V)
    (hlog : Logged env own st (log ++ more)) (hbelow : Below env (log ++ more) [(i, [])] ch more)
    (hsettled : Settled env (log ++ more) [(i, [])] ch) (hchecked : Checked env
      (log ++ (more ++ [([(i, [])], ch)])) ch) (hcascade : p'.cascade = st.buffer ch.batch)
    (hinserted : ∀ vals ∈ p'.inserted, vals ∈ p.inserted ∨ ∃ row, ch.new = some row ∧
      t.pkKey row = vals) :
    Ready env own t p' (log ++ (more ++ [([(i, [])], ch)])) (i + 1) := by
  have hall : ∀ {C : List (Step V) × Change V → Prop}, (∀ e ∈ log, C e) → (∀ e ∈ more, C e) →
      C ([(i, [])], ch) →
      ∀ e ∈ log ++ (more ++ [([(i, [])], ch)]), C e := by
    intro C hl hm hc e he
    rcases mem_append.mp he with he | he
    · exact hl e he
    rcases mem_append.mp he with he | he
    · exact hm e he
    · rw [mem_singleton.mp he]
      exact hc
  have hsub : log ++ more ⊆ log ++ (more ++ [([(i, [])], ch)]) := by
    rw [← append_assoc]
    exact subset_append_left _ _
  have hsub' : log ⊆ log ++ (more ++ [([(i, [])], ch)]) := subset_append_left _ _
  constructor
  · constructor
    · exact hall hready.chains (fun e he => hlog.chains e (mem_append_right _ he)) (.own hch)
    · exact hall (fun e he => (hready.checked e he).mono hsub')
        (fun e he => (hbelow.checked e he).mono (nil_subset _)) hchecked
    · exact hall (fun e he => (hready.settled e he).mono hsub')
        (fun e he => (hbelow.settled e he).mono hsub)
        (hsettled.mono hsub)
    refine hall ?_ ?_ (.inl hexempt)
    · intro e he
      refine (hready.parent e he).imp_right ?_
      rintro ⟨q, c, step, heq, hin, hforce⟩
      exact ⟨q, c, step, heq, hsub' hin, hforce⟩
    · intro e he
      obtain ⟨q, c, step, heq, hin, hforce⟩ := hbelow.parent e he
      refine .inr ⟨q, c, step, heq, ?_, hforce⟩
      rcases hin with hin | hin
      · rw [hin]
        exact mem_append_right _ (mem_append_right _ mem_cons_self)
      · exact hsub (mem_append_right _ hin)
  · rw [hcascade, ← append_assoc]
    refine hlog.append ?_ ?_ ?_ ?_
    · intro e he
      rw [mem_singleton.mp he]
      exact .own hch
    · intro w
      change w ∈ (st.wb ++ ch.batch).rows ↔ _
      rw [WriteBatch.rows_append, mem_append]
      simp only [mem_singleton, exists_eq_left]
    · intro w
      change w ∈ (st.wb ++ ch.batch).entries ↔ _
      rw [WriteBatch.entries_append, mem_append]
      simp only [mem_singleton, exists_eq_left]
    · intro k hk
      exact .inl hk
  · refine hall ?_ ?_ ⟨i, [], rfl, Nat.lt_succ_self i⟩
    · intro e he
      obtain ⟨j, rest, heq, hlt⟩ := hready.before e he
      exact ⟨j, rest, heq, by omega⟩
    · intro e he
      obtain ⟨rest, hrest⟩ := (hbelow.under e he).1
      exact ⟨i, rest, hrest.symm, Nat.lt_succ_self i⟩
  · intro j hj ch' hch'
    rcases Nat.lt_succ_iff_lt_or_eq.mp hj with hj | rfl
    · exact hsub' (hready.done j hj ch' hch')
    · cases hch.symm.trans hch'
      exact mem_append_right _ (mem_append_right _ mem_cons_self)
  · intro vals hvals
    rcases hinserted vals hvals with hvals | hvals
    · obtain ⟨e, he, hrest⟩ := hready.inserted vals hvals
      exact ⟨e, hsub' he, hrest⟩
    · exact ⟨_, mem_append_right _ (mem_append_right _ mem_cons_self), htable, hvals⟩

variable {fr : Fetched V}

theorem Ready.stored (hapart : Apart env own) (hready : Ready env own t p log i) (p' : Progress V)
    (hch : own[i]? = some ch) (htable : ch.table = t) (hexempt : ch.exempt = none)
    (hold : ch.old = some fr) {st : Cascade V}
    (hst : enforceReferencing env t fr.2 ch.new p.cascade = .ok st) (hchecked : Checked env [] ch)
    (hcascade : p'.cascade = st.buffer ch.batch) (hinserted :
      ∀ vals ∈ p'.inserted, vals ∈ p.inserted ∨ ∃ row, ch.new = some row ∧ t.pkKey row = vals) :
    ∃ log', Ready env own t p' log' (i + 1) := by
  subst htable
  have hnew : ∀ e ∈ log, ¬ [(i, [])] <+: e.1 := by
    intro e he hpre
    obtain ⟨j, rest, heq, hlt⟩ := hready.before e he
    rw [heq] at hpre
    have := (cons_prefix_cons.mp hpre).1
    have := (Prod.mk.inj this).1
    omega
  obtain ⟨more, hlog, hbelow, hsettled⟩ :=
    walks_enforceReferencing hapart _ ch fr _ st log (.own hch) hold hready.logged hnew hst
  exact ⟨_, hready.step hch rfl hexempt st more hlog hbelow hsettled (hchecked.mono (nil_subset _))
    hcascade hinserted⟩

variable {row : Row V}

theorem Ready.insertion (ht : t ∈ env.schema.tables)
    (hready : Ready env own t p log i) (hch : own[i]? = some (insertion t row))
    (h : insertRow env t p row = .ok p') :
    (∃ log', Ready env own t p' log' (i + 1)) ∧ p'.inserted = t.pkKey row :: p.inserted := by
  obtain ⟨_, _, h⟩ := bind_eq_ok.mp h
  split at h
  · cases h
  rename_i hfree
  rw [Bool.or_eq_true_iff, not_or] at hfree
  obtain ⟨seen, hseen, h⟩ := bind_eq_ok.mp h
  obtain ⟨_, _, h⟩ := bind_eq_ok.mp h
  obtain ⟨_, hfks, h⟩ := bind_eq_ok.mp h
  cases h
  refine ⟨⟨_, hready.step hch rfl rfl p.cascade [] ?_ (Below.nil _ _ _) ?_ ?_ rfl ?_⟩, rfl⟩
  · rw [append_nil]
    exact hready.logged
  · constructor
    · rintro step ch' ⟨fr, child, fk, _, htouch, _⟩
      cases htouch.old
    · intro j fr child fk htouch
      cases htouch.old
  · refine ⟨ht, ?_, ?_, ?_, ?_⟩
    · intro fr hfr
      cases hfr
    · intro row' hrow'
      cases hrow'
      refine checkForeignKeys_ok hfks ?_ ht
      intro vals hvals
      rcases mem_cons.mp hvals with rfl | hvals
      · exact ⟨([(i, [])], Dml.insertion t row), mem_append_right _ mem_cons_self, rfl,
          row, rfl, rfl⟩
      · obtain ⟨e, he, hrest⟩ := hready.inserted vals hvals
        exact ⟨e, mem_append_left _ he, hrest⟩
    · intro row' hrow' _
      cases hrow'
      exact Option.not_isSome_iff_eq_none.mp hfree.2
    · intro row' hrow' idx hidx hunique _
      cases hrow'
      exact addIndexEntries_ok hseen idx hidx hunique
  · intro vals hvals
    rcases mem_cons.mp hvals with rfl | hvals
    · exact .inr ⟨row, rfl, rfl⟩
    · exact .inl hvals

/-! ### Assignments -/

variable {row' : Row V}

omit [DecidableEq V] in
theorem setColumn_ok {seen : Row V} {set : SetClause V} (h : setColumn t seen row set = .ok row') :
    ∀ id, id ≠ set.1 → row' id = row id := by
  unfold setColumn at h
  split at h
  · cases h
  obtain ⟨_, h⟩ := ite_error_eq_ok h
  cases h
  intro id hid
  exact Function.update_of_ne hid _ _

omit [DecidableEq V] in
theorem pkKey_eq_of (h : ∀ id ∈ t.primaryKey, row' id = row id) : t.pkKey row' = t.pkKey row :=
  map_congr_left h

omit [DecidableEq V] in
theorem pkKey_sets {α : Type} (column : α → ColumnID) {f : Row V → α → Except Refusal (Row V)}
    {sets : List α}
    (hf : ∀ row set row', f row set = .ok row' → ∀ id, id ≠ column set → row' id = row id)
    (hpk : ∀ set ∈ sets, column set ∉ t.primaryKey) (h : sets.foldlM f row = .ok row') :
    t.pkKey row' = t.pkKey row := by
  refine foldlM_invariant (I := fun r => t.pkKey r = t.pkKey row) ?_ rfl h
  intro r set r' hset hr hstep
  rw [← hr]
  refine pkKey_eq_of ?_
  intro id hid
  exact hf r set r' hstep id fun heq => hpk set hset (heq ▸ hid)

omit [DecidableEq V] in
theorem refusePrimaryKey_ok {columns : List ColumnID} (h : refusePrimaryKey t columns = .ok ()) :
    ∀ id ∈ columns, id ∉ t.primaryKey := by
  unfold refusePrimaryKey at h
  split at h
  · cases h
  rename_i hfind
  intro id hid hpk
  exact find?_eq_none.mp hfind id hid (contains_iff_mem.mpr hpk)

/-! ### The statements -/

theorem Ready.update (hapart : Apart env own) (ht : t ∈ env.schema.tables)
    (hready : Ready env own t p log i) {new : Row V}
    (hch : own[i]? = some { table := t, old := some fr, new := some new })
    (hstored : env.db.row (t.id, fr.1) = some fr.2) (hkey : t.pkKey new = fr.1)
    (h : updateRow env t p fr new = .ok p') :
    ∃ log', Ready env own t p' log' (i + 1) ∧ p'.inserted = p.inserted ∧
      Ready env own t { p' with inserted := fr.1 :: p'.inserted } log' (i + 1) := by
  obtain ⟨_, _, h⟩ := bind_eq_ok.mp h
  obtain ⟨_, hfks, h⟩ := bind_eq_ok.mp h
  obtain ⟨st, hst, h⟩ := bind_eq_ok.mp h
  obtain ⟨seen, hseen, h⟩ := bind_eq_ok.mp h
  cases h
  have hchecked : Checked env [] { table := t, old := some fr, new := some new } := by
    refine ⟨ht, ?_, ?_, ?_, ?_⟩
    · intro fr' hfr'
      cases hfr'
      exact hstored
    · intro row hrow
      cases hrow
      exact checkForeignKeys_ok hfks (fun vals hvals => absurd hvals not_mem_nil) ht
    · intro row hrow hne
      cases hrow
      exact absurd hkey (hne fr rfl)
    · intro row hrow idx hidx hunique hkeeps
      cases hrow
      refine updateIndexEntries_ok hseen idx hidx hunique ?_
      rw [← Bool.not_eq_true]
      exact fun hkeep => hkeeps ⟨fr, new, rfl, rfl, hkey, hkeep⟩
  have hbatch : (⟨t, some fr, some new, none⟩ : Change V).batch = rewriteInPlace t fr new :=
    if_pos hkey
  obtain ⟨log', hready'⟩ := hready.stored hapart
    { p with
      cascade := st.buffer (rewriteInPlace t fr new)
      seen := seen, inserted := fr.1 :: p.inserted }
    hch rfl rfl rfl hst hchecked (by rw [hbatch]) (by
      intro vals hvals
      rcases mem_cons.mp hvals with rfl | hvals
      · exact .inr ⟨new, rfl, hkey⟩
      · exact .inl hvals)
  refine ⟨log', ?_, rfl, hready'⟩
  exact { hready' with
    inserted := fun vals hvals => hready'.inserted vals (mem_cons_of_mem _ hvals) }

theorem getElem?_of_drop {α : Type} {l rest : List α} {a : α} (h : l.drop i = a :: rest) :
    l[i]? = some a ∧ l.drop (i + 1) = rest := by
  constructor
  · rw [← Nat.add_zero i, ← getElem?_drop, h]
    rfl
  · rw [← drop_drop, h]
    rfl

/-- All the statement's own changes are made. -/
def Finished (env : Env V) (own : List (Change V)) (t : Table V) (p : Progress V) : Prop :=
  ∃ log j, Ready env own t p log j ∧ own.drop j = []

theorem foldlM_finished {β : Type} {f : Progress V → β → Except Refusal (Progress V)}
    {change : β → Change V} {rows : List β} (hready : Ready env own t p log i)
    (hown : own.drop i = rows.map change)
    (hstep : ∀ row ∈ rows, ∀ {p log i p'}, Ready env own t p log i → own[i]? = some (change row) →
      f p row = .ok p' → ∃ log', Ready env own t p' log' (i + 1))
    (h : rows.foldlM f p = .ok p') : Finished env own t p' := by
  induction rows generalizing p log i with
  | nil =>
    cases h
    exact ⟨log, i, hready, hown⟩
  | cons row rows ih =>
    obtain ⟨p₁, hone, hrest⟩ := foldlM_cons_eq_ok h
    obtain ⟨hch, hnext⟩ := getElem?_of_drop hown
    obtain ⟨log₁, hready₁⟩ := hstep row mem_cons_self hready hch hone
    exact ih hready₁ hnext (fun row' hrow' => hstep row' (mem_cons_of_mem row hrow')) hrest

theorem Ready.deletion (hapart : Apart env own) (ht : t ∈ env.schema.tables)
    (hready : Ready env own t p log i) (hch : own[i]? = some
      { table := t, old := some fr, new := none }) (hstored : env.db.row (t.id, fr.1) = some fr.2)
    (h : deleteOwnRow env t p fr = .ok p') : ∃ log', Ready env own t p' log' (i + 1) := by
  obtain ⟨st, hst, h⟩ := bind_eq_ok.mp h
  cases h
  have hchecked : Checked env [] { table := t, old := some fr, new := none } := by
    refine ⟨ht, ?_, ?_, ?_, ?_⟩
    · intro fr' hfr'
      cases hfr'
      exact hstored
    all_goals simp
  exact hready.stored hapart { p with cascade := st.buffer (deleteRow t fr) } hch rfl rfl rfl hst
    hchecked rfl
    (fun vals hvals => .inl hvals)

theorem conflicting_stored {hit : Arbiter} (h : conflicting env t row = some (hit, fr)) :
    env.db.row (t.id, fr.1) = some fr.2 := by
  unfold conflicting at h
  split at h
  · rename_i old hold
    cases h
    exact hold
  · obtain ⟨idx, _, h⟩ := exists_of_findSome?_eq_some h
    split_ifs at h
    split at h
    · obtain ⟨old, hold, heq⟩ := Option.map_eq_some_iff.mp h
      cases heq
      exact hold
    · cases h

omit [DecidableEq V] in
theorem conflictUpdate_key {filter : Row V → Row V → Option Bool}
    {sets : List (ColumnID × (Row V → Row V → Option (Option V)))}
    (hpk : ∀ id ∈ sets.map Prod.fst, id ∉ t.primaryKey) {old new : Row V}
    (h : conflictUpdate t filter sets old row = .ok (some new)) : t.pkKey new = t.pkKey old := by
  unfold conflictUpdate at h
  split at h
  · cases h
  · cases h
  obtain ⟨new', hnew, h⟩ := bind_eq_ok.mp h
  cases h
  refine pkKey_sets Prod.fst ?_ (fun set hset => hpk _ (mem_map_of_mem hset)) hnew
  intro r set r' hstep
  exact setColumn_ok hstep

theorem conflicts_ready (hapart : Apart env own) (hkeyed : Keyed env) (ht : t ∈ env.schema.tables)
    {arbiter : Arbiter} {action : ConflictAction V} (hpk : ∀ id ∈ action.columns, id ∉ t.primaryKey)
    {rows : List (Row V)} (hready : Ready env own t p log i)
    (hown : own.drop i = conflictChanges env t action p.inserted rows) (h :
      rows.foldlM (insertOnConflict env t arbiter action) p = .ok p') : Finished env own t p' := by
  induction rows generalizing p log i with
  | nil =>
    cases h
    exact ⟨log, i, hready, hown⟩
  | cons row rows ih =>
    obtain ⟨p₁, hone, hrest⟩ := foldlM_cons_eq_ok h
    rw [conflictChanges] at hown
    obtain ⟨_, _, hone⟩ := bind_eq_ok.mp hone
    split at hone
    · rename_i hseen
      rw [if_pos hseen] at hown
      split at hone
      · cases hone
        exact ih hready hown hrest
      · cases hone
    · rename_i hseen
      rw [if_neg hseen] at hown
      split at hone
      · rename_i hnone
        rw [hnone] at hown
        obtain ⟨hch, hnext⟩ := getElem?_of_drop hown
        obtain ⟨⟨log₁, hready₁⟩, hinserted⟩ := hready.insertion ht hch hone
        rw [← hinserted] at hnext
        exact ih hready₁ hnext hrest
      · rename_i hit fr hhit
        rw [hhit] at hown
        split at hone
        · split at hone <;> cases hone
        split at hone
        · cases hone
          exact ih hready hown hrest
        rename_i filter sets
        simp only at hown
        obtain ⟨updated, hnew, hone⟩ := bind_eq_ok.mp hone
        rw [hnew] at hown
        cases updated with
        | none =>
          cases hone
          exact ih hready hown hrest
        | some new =>
          obtain ⟨hch, hnext⟩ := getElem?_of_drop hown
          obtain ⟨p₂, htwo, hone⟩ := bind_eq_ok.mp hone
          cases hone
          have hstored := conflicting_stored hhit
          have hkey := (conflictUpdate_key hpk hnew).trans (hkeyed t ht fr.1 fr.2 hstored)
          obtain ⟨log₁, _, hinserted, hready₁⟩ := hready.update hapart ht hch hstored hkey htwo
          rw [← hinserted] at hnext
          exact ih hready₁ hnext hrest

theorem updatedRows_ok {rows : List (Fetched V × Row V)} (hkeyed : Keyed env)
    (ht : t ∈ env.schema.tables) {sets : List (SetClause V)}
    (hpk : ∀ id ∈ sets.map Prod.fst, id ∉ t.primaryKey) {frs : List (Fetched V)} (hfrs :
      ∀ fr ∈ frs, env.db.row (t.id, fr.1) = some fr.2) (h : updatedRows t sets frs = .ok rows) :
    ∀ r ∈ rows, env.db.row (t.id, r.1.1) = some r.1.2 ∧ t.pkKey r.2 = r.1.1 := by
  unfold updatedRows at h
  induction frs generalizing rows with
  | nil =>
    cases h
    simp
  | cons fr frs ih =>
    rw [mapM_cons] at h
    obtain ⟨r₁, hr₁, h⟩ := bind_eq_ok.mp h
    obtain ⟨rows₁, hrows₁, h⟩ := bind_eq_ok.mp h
    obtain ⟨new, hnew, hr₁⟩ := bind_eq_ok.mp hr₁
    cases hr₁
    cases h
    have hstored := hfrs fr mem_cons_self
    refine forall_mem_cons.mpr ⟨?_, ih (fun fr' hfr' => hfrs fr' (mem_cons_of_mem fr hfr')) hrows₁⟩
    refine ⟨hstored, ?_⟩
    refine Eq.trans ?_ (hkeyed t ht fr.1 fr.2 hstored)
    refine pkKey_sets Prod.fst ?_ (fun set hset => hpk _ (mem_map_of_mem hset)) hnew
    intro row set row' hstep
    exact setColumn_ok hstep

theorem ready_start (own : List (Change V)) (t : Table V) : Ready env own t (start env) [] 0 := by
  refine ⟨⟨?_, ?_, ?_, ?_⟩, ⟨?_, ?_, ?_, ?_⟩, ?_, fun j hj => absurd hj (Nat.not_lt_zero j), ?_⟩
  case refine_6 | refine_7 =>
    intro w
    constructor
    · intro hw
      cases hw
    · rintro ⟨e, he, _⟩
      cases he
  case refine_8 =>
    intro k hk
    cases hk
  all_goals
    intro e he
    cases he

theorem Carried.mem_of_chain (hlog : Carried env own log)
    (hown : ∀ i ch, own[i]? = some ch → ([(i, [])], ch) ∈ log) {p : List (Step V)}
    (h : Chain env own p ch) : (p, ch) ∈ log := by
  induction h with
  | own h => exact hown _ _ h
  | force _ hforce ih => exact (hlog.settled _ ih).forces _ _ hforce

theorem execute_carried {stmt : Statement V} (hkeyed : Keyed env)
    (hapart : Apart env (ownChanges env stmt)) {db : DB V} (h : execute env stmt = .ok db) :
    ∃ log st, Carried env (ownChanges env stmt) log ∧ Logged env (ownChanges env stmt) st log ∧
      (∀ p ch, Chain env (ownChanges env stmt) p ch → (p, ch) ∈ log) ∧
      db = env.db.runBatch st.wb := by
  obtain ⟨p, hp, rfl⟩ := map_eq_ok.mp h
  have hready : ∃ t, Finished env (ownChanges env stmt) t p := by
    cases stmt with
    | insert table rows =>
      rw [progress] at hp
      split at hp
      · cases hp
      rename_i t ht
      have hown : ownChanges env (.insert table rows) = rows.map (insertion t) := by
        rw [ownChanges, ht]
        rfl
      refine ⟨t, foldlM_finished (ready_start _ t) (by rw [drop_zero, hown]) ?_ hp⟩
      exact fun row _ _ _ _ _ hready hch h => (hready.insertion (Schema.mem_of_table ht).1 hch h).1
    | insertOnConflict table rows arbiter action =>
      rw [progress] at hp
      split at hp
      · cases hp
      rename_i t ht
      obtain ⟨_, hpk, hp⟩ := bind_eq_ok.mp hp
      have hown : ownChanges env (.insertOnConflict table rows arbiter action) =
          conflictChanges env t action [] rows := by
        rw [ownChanges, ht]
        rfl
      exact ⟨t, conflicts_ready hapart hkeyed (Schema.mem_of_table ht).1 (refusePrimaryKey_ok hpk)
        (ready_start _ t) (by rw [drop_zero, hown]; rfl) hp⟩
    | update table filter sets =>
      rw [progress] at hp
      split at hp
      · cases hp
      rename_i t ht
      obtain ⟨_, hpk, hp⟩ := bind_eq_ok.mp hp
      obtain ⟨rows, hrows, hp⟩ := bind_eq_ok.mp hp
      have hown : ownChanges env (.update table filter sets) =
          rows.map fun r => { table := t, old := some r.1, new := some r.2 } := by
        rw [ownChanges, ht]
        simp only [Option.elim, hrows]
      have htable := (Schema.mem_of_table ht).1
      refine ⟨t, foldlM_finished (ready_start _ t) (by rw [drop_zero, hown]) ?_ hp⟩
      intro r hr p log i p' hready hch h
      obtain ⟨hstored, hkey⟩ := updatedRows_ok hkeyed htable (refusePrimaryKey_ok hpk)
        (fun fr hfr => (mem_selected.mp hfr).1) hrows r hr
      obtain ⟨log', hready', _⟩ := hready.update hapart htable hch hstored hkey h
      exact ⟨log', hready'⟩
    | delete table filter =>
      rw [progress] at hp
      split at hp
      · cases hp
      rename_i t ht
      have hown : ownChanges env (.delete table filter) =
          (selected env t filter).map fun fr => { table := t, old := some fr, new := none } := by
        rw [ownChanges, ht]
        rfl
      refine ⟨t, foldlM_finished (ready_start _ t) (by rw [drop_zero, hown]) ?_ hp⟩
      exact fun fr hfr _ _ _ _ hready hch h =>
        hready.deletion hapart (Schema.mem_of_table ht).1 hch (mem_selected.mp hfr).1 h
  obtain ⟨t, log, j, hready, hend⟩ := hready
  refine ⟨log, p.cascade, hready.toCarried, hready.logged, ?_, rfl⟩
  intro q ch hchain
  refine hready.toCarried.mem_of_chain ?_ hchain
  intro i ch' hch'
  obtain ⟨hlt, _⟩ := List.getElem?_eq_some_iff.mp hch'
  have hlen := List.drop_eq_nil_iff.mp hend
  exact hready.done i (by omega) ch' hch'

end Datax.Dml
