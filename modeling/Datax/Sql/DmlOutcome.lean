import Datax.Sql.DmlStatements

/-!
# The rows after a statement

Where different chains change different rows, each key is written for one change only: after
the statement it holds what that change leaves there, and every other key what it held.
-/

namespace Datax.Dml

open Option List Change

variable {V : Type} [DecidableEq V] {env : Env V} {own : List (Change V)}

/-! ### One change for each chain -/

variable {p : List (Step V)} {ch : Change V}

theorem Chain.ne_nil (h : Chain env own p ch) : p ≠ [] := by
  cases h with
  | own h => exact cons_ne_nil _ _
  | force _ _ => exact append_ne_nil_of_right_ne_nil _ (cons_ne_nil _ _)

theorem Forces.unique {ch₁ ch₂ : Change V} {step : Step V} (h₁ : Forces env ch step ch₁)
    (h₂ : Forces env ch step ch₂) :
    ch₁ = ch₂ := by
  obtain ⟨fr, child, fk, fr₁, htouch, _, hfr₁, hkey₁, rfl⟩ := h₁
  obtain ⟨_, fr₂, hfr₂, hkey₂, rfl⟩ := h₂.at htouch
  have hrow₁ := (mem_matching.mp hfr₁).1
  have hrow₂ := (mem_matching.mp hfr₂).1
  have hkey : fr₁.1 = fr₂.1 := hkey₁.trans hkey₂.symm
  rw [hkey, hrow₂] at hrow₁
  rw [Prod.ext hkey (Option.some.inj hrow₁).symm]

theorem Chain.unique {ch' : Change V} (h : Chain env own p ch) (h' : Chain env own p ch') :
    ch = ch' := by
  induction h generalizing ch' with
  | own h =>
    generalize hp : ([(_, [])] : List (Step V)) = q at h'
    cases h' with
    | own h₂ =>
      cases hp
      exact Option.some.inj (h.symm.trans h₂)
    | force hq _ =>
      have hnil := append_eq_singleton_iff.mp hp.symm
      rcases hnil with ⟨hnil, _⟩ | ⟨_, hcons⟩
      · exact absurd hnil hq.ne_nil
      · cases hcons
  | @force p ch ch₁ step hp hforce ih =>
    generalize hq : p ++ [step] = q at h'
    cases h' with
    | own h₂ =>
      rcases append_eq_singleton_iff.mp hq with ⟨hnil, _⟩ | ⟨_, hcons⟩
      · exact absurd hnil hp.ne_nil
      · cases hcons
    | force hp' hforce' =>
      obtain ⟨rfl, hstep⟩ := append_inj' hq rfl
      cases hstep
      cases ih hp'
      exact hforce.unique hforce'

variable {e : List (Step V) × Change V} {k : RowKey V}

theorem eq_of_key {log : Log V} (hapart : Apart env own)
    (hchains : ∀ e ∈ log, Chain env own e.1 e.2) {e' : List (Step V) × Change V} (he : e ∈ log)
    (he' : e' ∈ log) (hk : k ∈ e.2.keys) (hk' : k ∈ e'.2.keys) : e = e' := by
  have hpath : e.1 = e'.1 := by
    by_contra hne
    exact hapart _ _ _ _ (hchains e he) (hchains e' he') hne k hk hk'
  have hchain := hchains e he
  rw [hpath] at hchain
  exact Prod.ext hpath (hchain.unique (hchains e' he'))

/-! ### The row writes of a change -/

variable {w : RowKey V × Option (Row V)}

namespace Change
variable {ch : Change V}

def Leaves (ch : Change V) (fr : Fetched V) : Prop :=
  ch.old = some fr ∧ ∀ row, ch.new = some row → ch.table.pkKey row ≠ fr.1

omit [DecidableEq V] in
theorem mem_keys : k ∈ ch.keys ↔ (∃ fr, ch.old = some fr ∧ k = (ch.table.id, fr.1)) ∨
      ∃ row, ch.new = some row ∧ k = (ch.table.id, ch.table.pkKey row) := by
  unfold keys
  simp only [mem_append, List.mem_map, mem_toList]
  refine or_congr ?_ ?_ <;> exact exists_congr fun _ => and_congr_right fun _ => eq_comm

theorem mem_batch_rows : w ∈ ch.batch.rows ↔
    (∃ row, ch.new = some row ∧ w = ((ch.table.id, ch.table.pkKey row), some row)) ∨
      ∃ fr, ch.Leaves fr ∧ w = ((ch.table.id, fr.1), none) := by
  obtain ⟨t, old, new, exempt⟩ := ch
  unfold batch Leaves
  cases old with
  | none =>
    cases new with
    | none => simp
    | some row => simp [putRow]
  | some fr =>
    cases new with
    | none => simp [deleteRow]
    | some row =>
      simp only
      split
      · rename_i hkey
        change w ∈ [((t.id, fr.1), some row)] ↔ _
        rw [mem_singleton]
        constructor
        · rintro rfl
          exact .inl ⟨row, rfl, by rw [hkey]⟩
        rintro (⟨row', hrow', rfl⟩ | ⟨fr', ⟨hfr', hne⟩, _⟩)
        · cases hrow'
          rw [hkey]
        · cases hfr'
          exact absurd hkey (hne row rfl)
      · rename_i hkey
        change w ∈ [((t.id, fr.1), none), ((t.id, t.pkKey row), some row)] ↔ _
        rw [mem_pair]
        constructor
        · rintro (rfl | rfl)
          · refine .inr ⟨fr, ⟨rfl, ?_⟩, rfl⟩
            intro row' hrow'
            cases hrow'
            exact hkey
          · exact .inl ⟨row, rfl, rfl⟩
        · rintro (⟨row', hrow', rfl⟩ | ⟨fr', ⟨hfr', _⟩, rfl⟩)
          · cases hrow'
            exact .inr rfl
          · cases hfr'
            exact .inl rfl

theorem mem_keys_of_row (h : w ∈ ch.batch.rows) : w.1 ∈ ch.keys := by
  rcases mem_batch_rows.mp h with ⟨row, hnew, rfl⟩ | ⟨fr, hleaves, rfl⟩
  · exact mem_keys.mpr (.inr ⟨row, hnew, rfl⟩)
  · exact mem_keys.mpr (.inl ⟨fr, hleaves.1, rfl⟩)

end Change

/-! ### The outcome -/

variable {fr : Fetched V}

section Outcome
variable {log : Log V} {st : Cascade V}

section
variable (hapart : Apart env own) (hlog : Logged env own st log) (he : e ∈ log)
include hapart hlog he

theorem row_of_agree (hw : w ∈ e.2.batch.rows)
    (hsame : ∀ w' ∈ e.2.batch.rows, w'.1 = w.1 → w'.2 = w.2) :
    (env.db.runBatch st.wb).row w.1 = w.2 := by
  rw [DB.row_runBatch]
  refine Batch.apply_of_agree ((hlog.rows _).mpr ⟨e, he, hw⟩) ?_
  intro w' hw' hkey
  obtain ⟨e', he', hw'⟩ := (hlog.rows w').mp hw'
  have hmem := mem_keys_of_row hw'
  rw [hkey] at hmem
  cases eq_of_key hapart hlog.chains he he' (mem_keys_of_row hw) hmem
  exact hsame w' hw' hkey

theorem row_written {row : Row V}
    (hnew : e.2.new = some row) :
    (env.db.runBatch st.wb).row (e.2.table.id, e.2.table.pkKey row) = some row := by
  refine row_of_agree hapart hlog he (mem_batch_rows.mpr (.inl ⟨row, hnew, rfl⟩)) ?_
  intro w hw hkey
  rcases mem_batch_rows.mp hw with ⟨row', hnew', rfl⟩ | ⟨fr, hleaves, rfl⟩
  · exact hnew'.symm.trans hnew
  · exact absurd (Prod.mk.inj hkey).2.symm (hleaves.2 row hnew)

theorem row_left (hleaves : e.2.Leaves fr) :
    (env.db.runBatch st.wb).row (e.2.table.id, fr.1) = none := by
  refine row_of_agree hapart hlog he (mem_batch_rows.mpr (.inr ⟨fr, hleaves, rfl⟩)) ?_
  intro w hw hkey
  rcases mem_batch_rows.mp hw with ⟨row', hnew', rfl⟩ | ⟨fr', _, rfl⟩
  · exact absurd (Prod.mk.inj hkey).2 (hleaves.2 row' hnew')
  · rfl

end

theorem row_kept (hlog : Logged env own st log) (hk : ∀ e ∈ log, k ∉ e.2.keys) :
    (env.db.runBatch st.wb).row k = env.db.row k := by
  rw [DB.row_runBatch]
  refine Batch.apply_of_forall_ne ?_
  intro w hw heq
  obtain ⟨e, he, hw⟩ := (hlog.rows w).mp hw
  exact hk e he (heq ▸ mem_keys_of_row hw)

theorem row_cases (hapart : Apart env own) (hlog : Logged env own st log) {row : Row V}
    (h : (env.db.runBatch st.wb).row k = some row) :
    (∃ e ∈ log, e.2.new = some row ∧ k = (e.2.table.id, e.2.table.pkKey row)) ∨
      env.db.row k = some row ∧ ∀ e ∈ log, k ∉ e.2.keys := by
  by_cases hk : ∃ e ∈ log, k ∈ e.2.keys
  · obtain ⟨e, he, hk⟩ := hk
    refine .inl ⟨e, he, ?_⟩
    have hfound : ∀ row', e.2.new = some row' → k = (e.2.table.id, e.2.table.pkKey row') →
        e.2.new = some row ∧ k = (e.2.table.id, e.2.table.pkKey row) := by
      intro row' hnew hkey
      have hrow := row_written hapart hlog he hnew
      rw [← hkey, h] at hrow
      cases hrow
      exact ⟨hnew, hkey⟩
    rcases mem_keys.mp hk with ⟨fr, hold, rfl⟩ | ⟨row', hnew, hkey⟩
    · by_cases hleaves : e.2.Leaves fr
      · have hnone := row_left hapart hlog he hleaves
        simp [h] at hnone
      have hstays : ∃ row', e.2.new = some row' ∧ e.2.table.pkKey row' = fr.1 := by
        by_contra hno
        refine hleaves ⟨hold, ?_⟩
        intro row' hnew heq
        exact hno ⟨row', hnew, heq⟩
      obtain ⟨row', hnew, heq⟩ := hstays
      exact hfound row' hnew (by rw [heq])
    · exact hfound row' hnew hkey
  · refine .inr ⟨?_, fun e he hin => hk ⟨e, he, hin⟩⟩
    rw [← h, row_kept hlog fun e he hin => hk ⟨e, he, hin⟩]

theorem old_of_key (hchecked : Checked env log e.2)
    (hrow : env.db.row (e.2.table.id, fr.1) = some fr.2) (hk : (e.2.table.id, fr.1) ∈ e.2.keys) :
    e.2.old = some fr := by
  have hsame : ∀ fr', e.2.old = some fr' → fr'.1 = fr.1 → e.2.old = some fr := by
    intro fr' hold hkey
    have hstored := hchecked.stored fr' hold
    rw [hkey, hrow] at hstored
    rw [hold, Prod.ext hkey (Option.some.inj hstored).symm]
  rcases mem_keys.mp hk with ⟨fr', hold, hkey⟩ | ⟨row, hnew, hkey⟩
  · exact hsame fr' hold (Prod.mk.inj hkey).2.symm
  by_contra hne
  have hfresh := hchecked.fresh row hnew (by
    intro fr' hold heq
    exact hne (hsame fr' hold (heq.symm.trans (Prod.mk.inj hkey).2.symm)))
  simp [← hkey, hrow] at hfresh

end Outcome

/-! ### Rows that only come in -/

variable {table : TableID} {rows : List (Row V)}

theorem chain_of_insert {env : Env V} (h : Chain env (ownChanges env (.insert table rows)) p ch) :
    ∃ i t row, p = [(i, [])] ∧ ch = insertion t row ∧ env.schema.table table = some t ∧
      rows[i]? = some row := by
  induction h with
  | own h =>
    rename_i i ch
    rw [ownChanges] at h
    cases ht : env.schema.table table with
    | none =>
      simp [ht] at h
    | some t =>
      rw [ht] at h
      change (rows.map (insertion t))[i]? = some ch at h
      rw [getElem?_map, map_eq_some_iff] at h
      obtain ⟨row, hrow, rfl⟩ := h
      exact ⟨i, t, row, rfl, rfl, rfl, hrow⟩
  | force _ hforce ih =>
    obtain ⟨_, _, _, _, rfl, _⟩ := ih
    obtain ⟨fr, _, _, _, htouch, _⟩ := hforce
    cases htouch.old

theorem apart_insert {env : Env V}
    (hkeys : ∀ t, env.schema.table table = some t → (rows.map t.pkKey).Nodup) :
    Apart env (ownChanges env (.insert table rows)) := by
  intro p q ch ch' hp hq hne k hk hk'
  obtain ⟨i, t, row, rfl, rfl, ht, hrow⟩ := chain_of_insert hp
  obtain ⟨j, t', row', rfl, rfl, ht', hrow'⟩ := chain_of_insert hq
  cases ht.symm.trans ht'
  have hsame : t.pkKey row = t.pkKey row' := by
    rcases mem_keys.mp hk with ⟨_, hold, _⟩ | ⟨_, hnew, hkey⟩
    · cases hold
    rcases mem_keys.mp hk' with ⟨_, hold, _⟩ | ⟨_, hnew', hkey'⟩
    · cases hold
    cases hnew
    cases hnew'
    exact (Prod.mk.inj (hkey.symm.trans hkey')).2
  have hi : (rows.map t.pkKey)[i]? = some (t.pkKey row) := by
    rw [getElem?_map, hrow, map_some]
  have hj : (rows.map t.pkKey)[j]? = some (t.pkKey row) := by
    rw [getElem?_map, hrow', map_some, hsame]
  obtain ⟨hlt, _⟩ := List.getElem?_eq_some_iff.mp hi
  have hij : i = j := (List.getElem?_inj hlt (hkeys t ht)).mp (hi.trans hj.symm)
  exact hne (by rw [hij])

end Datax.Dml
