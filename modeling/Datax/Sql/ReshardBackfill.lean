import Datax.Sql.ReshardStore

/-!
# A re-shard keeps every row

A copied row is mirrored, and so is a row behind the last one the sweep planned for: at the boundary
there was none, and who writes one later sees the marker. No transaction without the marker may
still commit a row behind the sweep when it ends, nor take away what the new layout shows: the swap
would lose the row, or bring a deleted one back.
-/

namespace Datax.Reshard

open AList Option Function List Batch Runs Table

variable {PK V C : Type}

/-! ## Timestamps -/

theorem le_above (floor ts : Timestamp) : ts ≤ above floor ts := by
  unfold above
  split
  · exact le_refl ts
  · rename_i hge
    exact le_trans (not_lt.mp hge) (Timestamp.lt_next floor).le

theorem lt_above (floor ts : Timestamp) : floor < above floor ts := by
  unfold above
  split
  · rename_i hlt
    exact hlt
  · exact Timestamp.lt_next floor

variable {txn : Txn PK V}

theorem Txn.mayCommit_eq_false {d : Timestamp} (hd : txn.deadline = some d) (hlt : d < txn.ts) :
    txn.mayCommit = false := by
  unfold mayCommit
  rw [hd]
  exact decide_eq_false (not_le.mpr hlt)

theorem Txn.mayCommit_anti (txn : Txn PK V) {txn' : Txn PK V} (hd : txn'.deadline = txn.deadline)
    (hle : txn.ts ≤ txn'.ts) (h : txn.mayCommit = false) : txn'.mayCommit = false := by
  unfold mayCommit at h ⊢
  rw [hd]
  cases hdead : txn.deadline with
  | none =>
    simp [hdead] at h
  | some d =>
    rw [hdead] at h
    have hlt : ¬ txn.ts ≤ d := of_decide_eq_false h
    exact decide_eq_false fun h' => hlt (le_trans hle h')

variable {ts : Timestamp} {h : History V}

theorem fresh_of_valueAt (hdual : ∀ v ∈ h, ts < v.ts → v.dual = true)
    (hnone : h.valueAt ts = none) :
    fresh h = true := by
  induction h with
  | nil => rfl
  | cons v rest ih =>
    by_cases hle : v.ts ≤ ts
    · have hv : v.value = none := by
        simpa [History.valueAt, hle] using hnone
      simp [fresh, hv]
    · have hrest : History.valueAt rest ts = none := by
        simpa [History.valueAt, hle] using hnone
      have htail := ih (fun v' hv' => hdual v' (mem_cons_of_mem v hv')) hrest
      simp [fresh, htail, hdual v mem_cons_self (not_le.mp hle)]

theorem current_of_valueAt (hle : h.newest ≤ ts) (hsome : (h.valueAt ts).isSome = true) :
    ∃ v, h.current = some v := by
  cases h with
  | nil => cases hsome
  | cons v rest =>
    have hv : v.ts ≤ ts := hle
    simp only [History.valueAt, find?_cons, hv, decide_true] at hsome
    exact isSome_iff_exists.mp hsome

variable [LinearOrder PK] [DecidableEq C]

/-! ## A chunk copies a row -/

section Copied
variable {t : Table PK V C} {st : Store PK V C} {kept : PK → Prop} {pk : PK}

theorem rows_copyRow (pk : PK) : (t.copyRow st pk).rows = st.rows := by
  unfold copyRow
  split
  · rfl
  · rfl

theorem history_copyRow (pk pk' : PK) : (t.copyRow st pk).history pk' = st.history pk' := by
  unfold Store.history
  rw [rows_copyRow]

theorem current_copyRow (pk pk' : PK) : (t.copyRow st pk).current pk' = st.current pk' := by
  unfold Store.current
  rw [history_copyRow]

variable {v : V} (hcur : st.current pk = some v)
include hcur

theorem kv_copyRow : (t.copyRow st pk).kv = apply st.kv ((t.reshardShadowKey pk, some (.row v)) ::
    t.indexes.flatMap fun idx => (idx.columns pk v).toList.map fun c =>
      (t.entryKey true idx pk c, some (t.entryVal true idx pk))) := by
  unfold copyRow
  rw [hcur]

variable {idx : Index PK V C}

theorem kv_copyRow_entry (hidx : idx ∈ t.indexes) (n : Bool) (columns : C)
    (suffix : Option (Nat × PK)) :
    (t.copyRow st pk).kv (.entry (idx.idOf n) columns suffix) =
      apply st.kv ((idx.columnsOf pk (st.current pk)).toList.map fun c =>
        (t.entryKey true idx pk c, some (t.entryVal true idx pk)))
    (.entry (idx.idOf n) columns suffix) := by
  rw [kv_copyRow hcur, apply_cons, hcur]
  refine (apply_flatMap hidx (nodup_indexes t) ?_).trans (apply_congr ?_)
  · intro idx' hidx' hne w hw heq
    obtain ⟨c, _, rfl⟩ := mem_map.mp hw
    simp only [entryKey, StoreKey.entry.injEq] at heq
    exact hne (idOf_inj (n := true) hidx' hidx heq.1).2
  · apply update_of_ne
    intro heq
    cases heq

theorem kv_copyRow_key (hidx : idx ∈ t.indexes) {c : C}
    (hc : idx.columnsOf pk (st.current pk) = some c) :
    (t.copyRow st pk).kv (t.entryKey true idx pk c) = some (t.entryVal true idx pk) := by
  refine (kv_copyRow_entry hcur hidx true _ _).trans ?_
  rw [hc]
  exact update_self ..

theorem kv_copyRow_of_ne (hidx : idx ∈ t.indexes) {n : Bool} {columns : C}
    {suffix : Option (Nat × PK)} (hne : ∀ c, idx.columnsOf pk (st.current pk) = some c →
      .entry (idx.idOf n) columns suffix ≠ t.entryKey true idx pk c) :
    (t.copyRow st pk).kv (.entry (idx.idOf n) columns suffix) =
      st.kv (.entry (idx.idOf n) columns suffix) := by
  refine (kv_copyRow_entry hcur hidx n _ _).trans (apply_of_forall_ne ?_)
  intro w hw heq
  obtain ⟨c, hc, rfl⟩ := mem_map.mp hw
  exact hne c (mem_toList.mp hc) heq.symm

theorem kv_copyRow_row (bucket : Nat) (pk' : PK) :
    (t.copyRow st pk).kv (.row t.newIndexID bucket pk') =
      if bucket = t.shardBucketAt true pk ∧ pk' = pk then some (.row v)
      else st.kv (.row t.newIndexID bucket pk') := by
  rw [kv_copyRow hcur, apply_cons]
  refine (apply_of_forall_ne ?_).trans ?_
  · intro w hw heq
    obtain ⟨idx, _, hw⟩ := mem_flatMap.mp hw
    obtain ⟨c, _, rfl⟩ := mem_map.mp hw
    cases heq
  · split
    · rename_i hcond
      obtain ⟨rfl, rfl⟩ := hcond
      exact update_self ..
    · rename_i hcond
      apply update_of_ne
      intro heq
      simp only [reshardShadowKey, StoreKey.row.injEq, true_and] at heq
      exact hcond heq

theorem StoreInv.copyRow (h : StoreInv t st kept) :
    StoreInv t (t.copyRow st pk) (fun p => kept p ∨ p = pk) where
  live := by
    intro pk' idx hidx c hc
    rw [current_copyRow] at hc
    refine (kv_copyRow_of_ne (n := false) hcur hidx fun c' _ => ?_).trans (h.live pk' idx hidx c hc)
    exact live_ne_copy hidx
  sound := by
    intro n idx hidx columns suffix val hval
    have hback : ∀ {pk' c}, idx.columnsOf pk' (st.current pk') = some c →
        idx.columnsOf pk' ((t.copyRow st pk).current pk') = some c := by
      intro pk' c hc
      rw [current_copyRow]
      exact hc
    by_cases hkey : ∃ c, idx.columnsOf pk (st.current pk) = some c ∧
        .entry (idx.idOf n) columns suffix = t.entryKey true idx pk c
    · obtain ⟨c, hc, hkey⟩ := hkey
      have hn : n = true := by
        simp only [entryKey, StoreKey.entry.injEq] at hkey
        exact (idOf_inj hidx hidx (show idx.idOf n = idx.idOf true from hkey.1)).1
      subst hn
      rw [hkey, kv_copyRow_key hcur hidx hc] at hval
      exact ⟨pk, c, hback hc, hkey, (Option.some.inj hval).symm⟩
    · rw [kv_copyRow_of_ne hcur hidx fun c hc heq => hkey ⟨c, hc, heq⟩] at hval
      obtain ⟨pk', c, hc, hkey', hv⟩ := h.sound n idx hidx columns suffix val hval
      exact ⟨pk', c, hback hc, hkey', hv⟩
  newRow := by
    intro bucket pk' val hval
    rw [current_copyRow]
    rw [kv_copyRow_row hcur] at hval
    split at hval
    · rename_i hcond
      obtain ⟨hbucket, rfl⟩ := hcond
      rw [hcur]
      exact ⟨hbucket, rfl⟩
    · exact h.newRow bucket pk' val hval
  mirrored := by
    intro pk' hor
    rw [history_copyRow] at hor
    by_cases hpk : pk' = pk
    · subst hpk
      constructor
      · rw [current_copyRow, reshardShadowKey, kv_copyRow_row hcur, if_pos ⟨rfl, rfl⟩, hcur]
        rfl
      · intro idx hidx c hc
        rw [current_copyRow] at hc
        exact kv_copyRow_key hcur hidx hc
    · have hm := h.mirrored pk' (hor.imp_right fun hk => hk.resolve_right hpk)
      constructor
      · rw [current_copyRow, reshardShadowKey, kv_copyRow_row hcur, if_neg fun hc => hpk hc.2]
        exact hm.row
      · intro idx hidx c hc
        rw [current_copyRow] at hc
        refine (kv_copyRow_of_ne (n := true) hcur hidx fun c' hc' heq => ?_).trans
          (hm.entries idx hidx c hc)
        exact hpk (eq_of_entryKey h.live hidx hc hc' heq)

end Copied

variable {t : Table PK V C} {st : Store PK V C} {kept : PK → Prop}

omit [DecidableEq C] in
theorem StoreInv.mono {kept' : PK → Prop} (h : StoreInv t st kept)
    (hm : ∀ pk, kept' pk → fresh (st.history pk) = true ∨ kept pk) : StoreInv t st kept' :=
  { h with mirrored := fun pk hor => h.mirrored pk (hor.elim .inl (hm pk)) }

theorem rows_foldl_copyRow (pks : List PK) (st : Store PK V C) :
    (pks.foldl t.copyRow st).rows = st.rows := by
  induction pks generalizing st with
  | nil => rfl
  | cons pk pks ih => rw [foldl_cons, ih, rows_copyRow]

theorem StoreInv.foldl_copyRow (h : StoreInv t st kept) {pks : List PK}
    (hcur : ∀ pk ∈ pks, ∃ v, st.current pk = some v) :
    StoreInv t (pks.foldl t.copyRow st) (fun pk => kept pk ∨ pk ∈ pks) := by
  induction pks generalizing st kept with
  | nil => exact h.mono fun pk hk => .inr (hk.resolve_right (not_mem_nil))
  | cons pk pks ih =>
    obtain ⟨v, hv⟩ := hcur pk mem_cons_self
    have htail : ∀ pk' ∈ pks, ∃ v, (t.copyRow st pk).current pk' = some v := by
      intro pk' hpk'
      rw [current_copyRow]
      exact hcur pk' (mem_cons_of_mem pk hpk')
    refine (ih (h.copyRow hv) htail).mono fun pk' hk => .inr ?_
    rcases hk with hk | hk
    · exact .inl (.inl hk)
    rcases mem_cons.mp hk with rfl | hk
    · exact .inl (.inr rfl)
    · exact .inr hk

omit [DecidableEq C] in
theorem StoreInv.exact (h : StoreInv t st kept) (hall : ∀ pk, kept pk) : Exact t st where
  rows := by
    intro bucket pk
    split
    · rename_i hbucket
      rw [hbucket]
      exact (h.mirrored pk (.inr (hall pk))).row
    · rename_i hbucket
      cases hkv : st.kv (.row t.newIndexID bucket pk) with
      | none => rfl
      | some val => exact absurd (h.newRow bucket pk val hkv).1 hbucket
  entries := by
    intro idx hidx columns suffix val
    constructor
    · intro hval
      obtain ⟨pk, c, hc, hkey, hv⟩ := h.sound true idx hidx columns suffix val hval
      obtain ⟨v, hv', hcol⟩ := bind_eq_some_iff.mp hc
      exact ⟨pk, v, c, hv', hcol, hkey, hv⟩
    · rintro ⟨pk, v, c, hv, hcol, hkey, rfl⟩
      rw [hkey]
      exact (h.mirrored pk (.inr (hall pk))).entries idx hidx c (bind_eq_some_iff.mpr ⟨v, hv, hcol⟩)

/-! ## The condition on the steps -/

section Condition
variable (t : Table PK V C)

/-- The statements of a transaction without the marker take nothing away that the new
layout shows. -/
def hidesNothing (ts : Timestamp) : Store PK V C → List (Statement PK V) → Bool
  | _, [] => true
  | st, stmt :: rest =>
    hidden t st stmt.pk stmt.op.value && (t.evalStatement false ts st stmt).all fun st' =>
      hidesNothing ts st' rest

/-- When the sweep ends, no transaction without the marker can still commit a row behind
the cursor. -/
def tailClear (s : State PK V C) : Bool :=
  s.txns.entries.all fun e => e.2.marker || !e.2.mayCommit ||
    e.2.statements.all fun stmt => !t.beyond s.cursor stmt.pk

def careful (s : State PK V C) : Action PK V → Bool
  | .commit id =>
    (s.txns.lookup id).all fun txn => txn.marker || hidesNothing t txn.ts s.store txn.statements
  | .plan =>
    s.boundary.all fun b => !(t.scanAt s.store s.cursor reshardChunkSize b).isEmpty || tailClear t s
  | _ => true

end Condition

/-! ## The invariant -/

section Txns
omit [DecidableEq C]
variable {t : Table PK V C} {s s' : State PK V C} {id : TxnID}

/-- Nothing without the marker can still reach the key. -/
def Sealed (t : Table PK V C) (s : State PK V C) (pk : PK) : Prop :=
  (∃ chunk ∈ s.chunks, chunk.done = true ∧ t.inChunk chunk pk = true) ∨
    (s.swept = true ∧ t.beyond s.cursor pk = true)

structure Inv (t : Table PK V C) (s : State PK V C) : Prop where
  store : StoreInv t s.store (Sealed t s)
  versions : ∀ pk, ∀ v ∈ s.store.history pk, v.dual = false → v.ts ≤ s.lastDeadline
  deadlines : ∀ id txn, s.txns.lookup id = some txn → txn.marker = false →
    ∃ d, txn.deadline = some d ∧ d ≤ s.lastDeadline
  bound : ∀ b, s.boundary = some b → s.lastDeadline < b
  served : ∀ pk, Sealed t s pk → ∃ b, s.boundary = some b ∧ b ≤ s.served pk
  doomed : ∀ id txn, s.txns.lookup id = some txn → txn.marker = false →
    ∀ stmt ∈ txn.statements, Sealed t s stmt.pk → txn.mayCommit = false
  covered : ∀ pk, t.beyond s.cursor pk = false → ∃ chunk ∈ s.chunks, t.inChunk chunk pk = true
  swapped : Resharded t s

theorem inv_empty : Inv t (State.empty : State PK V C) := by
  constructor
  case store =>
    constructor
    case live =>
      intro pk idx hidx c hc
      cases hc
    case sound =>
      intro n idx hidx columns suffix val hval
      cases hval
    case newRow =>
      intro bucket pk val hval
      cases hval
    case mirrored =>
      intro pk _
      refine ⟨rfl, ?_⟩
      intro idx hidx c hc
      cases hc
  case versions =>
    intro pk v hv
    cases hv
  case deadlines | doomed =>
    intro id txn htxn
    cases htxn
  case bound =>
    intro b hb
    cases hb
  case served =>
    rintro pk (⟨chunk, hchunk, _⟩ | ⟨hswept, _⟩)
    · cases hchunk
    · cases hswept
  case covered =>
    intro pk hpk
    cases hpk
  case swapped =>
    intro st hst
    cases hst

theorem Inv.setTxn (h : Inv t s) {last : Timestamp} (hle : s.lastDeadline ≤ last)
    (hbound : ∀ b, s.boundary = some b → last < b)
    (hdeadline : txn.marker = false → ∃ d, txn.deadline = some d ∧ d ≤ last)
    (hdoomed : txn.marker = false → ∀ stmt ∈ txn.statements, Sealed t s stmt.pk →
      txn.mayCommit = false) :
    Inv t { s with txns := s.txns.insert id txn, lastDeadline := last } := { h with
  versions pk v hv hdual := le_trans (h.versions pk v hv hdual) hle
  deadlines := by
    intro id' txn' htxn' hmarker
    by_cases heq : id' = id
    · subst heq
      cases (lookup_insert _).symm.trans htxn'
      exact hdeadline hmarker
    · obtain ⟨d, hd, hdle⟩ := h.deadlines id' txn' ((lookup_insert_ne heq).symm.trans htxn') hmarker
      exact ⟨d, hd, le_trans hdle hle⟩
  bound := hbound
  doomed := by
    intro id' txn' htxn' hmarker
    by_cases heq : id' = id
    · subst heq
      cases (lookup_insert _).symm.trans htxn'
      exact hdoomed hmarker
    · exact h.doomed id' txn' ((lookup_insert_ne heq).symm.trans htxn') hmarker }

omit [LinearOrder PK] in
theorem lookup_of_erase {id' : TxnID} {txns : AList fun _ : TxnID => Txn PK V}
    (h : (txns.erase id).lookup id' = some txn) : txns.lookup id' = some txn := by
  by_cases heq : id' = id
  · subst heq
    simp [lookup_erase] at h
  · rwa [lookup_erase_ne heq] at h

theorem Inv.eraseTxn (h : Inv t s) (id : TxnID) :
    Inv t { s with txns := s.txns.erase id } := { h with
  deadlines id' txn' htxn' := h.deadlines id' txn' (lookup_of_erase htxn')
  doomed id' txn' htxn' := h.doomed id' txn' (lookup_of_erase htxn') }

theorem inv_start {marker : Bool} {deadline : Option Timestamp} (h : Inv t s)
    (hs : s.start id marker ts deadline = some s') : Inv t s' := by
  unfold State.start at hs
  split at hs
  · cases hs
  · cases hs
    refine h.setTxn le_rfl h.bound ?_ ?_
    · simp
    · simp
  · cases hs
  · rename_i d hnone
    split_ifs at hs with hbound
    cases hs
    refine h.setTxn (le_max_left _ _) ?_ ?_ ?_
    · intro b hb
      rw [hb] at hbound
      exact max_lt (h.bound b hb) (of_decide_eq_true hbound)
    · intro _
      exact ⟨d, rfl, le_max_right _ _⟩
    · simp

theorem inv_push (h : Inv t s) (hs : s.push id ts = some s') : Inv t s' := by
  unfold State.push at hs
  split at hs
  · cases hs
  rename_i txn htxn
  split_ifs at hs with hle
  cases hs
  refine h.setTxn le_rfl h.bound (h.deadlines id txn htxn) ?_
  intro hmarker stmt hstmt hsealed
  exact Txn.mayCommit_anti txn rfl hle (h.doomed id txn htxn hmarker stmt hstmt hsealed)

theorem inv_write {stmt : Statement PK V} (h : Inv t s) (hs : s.write id stmt = some s') :
    Inv t s' := by
  unfold State.write at hs
  split at hs
  · cases hs
  rename_i txn htxn
  split_ifs at hs
  cases hs
  refine h.setTxn le_rfl h.bound (h.deadlines id txn htxn) ?_
  intro hmarker stmt' hstmt' hsealed
  rcases mem_append.mp hstmt' with hold | hnew
  · refine Txn.mayCommit_anti txn rfl ?_ (h.doomed id txn htxn hmarker stmt' hold hsealed)
    exact le_trans (le_above _ _) (le_above _ _)
  rw [mem_singleton.mp hnew] at hsealed
  obtain ⟨b, hb, hserved⟩ := h.served stmt.pk hsealed
  obtain ⟨d, hd, hdle⟩ := h.deadlines id txn htxn hmarker
  refine Txn.mayCommit_eq_false hd ?_
  calc d ≤ s.lastDeadline := hdle
    _ < b := h.bound b hb
    _ ≤ s.served stmt.pk := hserved
    _ < above (s.served stmt.pk) txn.ts := lt_above _ _
    _ ≤ above (s.store.history stmt.pk).newest (above (s.served stmt.pk) txn.ts) := le_above _ _

end Txns

variable {st' : Store PK V C} {stmts : List (Statement PK V)} {pk : PK}

section Commit
variable {t : Table PK V C} {s s' : State PK V C} {marker : Bool} {ts : Timestamp} {id : TxnID}

theorem evalStatements_inv (h : StoreInv t st kept)
    (heval : t.evalStatements marker ts st stmts = some st') (hplain : marker = false →
      (∀ stmt ∈ stmts, ¬ kept stmt.pk) ∧ hidesNothing t ts st stmts = true) :
    StoreInv t st' kept := by
  induction stmts generalizing st with
  | nil =>
    cases heval
    exact h
  | cons stmt rest ih =>
    obtain ⟨st₁, hst₁, heval⟩ := bind_eq_some_iff.mp heval
    obtain ⟨rfl, hallows⟩ := evalStatement_spec hst₁
    refine ih (h.moved hallows fun hm => ?_) heval fun hm => ?_
    · exact ⟨(hplain hm).1 stmt mem_cons_self, (Bool.and_eq_true_iff.mp (hplain hm).2).1⟩
    refine ⟨fun stmt' hstmt' => (hplain hm).1 stmt' (mem_cons_of_mem stmt hstmt'), ?_⟩
    have hrest := (Bool.and_eq_true_iff.mp (hplain hm).2).2
    subst hm
    rw [hst₁] at hrest
    exact hrest

theorem mem_history_evalStatements (heval : t.evalStatements marker ts st stmts = some st')
    {v : Version V} (hv : v ∈ st'.history pk) :
    v ∈ st.history pk ∨ (v.ts = ts ∧ v.dual = marker) := by
  induction stmts generalizing st with
  | nil =>
    cases heval
    exact .inl hv
  | cons stmt rest ih =>
    obtain ⟨st₁, hst₁, heval⟩ := bind_eq_some_iff.mp heval
    obtain ⟨rfl, _⟩ := evalStatement_spec hst₁
    rcases ih heval with hmem | hnew
    · by_cases hpk : pk = stmt.pk
      · rw [hpk, Store.history_moved_self] at hmem
        rcases mem_cons.mp hmem with rfl | hmem
        · exact .inr ⟨rfl, rfl⟩
        · exact .inl (hpk ▸ hmem)
      · rw [Store.history_moved_of_ne hpk] at hmem
        exact .inl hmem
    · exact .inr hnew

theorem inv_commit (h : Inv t s) (hg : careful t s (.commit id) = true)
    (hs : s.commit t id = some s') : Inv t s' := by
  unfold State.commit at hs
  split at hs
  · cases hs
  rename_i txn htxn
  split_ifs at hs with hmay
  obtain ⟨st, heval, rfl⟩ := map_eq_some_iff.mp hs
  simp only [careful, htxn, all_some, Bool.or_eq_true] at hg
  have hplain : txn.marker = false →
      (∀ stmt ∈ txn.statements, ¬ Sealed t s stmt.pk) ∧
        hidesNothing t txn.ts s.store txn.statements = true := by
    intro hm
    refine ⟨?_, hg.resolve_left (by simp [hm])⟩
    intro stmt hstmt hsealed
    simp [h.doomed id txn htxn hm stmt hstmt hsealed] at hmay
  have hversions : ∀ pk, ∀ v ∈ st.history pk, v.dual = false → v.ts ≤ s.lastDeadline := by
    intro pk v hv hdual
    rcases mem_history_evalStatements heval hv with hold | ⟨hts, hmarker⟩
    · exact h.versions pk v hold hdual
    obtain ⟨d, hd, hdle⟩ := h.deadlines id txn htxn (hmarker.symm.trans hdual)
    unfold Txn.mayCommit at hmay
    rw [hd] at hmay
    rw [hts]
    exact le_trans (of_decide_eq_true hmay) hdle
  have herase := h.eraseTxn id
  exact { herase with
    store := evalStatements_inv h.store heval hplain
    versions := hversions }

end Commit

section Backfill
variable {t : Table PK V C} {s s' : State PK V C} {b : Timestamp}

omit [DecidableEq C] in
theorem inv_takeBoundary (h : Inv t s) (hs : s.takeBoundary b = some s') : Inv t s' := by
  unfold State.takeBoundary at hs
  split at hs
  · cases hs
  rename_i hnone
  split_ifs at hs with hlt
  cases hs
  exact { h with
    bound := by
      intro b' hb'
      cases hb'
      exact hlt
    served := by
      intro pk hsealed
      obtain ⟨b', hb', _⟩ := h.served pk hsealed
      rw [hnone] at hb'
      cases hb' }

omit [DecidableEq C] in
theorem Inv.fresh_of_valueAt (h : Inv t s) (hb : s.boundary = some b) (hle : b ≤ ts)
    (hnone : (s.store.history pk).valueAt ts = none) : fresh (s.store.history pk) = true := by
  refine Reshard.fresh_of_valueAt (fun v hv hlt => ?_) hnone
  by_contra hdual
  have hver := h.versions pk v hv ((Bool.not_eq_true _).mp hdual)
  exact absurd (lt_of_le_of_lt hver (h.bound b hb)) (not_lt.mpr (le_trans hle hlt.le))

variable {p : PK → Bool}

omit [DecidableEq C] in
theorem valueAt_of_not_visible (hp : p pk = true) (hnot : pk ∉ visible st ts p) :
    (st.history pk).valueAt ts = none := by
  unfold Store.history
  cases hrow : st.rows.lookup pk with
  | none => rfl
  | some vs =>
    by_contra hsome
    refine hnot (mem_map.mpr ⟨⟨pk, vs⟩, mem_filter.mpr ⟨mem_lookup_iff.mp hrow, ?_⟩, rfl⟩)
    exact Bool.and_eq_true_iff.mpr ⟨hp, isSome_iff_ne_none.mpr hsome⟩

omit [DecidableEq C] in
theorem mem_visible (h : pk ∈ visible st ts p) :
    p pk = true ∧ ((st.history pk).valueAt ts).isSome = true := by
  obtain ⟨e, he, rfl⟩ := mem_map.mp h
  obtain ⟨hmem, hcond⟩ := mem_filter.mp he
  obtain ⟨hp, hsome⟩ := Bool.and_eq_true_iff.mp hcond
  have hrow : st.rows.lookup e.1 = some e.2 := mem_lookup_iff.mpr hmem
  refine ⟨hp, ?_⟩
  unfold Store.history
  rw [hrow]
  exact hsome

omit [DecidableEq C] in
theorem visible_of_scanAt {cursor : Option (Nat ×ₗ PK)} {limit : Nat} (hlimit : 0 < limit)
    (h : t.scanAt st cursor limit ts = []) : visible st ts (t.beyond cursor) = [] := by
  rcases take_eq_nil_iff.mp h with hzero | hnil
  · omega
  · exact length_eq_zero_iff.mp
      (by rw [← length_insertionSort (fun a b => t.oldKey a ≤ t.oldKey b), hnil]; rfl)

omit [LinearOrder PK] [DecidableEq C] in
theorem le_serve (p : PK → Bool) (ts : Timestamp) (pk : PK) : s.served pk ≤ s.serve p ts pk := by
  unfold State.serve
  split
  · exact le_max_left _ _
  · exact le_refl _

omit [LinearOrder PK] [DecidableEq C] in
theorem le_serve_of_mem (hp : p pk = true) : ts ≤ s.serve p ts pk := by
  unfold State.serve
  rw [if_pos hp]
  exact le_max_right _ _

omit [DecidableEq C] in
theorem inv_endSweep (h : Inv t s) (hb : s.boundary = some b)
    (hnil : t.scanAt s.store s.cursor reshardChunkSize b = []) (hclear : tailClear t s = true) :
    Inv t (s.endSweep t b) := by
  have hvisible := visible_of_scanAt (by decide) hnil
  have hcases : ∀ pk, Sealed t (s.endSweep t b) pk →
      Sealed t s pk ∨ t.beyond s.cursor pk = true := by
    rintro pk (hdone | ⟨_, hbeyond⟩)
    · exact .inl (.inl hdone)
    · exact .inr hbeyond
  exact { h with
    store := by
      refine h.store.mono fun pk hsealed => ?_
      rcases hcases pk hsealed with hsealed | hbeyond
      · exact .inr hsealed
      refine .inl (h.fresh_of_valueAt hb (le_refl b) (valueAt_of_not_visible hbeyond ?_))
      rw [hvisible]
      exact not_mem_nil
    served := by
      intro pk hsealed
      rcases hcases pk hsealed with hsealed | hbeyond
      · obtain ⟨b', hb', hle⟩ := h.served pk hsealed
        exact ⟨b', hb', le_trans hle (le_serve _ _ _)⟩
      · exact ⟨b, hb, le_serve_of_mem hbeyond⟩
    doomed := by
      intro id txn htxn hmarker stmt hstmt hsealed
      rcases hcases stmt.pk hsealed with hsealed | hbeyond
      · exact h.doomed id txn htxn hmarker stmt hstmt hsealed
      have htail := all_eq_true.mp hclear _ (mem_lookup_iff.mp htxn)
      simp only [hmarker, Bool.false_or, Bool.or_eq_true, Bool.not_eq_true'] at htail
      rcases htail with hmay | hall
      · exact hmay
      have := all_eq_true.mp hall stmt hstmt
      rw [hbeyond] at this
      cases this }

omit [DecidableEq C] in
theorem inv_planChunk (h : Inv t s) (hswept : s.swept = false) (last : PK) :
    Inv t (s.planChunk t b last) := by
  have hsealed : ∀ pk, Sealed t (s.planChunk t b last) pk → Sealed t s pk := by
    rintro pk (⟨chunk, hchunk, hdone, hin⟩ | ⟨hs, _⟩)
    · rcases mem_append.mp hchunk with hchunk | hchunk
      · exact .inl ⟨chunk, hchunk, hdone, hin⟩
      · simp [mem_singleton.mp hchunk] at hdone
    · simp [show s.swept = true from hs] at hswept
  exact { h with
    store := h.store.mono fun pk hk => .inr (hsealed pk hk)
    served := by
      intro pk hk
      obtain ⟨b', hb', hle⟩ := h.served pk (hsealed pk hk)
      exact ⟨b', hb', le_trans hle (le_serve _ _ _)⟩
    doomed := by
      intro id txn htxn hmarker stmt hstmt hk
      exact h.doomed id txn htxn hmarker stmt hstmt (hsealed _ hk)
    covered := by
      intro pk hpk
      have hle : t.oldKey pk ≤ t.oldKey last := not_lt.mp (of_decide_eq_false hpk)
      cases hbeyond : t.beyond s.cursor pk with
      | false =>
        obtain ⟨chunk, hchunk, hin⟩ := h.covered pk hbeyond
        exact ⟨chunk, mem_append_left _ hchunk, hin⟩
      | true =>
        refine ⟨_, mem_append_right _ (mem_singleton.mpr rfl), ?_⟩
        exact Bool.and_eq_true_iff.mpr ⟨hbeyond, decide_eq_true hle⟩ }

theorem inv_plan (h : Inv t s) (hg : careful t s .plan = true) (hs : s.plan t = some s') :
    Inv t s' := by
  unfold State.plan at hs
  split at hs
  · cases hs
  rename_i b hb
  split_ifs at hs with hswept
  split at hs
  · rename_i hlast
    cases hs
    have hnil := getLast?_eq_none_iff.mp hlast
    refine inv_endSweep h hb hnil ?_
    simpa [careful, hb, hnil] using hg
  · rename_i last hlast
    cases hs
    exact inv_planChunk h ((Bool.not_eq_true _).mp hswept) last

theorem inv_copyChunk {i : Nat} {chunk : Chunk PK} (h : Inv t s) (hb : s.boundary = some b)
    (hchunk : s.chunks[i]? = some chunk) (hlt : b < ts)
    (hblocked : s.chunkBlocked t chunk ts = false)
    (hnewest : ∀ pk ∈ visible s.store ts (t.inChunk chunk), (s.store.history pk).newest ≤ ts) :
    Inv t (s.copyChunk t i chunk ts) := by
  have hhistory : ∀ pk, (s.copyChunk t i chunk ts).store.history pk = s.store.history pk := by
    intro pk
    unfold Store.history State.copyChunk
    rw [rows_foldl_copyRow]
  have hcur : ∀ pk ∈ visible s.store ts (t.inChunk chunk), ∃ v, s.store.current pk = some v :=
    fun pk hpk => current_of_valueAt (hnewest pk hpk) (mem_visible hpk).2
  have hcases : ∀ pk, Sealed t (s.copyChunk t i chunk ts) pk →
      Sealed t s pk ∨ t.inChunk chunk pk = true := by
    rintro pk (⟨x, hx, hdone, hin⟩ | hk)
    · rcases mem_or_eq_of_mem_set hx with hx | rfl
      · exact .inl (.inl ⟨x, hx, hdone, hin⟩)
      · exact .inr hin
    · exact .inl (.inr hk)
  exact { h with
    store := by
      refine (h.store.foldl_copyRow hcur).mono fun pk hk => ?_
      rcases hcases pk hk with hk | hin
      · exact .inr (.inl hk)
      by_cases hvisible : pk ∈ visible s.store ts (t.inChunk chunk)
      · exact .inr (.inr hvisible)
      · refine .inl ((congrArg fresh (hhistory pk)).trans ?_)
        exact h.fresh_of_valueAt hb hlt.le (valueAt_of_not_visible hin hvisible)
    versions := by
      intro pk v hv
      rw [hhistory] at hv
      exact h.versions pk v hv
    served := by
      intro pk hk
      rcases hcases pk hk with hk | hin
      · obtain ⟨b', hb', hle⟩ := h.served pk hk
        exact ⟨b', hb', le_trans hle (le_serve _ _ _)⟩
      · exact ⟨b, hb, le_trans hlt.le (le_serve_of_mem hin)⟩
    doomed := by
      intro id txn htxn hmarker stmt hstmt hk
      rcases hcases stmt.pk hk with hk | hin
      · exact h.doomed id txn htxn hmarker stmt hstmt hk
      have hfree := any_eq_false.mp hblocked _ (mem_lookup_iff.mp htxn)
      have hfree := any_eq_false.mp ((Bool.not_eq_true _).mp hfree) stmt hstmt
      rw [hin, Bool.true_and, Bool.or_eq_true, not_or] at hfree
      have hts : ts < txn.ts := not_le.mp fun hle => hfree.1 (decide_eq_true hle)
      obtain ⟨d, hd, hdle⟩ := h.deadlines id txn htxn hmarker
      refine Txn.mayCommit_eq_false hd ?_
      calc d ≤ s.lastDeadline := hdle
        _ < b := h.bound b hb
        _ < ts := hlt
        _ < txn.ts := hts
    covered := by
      intro pk hpk
      obtain ⟨x, hx, hin⟩ := h.covered pk hpk
      obtain ⟨j, hj⟩ := getElem?_of_mem hx
      by_cases hji : i = j
      · subst hji
        rw [hchunk] at hj
        cases hj
        exact ⟨_, List.mem_set (List.getElem?_eq_some_iff.mp hchunk).1 _, hin⟩
      · exact ⟨x, List.mem_of_getElem? ((List.getElem?_set_ne hji).trans hj), hin⟩ }

theorem inv_reshardChunk {i : Nat} (h : Inv t s) (hs : s.reshardChunk t i ts = some s') :
    Inv t s' := by
  unfold State.reshardChunk at hs
  split at hs
  · rename_i b chunk hb hchunk
    split_ifs at hs with hcond
    obtain ⟨_, hlt, hblocked, hnewest⟩ := hcond
    cases hs
    refine inv_copyChunk h hb hchunk hlt hblocked fun pk hpk => ?_
    exact of_decide_eq_true (all_eq_true.mp hnewest pk hpk)
  · cases hs

omit [DecidableEq C] in
theorem inv_swap (h : Inv t s) (hs : s.swap = some s') : Inv t s' := by
  unfold State.swap at hs
  split_ifs at hs with hcond
  obtain ⟨hswept, hdone, _⟩ := hcond
  cases hs
  have hall : ∀ pk, Sealed t s pk := by
    intro pk
    cases hbeyond : t.beyond s.cursor pk with
    | true => exact .inr ⟨hswept, hbeyond⟩
    | false =>
      obtain ⟨chunk, hchunk, hin⟩ := h.covered pk hbeyond
      exact .inl ⟨chunk, hchunk, all_eq_true.mp hdone chunk hchunk, hin⟩
  exact { h with
    swapped := by
      intro st hst
      cases hst
      exact h.store.exact hall }

theorem inv_step {a : Action PK V} (h : Inv t s) (hg : careful t s a = true)
    (hs : step t s a = some s') :
    Inv t s' := by
  cases a with
  | start id marker ts deadline => exact inv_start h hs
  | write id stmt => exact inv_write h hs
  | push id ts => exact inv_push h hs
  | commit id => exact inv_commit h hg hs
  | abort id =>
    cases hs
    exact h.eraseTxn id
  | takeBoundary b => exact inv_takeBoundary h hs
  | plan => exact inv_plan h hg hs
  | reshardChunk i ts => exact inv_reshardChunk h hs
  | swap => exact inv_swap h hs

/-- In every run of careful steps the layouts agree when the swap commits. -/
theorem reshard_exact (t : Table PK V C) {actions : List (Action PK V)}
    (hguard : Runs.Guarded (step t) (fun s a => careful t s a = true) State.empty actions)
    (hrun : run (step t) State.empty actions = some s) : Resharded t s :=
  (invariant_of_run (fun _ _ _ h hg hs => inv_step h hg hs) inv_empty hguard hrun).swapped

end Backfill

section Examples

private def differs (t : Table Nat Nat Nat) (pk : Nat) (s : State Nat Nat Nat) : Bool :=
  s.swapped.any fun st => st.kv (t.reshardShadowKey pk) != (st.current pk).map .row

private theorem not_resharded_of_run {t : Table Nat Nat Nat}
    {actions : List (Action Nat Nat)} (pk : Nat)
    (h : ∃ s, run (step t) State.empty actions = some s ∧ differs t pk s = true) :
    ∃ s, run (step t) State.empty actions = some s ∧ ¬ Resharded t s := by
  refine exists_of_run _ h fun s _ hs hresharded => ?_
  obtain ⟨st, hst, hne⟩ := (any_eq_true _ _).mp hs
  have hrow := (hresharded st hst).rows (t.shardBucketAt true pk) pk
  rw [if_pos rfl] at hrow
  exact bne_iff_ne.mp hne hrow

private def bare : Table Nat Nat Nat := ⟨id, 2, 3, 2, [], by decide⟩

private def indexed : Table Nat Nat Nat :=
  ⟨id, 2, 3, 3, [⟨2, 4, false, fun _ v => some v⟩], by decide⟩

/-- Transaction 7 inserts row 1 without the marker, and commits after the sweep has read beneath it.
-/
private def lateInsert : List (Action Nat Nat) :=
  [.start 7 false ⟨5, 0⟩ (some ⟨8, 0⟩), .write 7 ⟨1, .insert 10⟩, .takeBoundary ⟨10, 0⟩, .plan,
    .commit 7, .swap]

/-- Transaction 8 inserts row 1 into both layouts, and 7 deletes it from the old one. -/
private def lateDelete : List (Action Nat Nat) :=
  [.start 8 true ⟨3, 0⟩ none, .write 8 ⟨1, .insert 10⟩, .commit 8,
    .start 7 false ⟨5, 0⟩ (some ⟨8, 0⟩), .write 7 ⟨1, .delete⟩, .commit 7, .takeBoundary ⟨10, 0⟩,
    .plan, .swap]

private def concurrentWrites : List (Action Nat Nat) :=
  [.start 7 false ⟨5, 0⟩ (some ⟨8, 0⟩), .write 7 ⟨1, .insert 10⟩,
    .write 7 ⟨6, .insert 60⟩, .commit 7, .start 8 false ⟨6, 0⟩ (some ⟨8, 0⟩),
    .write 8 ⟨4, .insert 40⟩, .write 8 ⟨6, .delete⟩, .start 9 true ⟨6, 0⟩ none,
    .write 9 ⟨3, .insert 30⟩, .takeBoundary ⟨10, 0⟩, .plan, .commit 8, .start 10 true ⟨11, 0⟩ none,
    .write 10 ⟨1, .update 11⟩, .commit 9, .plan, .plan, .commit 10, .reshardChunk 1 ⟨13, 0⟩,
    .reshardChunk 0 ⟨12, 0⟩, .swap]

theorem reshard_exact_concurrent : ∃ s, run (step indexed) State.empty concurrentWrites = some s ∧
      (s.swapped.map fun st => [1, 3, 4, 6].map st.current) =
        some [some 11, some 30, some 40, none] ∧
      Resharded indexed s := by
  refine exists_of_run
    (fun s => (s.swapped.map fun st => [1, 3, 4, 6].map st.current) =
      some [some 11, some 30, some 40, none])
    (by decide +kernel) ?_
  exact fun s hrun hs => ⟨hs, reshard_exact indexed (by decide +kernel) hrun⟩

/-- The sweep does not see an intent behind its last row, and no chunk copies what it
becomes. A row that both layouts have stays in the new one when a transaction without the
marker deletes it. -/
theorem sweep_misses_intent :
    (∃ s, run (step bare) State.empty lateInsert = some s ∧ ¬ Resharded bare s) ∧
      ∃ s, run (step bare) State.empty lateDelete = some s ∧ ¬ Resharded bare s :=
  ⟨not_resharded_of_run 1 (by decide +kernel), not_resharded_of_run 1 (by decide +kernel)⟩

end Examples

end Datax.Reshard
