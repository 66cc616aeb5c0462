import Datax.Shared.Runs
import Datax.Kvclient.Anchoring

/-!
# A commit leaves no tracked write behind

The invariant of the run: a tracked or saved write set is anchored, an anchored transaction has
its record, and one without an anchor key has written nothing. Operations keep it as long as they
write the anchor key first.
-/

namespace Datax.Anchoring

open Option (map_eq_some_iff)

open Function List RecordKept Runs

structure Inv (s : Running) : Prop where
  tracked : s.session.writes ≠ [] → s.session.anchored = true
  saved : ∀ p ∈ s.session.savepoints, p.2.writes ≠ [] → s.session.anchored = true
  record : s.session.anchored = true → s.ranges.record.isSome = true
  keyed : s.session.anchored = true → s.session.txn.key ≠ []
  untouched : s.session.txn.key = [] → Untouched s.session.txn.id s.ranges
  running : s.outcome = none → RecordOpen s.ranges.record
  commits : CommitsAll s

variable {attempts : List Attempt} {ret : Returned} {id : UUID} {rec : Option Transaction}
  {status : TxnStatus}

section Steps
variable {s : Running}

theorem prepared (h : Inv s) {o : Op} (hkeys : o.keys ≠ [])
    (hc : anchorsFirst s (.op o attempts ret) = true) :
    (s.session.prepareWrite o.keys).1.txn.key ≠ [] ∧
      (s.session.anchored = false → (s.session.prepareWrite o.keys).2 = true ∧
        (s.session.prepareWrite o.keys).1.txn.key ∈ o.keys ∧ Op.spans o = true) := by
  have hne : (o.keys == []) = false := beq_eq_false_iff_ne.mpr hkeys
  unfold Session.prepareWrite
  cases ha : s.session.anchored with
  | true =>
    refine ⟨?_, fun hno => by cases hno⟩
    exact h.keyed ha
  | false =>
    simp only [anchorsFirst, ha, hne, Bool.false_or, Bool.and_eq_true] at hc
    obtain ⟨hkey, hspan⟩ := hc
    by_cases hk : s.session.txn.key = []
    · rw [if_pos hk] at hkey
      obtain ⟨k, ks, hks⟩ := exists_cons_of_ne_nil hkeys
      have hk0 : k ≠ [] := by simpa [hks] using hkey
      simp [hk, hks, hk0, hspan]
    · rw [if_neg hk] at hkey
      have hmem : s.session.txn.key ∈ o.keys := by simpa using hkey
      simp [hk, hmem, hspan]

variable {t : Session} {st : Ranges}

section
variable (h : Inv s) (hout : s.outcome = none)
include h hout

theorem Inv.of_op (hsaved : t.savepoints = s.session.savepoints)
    (hkey : t.txn.key ≠ []) (hstays : s.session.anchored = true → t.anchored = true)
    (hwrites : t.writes ≠ [] → t.anchored = true)
    (hrecord : t.anchored = true → st.record.isSome = true) (hopen : RecordOpen st.record) :
    Inv { s with session := t, ranges := st } where
  tracked := hwrites
  saved p hp hne := hstays (h.saved p (hsaved ▸ hp) hne)
  record := hrecord
  keyed _ := hkey
  untouched hk := absurd hk hkey
  running _ := hopen
  commits := by
    constructor
    · intro hc
      simp [hout] at hc
    · intro hc
      simp [hout] at hc

theorem Inv.op {o : Op} (hc : anchorsFirst s (.op o attempts ret) = true) {p : Session × Ranges}
    (hp : runOp o attempts ret s.session s.ranges = some p) :
    Inv { s with session := p.1, ranges := p.2 } := by
  by_cases hkeys : o.keys = []
  · unfold runOp at hp
    rw [if_pos hkeys] at hp
    split_ifs at hp
    cases hp
    exact h
  · obtain ⟨hkey, hfirst⟩ := prepared h hkeys hc
    obtain ⟨_, create, t, acks, hcreate, hsent, hend⟩ := runOp_some hkeys hp
    obtain ⟨txn, hprep⟩ :
        ∃ txn, (s.session.prepareWrite o.keys).1 = { s.session with txn := txn } := by
      obtain ⟨key, h⟩ := prepareWrite_fst s.session o.keys
      exact ⟨_, h⟩
    rw [← hcreate] at hfirst
    rw [hprep] at hkey hfirst hsent
    have hkept := sendAttempts_kept create attempts { s.session with txn := txn } s.ranges
    obtain ⟨read, write, _, rfl⟩ : Session.Moved { s.session with txn := txn } t := by
      have hmoved := sendAttempts_moved create attempts { s.session with txn := txn } s.ranges
      rwa [hsent] at hmoved
    rw [hsent] at hkept
    have hopen : RecordOpen p.2.record := hkept.2 (h.running hout)
    rcases hend with ⟨_, hrec⟩ | ⟨_, finished, hfin⟩
    · obtain ⟨⟨u, ⟨read', write', _, rfl⟩, kys, htxn, hsub⟩, hsaved⟩ := recorded_of_record hrec
      have hanchored : p.1.anchored = (s.session.anchored || kys.contains txn.key) := by
        rw [htxn, recordWrites_anchored]
      have hnow : p.1.anchored = true ∧ p.2.record.isSome = true := by
        cases ha : s.session.anchored with
        | true => exact ⟨by rw [hanchored, ha, Bool.true_or], hkept.1 (h.record ha)⟩
        | false =>
          obtain ⟨rfl, hmem, hspan⟩ := hfirst ha
          obtain ⟨a, hack, hcov⟩ := covered_of_record hrec hmem hspan
          have hcreated : (sendAttempts true attempts { s.session with txn := txn }
              s.ranges).2.1.record.isSome = true := by
            apply sendAttempts_creates _ hcov
            rwa [hsent]
          rw [hsent] at hcreated
          refine ⟨?_, hcreated⟩
          rw [hanchored]
          simp [hsub _ hmem]
      apply h.of_op hout hsaved
      · rw [htxn, recordWrites_txn]
        exact hkey
      · exact fun _ => hnow.1
      · exact fun _ => hnow.1
      · exact fun _ => hnow.2
      · exact hopen
    · rw [hfin]
      apply h.of_op hout
      · rfl
      · exact hkey
      · exact id
      · exact h.tracked
      · exact fun ha => hkept.1 (h.record ha)
      · exact hopen

theorem Inv.of_session (hkey : t.txn.key = s.session.txn.key) (hid : t.txn.id = s.session.txn.id)
    (hanchored : t.anchored = s.session.anchored)
    (hwrites : t.writes ≠ [] → s.session.anchored = true) (hsaved : ∀ p ∈ t.savepoints,
      p.2.writes ≠ [] → s.session.anchored = true) (hrecord : st.record = s.ranges.record)
    (hintents : Untouched s.session.txn.id s.ranges → Untouched s.session.txn.id st) :
    Inv { s with session := t, ranges := st } where
  tracked hw := hanchored.trans (hwrites hw)
  saved p hp hw := hanchored.trans (hsaved p hp hw)
  record ha := by
    rw [hrecord]
    exact h.record (hanchored ▸ ha)
  keyed ha := by
    rw [hkey]
    exact h.keyed (hanchored ▸ ha)
  untouched hk := by
    rw [hid]
    exact hintents (h.untouched (hkey ▸ hk))
  running _ := by
    rw [hrecord]
    exact h.running hout
  commits := by
    constructor
    · intro hc
      simp [hout] at hc
    · intro hc
      simp [hout] at hc

end

variable {name : String}

theorem Inv.savepoint (h : Inv s) (hout : s.outcome = none)
    (ht : s.session.savepoint name = .ok t) : Inv { s with session := t } := by
  unfold Session.savepoint at ht
  split_ifs at ht
  cases ht
  refine h.of_session hout rfl rfl rfl h.tracked ?_ rfl id
  intro p hp
  rcases mem_cons.mp hp with rfl | hp
  · exact h.tracked
  · exact h.saved p (mem_of_mem_filter hp)

theorem Inv.release (h : Inv s) (hout : s.outcome = none)
    (ht : s.session.releaseSavepoint name = .ok t) : Inv { s with session := t } := by
  unfold Session.releaseSavepoint at ht
  split at ht
  · cases ht
  cases ht
  refine h.of_session hout rfl rfl rfl h.tracked ?_ rfl id
  exact fun p hp => h.saved p (mem_of_mem_filter hp)

theorem untouched_rollback {seq : Int} {kys : List Key} (h : Untouched id st) :
    Untouched id (rollbackIntents id seq kys st) := by
  intro k intent hk
  simp only [rollbackIntents] at hk
  split at hk
  · obtain ⟨old, hold, hid⟩ := mvccRollbackIntent_intent hk
    rw [← hid]
    exact h k old hold
  · exact h k intent hk

theorem Inv.rollbackTo (h : Inv s) {applied : List Key} {s' : Running}
    (hs : step s (.rollbackTo name applied) = some s') : Inv s' := by
  simp only [step] at hs
  split at hs
  · cases hs
  rename_i sp hfind
  split at hs
  · cases hs
  rename_i hgo
  have hout : s.outcome = none := by
    cases ho : s.outcome with
    | none => rfl
    | some o => simp [ho] at hgo
  obtain ⟨l₁, l₂, hl, _⟩ := lookup_eq_some_iff.mp hfind
  have hmem : (name, sp) ∈ s.session.savepoints := by simp [hl]
  split at hs
  · rename_i t ht
    cases hs
    rw [Session.rollbackToSavepoint_ok hfind ht]
    refine h.of_session hout rfl rfl rfl (h.saved _ hmem) ?_ rfl untouched_rollback
    exact fun p hp => h.saved p (mem_of_mem_filter hp)
  · cases hs
    exact h.of_session hout rfl rfl rfl h.tracked h.saved rfl untouched_rollback

def ended (s : Running) (t : Session) (rec : Option Transaction) (path : CommitPath) : Running :=
  ⟨{ t with finished := true }, { s.ranges with record := rec }, some path⟩

theorem Inv.ended (h : Inv s) (ht : Session.Moved s.session t) {path : CommitPath}
    (hrec : s.ranges.record.isSome = true → rec.isSome = true)
    (hall : CommitsAll (ended s t rec path)) :
    Inv (ended s t rec path) := by
  obtain ⟨read, write, _, rfl⟩ := ht
  exact {
    tracked := h.tracked
    saved := h.saved
    record := fun ha => hrec (h.record ha)
    keyed := h.keyed
    untouched := h.untouched
    running := fun ho => by cases ho
    commits := hall }

theorem Inv.commit (h : Inv s) (hout : s.outcome = none) {s' : Running}
    {refreshes : List (Timestamp × (ReadSpan → Bool))}
    (hc : anchorsFirst s (.commit refreshes) = true) (hs : Anchoring.commit refreshes s = some s') :
    Inv s' := by
  have hmoved := s.session.refreshAll_moved refreshes
  unfold Anchoring.commit at hs
  split at hs
  · cases hs
  split at hs
  · rename_i _ hno
    cases hs
    have hanchored : s.session.anchored = false := by simpa using hno
    have hkey : s.session.txn.key = [] := by simpa [anchorsFirst, hanchored] using hc
    apply h.ended (Session.Moved.refl _) id
    refine ⟨?_, fun _ => h.untouched hkey⟩
    intro ho
    cases ho
  · dsimp only at hs
    split at hs
    · rename_i rec resp hend
      cases hs
      have hrec : ∃ r, rec = some r ∧ r.status = .committed ∧
          r.intentKeys = (s.session.refreshAll refreshes).writes := by
        obtain ⟨_, ⟨e, he, hst, _⟩ | ⟨_, _, rfl, _⟩⟩ := evalEndTxn_ok_iff.mp hend
        · rcases h.running hout e he with hp | hp <;> rw [hp] at hst <;> cases hst
        · exact ⟨_, rfl, rfl, rfl⟩
      obtain ⟨r, rfl, hst, hkeys⟩ := hrec
      apply h.ended hmoved (fun _ => rfl)
      refine ⟨fun _ => ⟨r, rfl, hst, ?_⟩, ?_⟩
      · intro k hk
        rw [hkeys]
        exact hk
      · intro ho
        cases ho
    · cases hs
      apply h.ended hmoved id
      constructor <;> (intro ho; cases ho)

theorem Inv.of_ranges (h : Inv s) (hkept : RecordKept s.ranges.record st.record)
    (hdone : ∀ r, s.ranges.record = some r → r.status = .committed → st.record = some r)
    (hintents : Untouched s.session.txn.id s.ranges → Untouched s.session.txn.id st) :
    Inv { s with ranges := st } := { h with
  record ha := hkept.1 (h.record ha)
  untouched hk := hintents (h.untouched hk)
  running ho := hkept.2 (h.running ho)
  commits := by
    refine ⟨fun ho => ?_, fun ho => hintents (h.commits.2 ho)⟩
    obtain ⟨r, hr, hst, hkeys⟩ := h.commits.1 ho
    exact ⟨r, hdone r hr hst, hst, hkeys⟩ }

theorem heartbeat_kept {rec' : Option Transaction} {txn : Transaction} {req : HeartbeatTxnRequest}
    (h : evalHeartbeatTxn rec txn req = .ok (rec', status)) :
    RecordKept rec rec' ∧ ∀ r, rec = some r → r.status = .committed → rec' = some r := by
  rcases rec with _ | r
  · cases h
  simp only [evalHeartbeatTxn] at h
  split at h
  · rename_i hp
    cases h
    refine ⟨of_pending _ hp, ?_⟩
    rintro _ ⟨⟩ hc
    simp [hp] at hc
  · cases h
    exact ⟨refl _, fun _ hr _ => hr⟩

theorem push_kept (rec : Option Transaction) (req : PushTxnRequest) :
    RecordKept rec (evalPushTxn rec req).1 ∧
      ∀ r, rec = some r → r.status = .committed → (evalPushTxn rec req).1 = some r := by
  have haborted : ∀ r : Transaction, r.status = .aborted → RecordKept rec (some r) := by
    intro r hr
    refine ⟨fun _ => rfl, fun _ => ?_⟩
    rintro _ ⟨⟩
    exact .inr hr
  rcases rec with _ | r
  · refine ⟨?_, fun r hr => by cases hr⟩
    unfold evalPushTxn
    dsimp only
    split
    · exact haborted _ rfl
    · exact refl _
  · cases hr : r.status with
    | pending =>
      refine ⟨?_, ?_⟩
      · simp only [evalPushTxn, hr]
        split
        · exact haborted _ rfl
        · exact refl _
      · rintro _ ⟨⟩ hc
        simp [hr] at hc
    | committed | aborted | staging => simp [evalPushTxn, hr, refl]

theorem untouched_put {st' : Ranges} {key : Key} {ts : Timestamp} {value : Option Bytes}
    {txn : Option TxnMeta} (htxn : ∀ t ∈ txn, t.id ≠ id)
    (hp : mvccPut st key ts value txn = .ok st') (h : Untouched id st) :
    Untouched id st' := by
  unfold mvccPut at hp
  split at hp
  · rename_i h' hw
    cases hp
    intro k intent hk
    by_cases hkk : k = key
    · subst hkk
      simp only [Ranges.setHistory, update_self] at hk
      rcases mvccWrite_ok hw with hsame | ⟨t, history, ht, hnew⟩
      · exact h k intent (hsame ▸ hk)
      rw [hnew] at hk
      cases hk
      exact htxn t ht
    · simp only [Ranges.setHistory, update_of_ne hkk] at hk
      exact h k intent hk
  · cases hp

theorem untouched_resolve {key : Key} {txnID : UUID} {commitTS : Timestamp} {h' : KeyHistory}
    (hr : mvccResolveIntent (st.data key) key txnID status commitTS = .ok h')
    (h : Untouched id st) :
    Untouched id (st.setHistory key h') := by
  intro k intent hk
  by_cases hkk : k = key
  · subst hkk
    simp only [Ranges.setHistory, update_self] at hk
    rcases mvccResolveIntent_ok hr with hsame | ⟨hnone, _⟩
    · exact h k intent (hsame ▸ hk)
    · simp [hnone] at hk
  · simp only [Ranges.setHistory, update_of_ne hkk] at hk
    exact h k intent hk

theorem Inv.other (h : Inv s) {hd : BatchHeader} {q : Request} {p : Ranges × Response}
    (hf : foreign s.session.txn.id hd q = true) (hp : evalRequest hd s.ranges q = .ok p) :
    Inv { s with ranges := p.1 } := by
  simp only [foreign, Bool.and_eq_true] at hf
  obtain ⟨hid, hkind⟩ := hf
  have htxn : ∀ t ∈ hd.meta?, t.id ≠ s.session.txn.id := by
    intro t ht
    obtain ⟨txn, hh, rfl⟩ := map_eq_some_iff.mp ht
    simpa [hh] using hid
  obtain ⟨st', resp⟩ := p
  cases evaluated_of_ok hp with
  | laid hl hresp hput =>
    have hrec := mvccPut_record hput
    refine h.of_ranges ?_ ?_ (untouched_put htxn hput)
    · rw [hrec]
      exact refl _
    · intro r hr _
      rw [hrec, hr]
  | pushed req =>
    obtain ⟨hkept, hdone⟩ := push_kept s.ranges.record req
    exact h.of_ranges hkept hdone id
  | resolved hres => exact h.of_ranges (refl _) (fun _ hr _ => hr) (untouched_resolve hres)
  | ended hend | beaten hbeat | recovered req => cases hkind

theorem inv_step (s : Running) (a : Action) (s' : Running) (h : Inv s)
    (hc : anchorsFirst s a = true) (hs : step s a = some s') : Inv s' := by
  have hopen : ∀ {x : Option Running}, (if s.outcome.isSome then none else x) = some s' →
      s.outcome = none ∧ x = some s' := by
    intro x hx
    split_ifs at hx with ho
    exact ⟨by simpa using ho, hx⟩
  cases a with
  | op o attempts ret =>
    obtain ⟨hout, hs⟩ := hopen hs
    obtain ⟨p, hp, rfl⟩ := map_eq_some_iff.mp hs
    exact h.op hout hc hp
  | savepoint name =>
    obtain ⟨hout, hs⟩ := hopen hs
    obtain ⟨t, ht, rfl⟩ := map_eq_some_iff.mp hs
    exact h.savepoint hout (Fallible.ok_of_toOption ht)
  | release name =>
    obtain ⟨hout, hs⟩ := hopen hs
    obtain ⟨t, ht, rfl⟩ := map_eq_some_iff.mp hs
    exact h.release hout (Fallible.ok_of_toOption ht)
  | rollbackTo name applied => exact h.rollbackTo hs
  | commit refreshes =>
    obtain ⟨hout, hs⟩ := hopen hs
    exact h.commit hout hc hs
  | heartbeat req =>
    obtain ⟨p, hp, rfl⟩ := map_eq_some_iff.mp hs
    obtain ⟨hkept, hdone⟩ := heartbeat_kept (Fallible.ok_of_toOption hp)
    exact h.of_ranges hkept hdone id
  | other hd q =>
    simp only [step] at hs
    split_ifs at hs with hf
    obtain ⟨p, hp, rfl⟩ := map_eq_some_iff.mp hs
    exact h.other hf (Fallible.ok_of_toOption hp)

end Steps

def begun (id : UUID) (priority : Int) (now : Timestamp) (data : Key → KeyHistory) : Running where
  session := .newTxn id priority now
  ranges := ⟨none, data⟩

theorem inv_begun {priority : Int} {now : Timestamp} {data : Key → KeyHistory}
    (h : ∀ k intent, (data k).intent = some intent → intent.txn.id ≠ id) :
    Inv (begun id priority now data) where
  tracked hw := absurd rfl hw
  saved p hp := by cases hp
  record ha := by cases ha
  keyed ha := by cases ha
  untouched _ := h
  running _ r hr := by cases hr
  commits := by constructor <;> (intro ho; cases ho)

theorem tracked_writes_have_record (id : UUID) (priority : Int) (now : Timestamp)
    (data : Key → KeyHistory) (hnew : ∀ k intent, (data k).intent = some intent →
      intent.txn.id ≠ id) (s : Running) (actions : List Action)
    (hrun : run step (begun id priority now data) actions = some s)
    (hguard : Runs.Guarded step (fun s a => anchorsFirst s a = true)
      (begun id priority now data) actions) :
    Tracks s ∧ CommitsAll s := by
  have hinv : Inv s := invariant_of_run inv_step (inv_begun hnew) hguard hrun
  refine ⟨?_, hinv.commits⟩
  intro hw
  have ha := hinv.tracked hw
  exact ⟨ha, hinv.record ha⟩

def reaches (q : IntentRequest) : Attempt := { parts := [{ requests := [q] }] }

theorem retried_write_has_record : ∃ s, run step (begun 1 0 ⟨5, 0⟩ noData)
        [.op (.put [1] [7]) [] .error, .op (.put [1] [7]) [reaches (.put [1] [7])] .ok,
          .op (.delete [2]) [reaches (.delete [2])] .ok, .commit []] = some s ∧
      s.session.writes = [[1], [2]] ∧ s.outcome = some .endTxn ∧ Tracks s ∧ CommitsAll s := by
  refine exists_of_run (fun s => s.session.writes = [[1], [2]] ∧ s.outcome = some .endTxn)
    (by decide) ?_
  intro s hrun hs
  refine ⟨hs.1, hs.2, ?_⟩
  exact tracked_writes_have_record 1 0 ⟨5, 0⟩ noData (fun k intent h => by cases h) s _
    hrun (by decide)

/-- The first write fails and another key is written: no record, not anchored, and
`Commit` drops the write. -/
theorem other_write_has_no_record : ∃ s, run step (begun 1 0 ⟨5, 0⟩ noData)
        [.op (.put [1] [7]) [] .error, .op (.put [2] [7]) [reaches (.put [2] [7])] .ok,
          .commit []] = some s ∧
      s.session.writes = [[2]] ∧ s.session.anchored = false ∧ s.ranges.record = none ∧
      s.outcome = some .readOnly ∧ ¬ Tracks s ∧ ¬ CommitsAll s := by
  refine exists_of_run (fun s => s.session.writes = [[2]] ∧ s.session.anchored = false ∧
    s.ranges.record = none ∧ s.outcome = some .readOnly ∧ s.session.txn.id = 1 ∧
      ((s.ranges.data [2]).intent.map fun i => i.txn.id) = some 1) (by decide) ?_
  rintro s - ⟨hw, ha, hrec, ho, hid, hi⟩
  refine ⟨hw, ha, hrec, ho, ?_, ?_⟩
  · intro ht
    have hanchored := (ht (by simp [hw])).1
    simp [ha] at hanchored
  · intro hc
    obtain ⟨intent, hintent, hown⟩ := map_eq_some_iff.mp hi
    exact hc.2 ho [2] intent hintent (hown.trans hid.symm)

end Datax.Anchoring
