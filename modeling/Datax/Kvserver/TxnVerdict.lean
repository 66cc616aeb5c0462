import Datax.Kvserver.Gc
import Datax.Kvserver.TxnStaging

/-!
# Verdicts and the collection of records

Garbage collection deletes finalized records by commands that are proposed from a snapshot and apply
later, each raising the range's threshold. What a verdict leaves behind is then the threshold alone,
and an operation that finds no record is judged by the transaction's birth.
-/

namespace Datax

open TxnAnswer Fallible

structure GCTxnRecord where
  key : TransactionKey
  resolve : List Key
  txnID : UUID
  commitTS : Timestamp

def garbageTxnRecord (threshold : Timestamp) (liveIntentTxns : List UUID) (txn : Transaction) :
    Option GCTxnRecord :=
  if txn.status = .pending ∨ txn.status = .staging then none
  else if !txn.writeTimestamp.lessEq threshold || !txn.lastHeartbeat.lessEq threshold then none
  else if txn.status = .committed ∧ txn.intentKeys ≠ [] then
    some ⟨(txn.key, txn.id), txn.intentKeys, txn.id, txn.writeTimestamp⟩
  else if txn.id ∈ liveIntentTxns then none
  else some ⟨(txn.key, txn.id), [], txn.id, txn.writeTimestamp⟩

def enumerateGarbageTxnRecords (records : List Transaction) (threshold : Timestamp)
    (liveIntentTxns : List UUID) : List GCTxnRecord :=
  records.filterMap (garbageTxnRecord threshold liveIntentTxns)

/-- Whether a pass proposes to delete one of the records: a committed write set has to be
resolved first. -/
def proposesDeletion (threshold : Timestamp) (liveIntentTxns : List UUID) (resolved : Bool)
    (records : List Transaction) : Bool :=
  (enumerateGarbageTxnRecords records threshold liveIntentTxns).any fun tr =>
    tr.resolve.isEmpty || resolved

/-- One record, the threshold of its range, and the thresholds of the GC commands
proposed so far that name the record. -/
structure RecordState where
  gcThreshold : Timestamp
  record : Option Transaction
  proposed : List Timestamp

inductive RecordOp where
  | txn (op : TxnOp)
  | enumerate (threshold : Timestamp) (liveIntentTxns : List UUID) (resolved : Bool)
  -- a proposed command that names the record applies
  | collect (threshold : Timestamp)
  -- a GC command that does not name it applies
  | raise (threshold : Timestamp)

def stepRecord (s : RecordState) : RecordOp → RecordState
  | .txn op => { s with record := recordAfter s.gcThreshold s.record op }
  | .enumerate threshold live resolved =>
    if !threshold.lessEq s.gcThreshold && proposesDeletion threshold live resolved
      s.record.toList then
      { s with proposed := threshold :: s.proposed }
    else s
  | .collect threshold =>
    if threshold ∈ s.proposed then
      { s with record := none, gcThreshold := s.gcThreshold.forward threshold }
    else s
  | .raise threshold => { s with gcThreshold := s.gcThreshold.forward threshold }

def answer (s : RecordState) : RecordOp → Option TxnAnswer
  | .txn op => (evalTxnOp s.gcThreshold s.record op).toOption.map Prod.snd
  | _ => none

namespace TxnAnswer

def reportsAborted : TxnAnswer → Prop
  | heartbeat status => status = .aborted
  | pushed resp => resp.status = .aborted
  | recovered status => status = .aborted
  | _ => False

def reportsCommit : TxnAnswer → Prop
  | ended commit _ => commit = true
  | heartbeat status => status = .committed
  | pushed resp => resp.status = .committed
  | recovered status => status = .committed
  | onePhase _ => True
  | created => False

def commitTimestamp : TxnAnswer → Option Timestamp
  | ended commit resp => if commit then some resp.commitTimestamp else none
  | pushed resp => if resp.status = .committed then some resp.commitTS else none
  | onePhase resp => some resp.commitTimestamp
  | _ => none

end TxnAnswer

def LeftAborted (s : RecordState) (op : RecordOp) : Prop :=
  ∃ r ∈ (stepRecord s op).record, r.status = .aborted

def LeftCommitted (c : Timestamp) (s : RecordState) (op : RecordOp) : Prop :=
  ∃ r ∈ (stepRecord s op).record, r.status = .committed ∧ r.writeTimestamp = c

def AbortedAt (s : RecordState) (op : RecordOp) : Prop :=
  LeftAborted s op ∨ ∃ a ∈ answer s op, a.reportsAborted

def CommittedAt (s : RecordState) (op : RecordOp) : Prop :=
  (∃ c, LeftCommitted c s op) ∨ ∃ a ∈ answer s op, a.reportsCommit

def ContradictsCommit (c : Timestamp) (s : RecordState) (op : RecordOp) : Prop :=
  LeftAborted s op ∨ ∃ a ∈ answer s op, ∃ c' ∈ a.commitTimestamp, c' ≠ c

def VerdictFinal (s : RecordState) (ops : List RecordOp) : Prop :=
  (Runs.steps stepRecord s ops).Pairwise fun p q =>
    (AbortedAt p.1 p.2 → ¬ CommittedAt q.1 q.2) ∧ ∀ c, LeftCommitted c p.1 p.2 →
      ¬ ContradictsCommit c q.1 q.2

/-- The request carries the metadata of a transaction born at `m`. -/
def OwnMeta (m : Timestamp) (txn : TxnMeta) : Prop :=
  txn.minTimestamp = m ∧ m ≤ txn.writeTimestamp

/-- What is asked of an operation on the record of a transaction born at `m`: an
absent record is judged by the birth, as record creation does. -/
def JudgedByBirth (m : Timestamp) (s : RecordState) : RecordOp → Prop
  | .txn (.create txn) => OwnMeta m txn.toTxnMeta
  | .txn (.endTxn txn _) => OwnMeta m txn.toTxnMeta ∧ (s.record = none → ¬ Predates s.gcThreshold m)
  | .txn (.onePhase _ ba) =>
    OwnMeta m ba.txn.toTxnMeta ∧ (s.record = none → ¬ Predates s.gcThreshold m) ∧
      ∀ r ∈ s.record, r.status = .committed → r.writeTimestamp = ba.txn.writeTimestamp
  | .txn (.push req) =>
    OwnMeta m req.pusheeTxn ∧
      (s.record = none → expired req.now m = true → ¬ Predates s.gcThreshold m)
  | .txn (.recover _) => s.record = none → Predates s.gcThreshold m
  | _ => True

theorem predates_forward {thr m : Timestamp} (T : Timestamp) (h : Predates thr m) :
    Predates (thr.forward T) m := by
  obtain ⟨hne, hle⟩ := h
  refine ⟨?_, hle.trans (le_max_left thr T)⟩
  intro hbot
  exact hne (le_bot_iff.mp (hbot ▸ le_max_left thr T))

variable {r : Transaction}

section Records
variable {thr m : Timestamp}

theorem recordAfter_final (hr : r.status = .committed ∨ r.status = .aborted) (op : TxnOp) :
    recordAfter thr (some r) op = some r := by
  have hnot : ¬ (r.status = .pending ∨ r.status = .staging) := by
    rcases hr with hr | hr <;> simp [hr]
  cases op with
  | create txn =>
    rw [recordAfter_create]
    cases hc : createTxnRecord thr (some r) txn with
    | error e => rfl
    | ok r' => exact absurd ((createTxnRecord_ok_iff.mp hc).2.1 r rfl) hnot
  | endTxn txn req =>
    rw [recordAfter_endTxn]
    cases he : evalEndTxn (some r) txn req with
    | error e => rfl
    | ok p =>
      rcases (evalEndTxn_ok_iff.mp he).2 with ⟨e, hre, _, _, _, hrec, _⟩ | ⟨hopen, _⟩
      · rw [← hre] at hrec
        exact hrec
      · exact absurd (hopen r rfl).1 hnot
  | heartbeat txn req =>
    rcases recordAfter_heartbeat thr (some r) txn req with h | h
    · exact h
    obtain ⟨r', _, _, _, heq, hp, _⟩ := h
    cases heq
    exact absurd (.inl hp) hnot
  | push req =>
    rcases hr with hr | hr <;> simp [recordAfter, evalTxnOp, evalPushTxn, hr]
  | recover req =>
    rcases hr with hr | hr <;> simp [recordAfter, evalTxnOp, evalRecoverTxn, hr]
  | onePhase data ba => exact recordAfter_onePhase data ba

end Records

/-- Records and proposed deletions that requests of a transaction born at `m` can produce. -/
structure BornAt (m : Timestamp) (s : RecordState) : Prop where
  record : ∀ r ∈ s.record, m ≤ r.writeTimestamp
  proposed : ∀ T ∈ s.proposed, Predates T m

def Settled (m : Timestamp) (P : Transaction → Prop) (s : RecordState) : Prop :=
  (∃ r ∈ s.record, P r) ∨ s.record = none ∧ Predates s.gcThreshold m

section Steps
variable {m : Timestamp} {s : RecordState} {op : RecordOp} {P : Transaction → Prop}

theorem recordAfter_none {op : TxnOp} (hnone : s.record = none) (hpre : Predates s.gcThreshold m)
    (hop : JudgedByBirth m s (.txn op)) : recordAfter s.gcThreshold s.record op = none := by
  cases op with
  | create txn =>
    rw [recordAfter_create, hnone]
    cases hc : createTxnRecord s.gcThreshold none txn with
    | error e => rfl
    | ok r =>
      have hbirth : txn.minTimestamp = m := hop.1
      exact absurd (hbirth ▸ hpre) (createTxnRecord_ok_iff.mp hc).1
  | endTxn txn req => exact absurd hpre (hop.2 hnone)
  | heartbeat txn req => simp [recordAfter, evalTxnOp, evalHeartbeatTxn, hnone, Except.map]
  | push req =>
    have hlive : expired req.now req.pusheeTxn.minTimestamp = false := by
      rw [hop.1.1]
      by_contra hexp
      exact hop.2 hnone (by simpa using hexp) hpre
    simp [recordAfter, evalTxnOp, evalPushTxn, hnone, hlive]
  | recover req => simp [recordAfter, evalTxnOp, evalRecoverTxn, hnone]
  | onePhase data ba => rw [recordAfter_onePhase, hnone]

theorem bornAt_recordAfter {op : TxnOp} (hb : BornAt m s) (hop : JudgedByBirth m s (.txn op)) :
    ∀ r ∈ recordAfter s.gcThreshold s.record op, m ≤ r.writeTimestamp := by
  cases op with
  | create txn =>
    rw [recordAfter_create]
    cases hc : createTxnRecord s.gcThreshold s.record txn with
    | error e => exact hb.record
    | ok r =>
      intro r' hr'
      cases hr'
      rw [(createTxnRecord_ok_iff.mp hc).2.2]
      exact hop.2
  | endTxn txn req =>
    rw [recordAfter_endTxn]
    cases he : evalEndTxn s.record txn req with
    | error e => exact hb.record
    | ok p =>
      rcases (evalEndTxn_ok_iff.mp he).2 with ⟨e, hre, _, _, _, hrec, _⟩ | ⟨_, _, hrec, _⟩
      · rw [← hre] at hrec
        simp only [hrec]
        exact hb.record
      · intro r hr
        simp only [hrec] at hr
        cases hr
        unfold finalRecord
        split
        · split <;> exact hop.1.2
        · exact hop.1.2
  | heartbeat txn req =>
    rcases recordAfter_heartbeat s.gcThreshold s.record txn req with h | h
    · rw [h]
      exact hb.record
    obtain ⟨r, _, _, _, hr, _, hafter⟩ := h
    intro r' hr'
    rw [hafter] at hr'
    cases hr'
    exact hb.record r hr
  | push req =>
    intro r' hr'
    simp only [recordAfter, evalTxnOp, evalPushTxn] at hr'
    cases hrec : s.record with
    | none =>
      simp only [hrec] at hr'
      split at hr'
      · cases hr'
        exact hop.1.2
      · cases hr'
    | some r =>
      have hr := hb.record r hrec
      cases hst : r.status <;> simp only [hrec, hst] at hr'
      · split at hr' <;> cases hr' <;> exact hr
      all_goals
        cases hr'
        exact hr
  | recover req =>
    intro r' hr'
    simp only [recordAfter, evalTxnOp, evalRecoverTxn] at hr'
    cases hrec : s.record with
    | none => simp [hrec] at hr'
    | some r =>
      have hr := hb.record r hrec
      simp only [hrec] at hr'
      split at hr' <;> cases hr' <;> exact hr
  | onePhase data ba =>
    rw [recordAfter_onePhase]
    exact hb.record

theorem exists_of_proposesDeletion {T : Timestamp} {live : List UUID} {resolved : Bool}
    {records : List Transaction} (h : proposesDeletion T live resolved records = true) :
    ∃ r ∈ records, r.writeTimestamp ≤ T := by
  obtain ⟨tr, htr, _⟩ := List.any_eq_true.mp h
  obtain ⟨r, hr, hgarbage⟩ := List.mem_filterMap.mp htr
  refine ⟨r, hr, ?_⟩
  by_contra hgt
  have hgt : r.writeTimestamp.lessEq T = false := by simpa using hgt
  simp [garbageTxnRecord, hgt] at hgarbage

theorem bornAt_step (hb : BornAt m s) (hop : JudgedByBirth m s op) :
    BornAt m (stepRecord s op) := by
  cases op with
  | txn op => exact ⟨bornAt_recordAfter hb hop, hb.proposed⟩
  | enumerate T live resolved =>
    simp only [stepRecord]
    split
    · rename_i hsel
      obtain ⟨hT, hprop⟩ := Bool.and_eq_true_iff.mp hsel
      refine ⟨hb.record, ?_⟩
      intro T' hT'
      rcases List.mem_cons.mp hT' with rfl | hT'
      · obtain ⟨r, hr, hle⟩ := exists_of_proposesDeletion hprop
        refine ⟨?_, (hb.record r (Option.mem_toList.mp hr)).trans hle⟩
        rintro rfl
        simp at hT
      · exact hb.proposed T' hT'
    · exact hb
  | collect T =>
    simp only [stepRecord]
    split
    · exact ⟨by simp, hb.proposed⟩
    · exact hb
  | raise T => exact ⟨hb.record, hb.proposed⟩

theorem settled_step (hP : ∀ r, P r → r.status = .committed ∨ r.status = .aborted) (hb : BornAt m s)
    (hop : JudgedByBirth m s op) (h : Settled m P s) : Settled m P (stepRecord s op) := by
  cases op with
  | txn op =>
    rcases h with ⟨r, hr, hPr⟩ | ⟨hnone, hpre⟩
    · left
      refine ⟨r, ?_, hPr⟩
      have hr : s.record = some r := hr
      simp only [stepRecord, hr]
      exact recordAfter_final (hP r hPr) op
    · exact .inr ⟨recordAfter_none hnone hpre hop, hpre⟩
  | enumerate T live resolved =>
    simp only [stepRecord]
    split <;> exact h
  | collect T =>
    simp only [stepRecord]
    split
    · rename_i hmem
      right
      refine ⟨rfl, ?_⟩
      have := predates_forward s.gcThreshold (hb.proposed T hmem)
      rwa [Timestamp.forward_eq_max, max_comm] at this
    · exact h
  | raise T =>
    rcases h with h | ⟨hnone, hpre⟩
    · exact .inl h
    · exact .inr ⟨hnone, predates_forward T hpre⟩

theorem mem_answer_txn {a : TxnAnswer} {op : TxnOp} :
    a ∈ answer s (.txn op) ↔ ∃ rec', evalTxnOp s.gcThreshold s.record op = .ok (rec', a) := by
  simp only [answer, Option.mem_def]
  cases h : evalTxnOp s.gcThreshold s.record op with
  | error e => simp [Except.toOption]
  | ok p => simp [Except.toOption, Prod.ext_iff]

theorem answer_gc {a : TxnAnswer} (ha : a ∈ answer s op) : ∃ op', op = .txn op' := by
  cases op with
  | txn op => exact ⟨op, rfl⟩
  | enumerate T live resolved | collect T | raise T => simp [answer] at ha

end Steps

section Answers
variable {thr : Timestamp} {rec rec' : Option Transaction} {op : TxnOp} {a : TxnAnswer}

theorem reportsAborted_cases (h : evalTxnOp thr rec op = .ok (rec', a)) (ha : a.reportsAborted) :
    (∃ r ∈ rec', r.status = .aborted) ∨ rec = none ∧ rec' = none ∧ ∃ req, op = .recover req := by
  cases op with
  | create txn | endTxn txn req | onePhase data ba =>
    obtain ⟨_, -, heq⟩ := map_eq_ok.mp h
    cases heq
    exact absurd ha id
  | heartbeat txn req =>
    obtain ⟨p, hc, heq⟩ := map_eq_ok.mp h
    cases heq
    obtain ⟨r, hr, hst⟩ := (evalHeartbeatTxn_ok hc).2
    exact .inl ⟨r, hr, hst.trans ha⟩
  | push req =>
    obtain ⟨rfl, rfl⟩ := h
    exact .inl (evalPushTxn_aborted ha)
  | recover req =>
    obtain ⟨rfl, rfl⟩ := h
    rcases evalRecoverTxn_status rec req with ⟨hnone, heq⟩ | ⟨r, hr, hst⟩
    · exact .inr ⟨hnone, by rw [heq], req, rfl⟩
    · exact .inl ⟨r, hr, hst.trans ha⟩

theorem reportsCommit_cases (h : evalTxnOp thr rec op = .ok (rec', a)) (ha : a.reportsCommit) :
    (∃ r ∈ rec, r.status ≠ .aborted) ∨
      rec = none ∧ ((∃ txn req, op = .endTxn txn req) ∨ ∃ data ba, op = .onePhase data ba) := by
  cases op with
  | create txn =>
    obtain ⟨_, -, heq⟩ := map_eq_ok.mp h
    cases heq
    exact absurd ha id
  | endTxn txn req =>
    cases hrec : rec with
    | none => exact .inr ⟨rfl, .inl ⟨txn, req, rfl⟩⟩
    | some r =>
      left
      refine ⟨r, rfl, ?_⟩
      obtain ⟨p, hc, -⟩ := map_eq_ok.mp h
      rcases (evalEndTxn_ok_iff.mp hc).2 with ⟨e, he, hcom, _⟩ | ⟨hopen, _⟩
      · rw [hrec] at he
        cases he
        simp [hcom]
      · rcases (hopen r hrec).1 with hst | hst <;> simp [hst]
  | heartbeat txn req =>
    obtain ⟨p, hc, heq⟩ := map_eq_ok.mp h
    cases heq
    obtain ⟨r, hr, hst⟩ := (evalHeartbeatTxn_ok hc).1
    have hcom : r.status = .committed := hst.trans ha
    exact .inl ⟨r, hr, by simp [hcom]⟩
  | push req =>
    obtain ⟨rfl, rfl⟩ := h
    obtain ⟨r, hr, hcom⟩ := evalPushTxn_committed ha
    exact .inl ⟨r, hr, by simp [hcom]⟩
  | recover req =>
    obtain ⟨rfl, rfl⟩ := h
    rcases rec with _ | r
    · exact absurd ha (by simp [reportsCommit, evalRecoverTxn])
    left
    refine ⟨r, rfl, ?_⟩
    intro hab
    simp [reportsCommit, evalRecoverTxn, hab] at ha
  | onePhase data ba =>
    cases hrec : rec with
    | none => exact .inr ⟨rfl, .inr ⟨data, ba, rfl⟩⟩
    | some r =>
      obtain ⟨p, hc, -⟩ := map_eq_ok.mp h
      exact .inl ⟨r, rfl, (evalOnePhase_ok hc).1 r hrec⟩

theorem commitTimestamp_committed (hr : rec = some r) (hst : r.status = .committed)
    (h : evalTxnOp thr rec op = .ok (rec', a)) {c : Timestamp} (hc : c ∈ a.commitTimestamp) :
    c = r.writeTimestamp ∨ ∃ data ba, op = .onePhase data ba ∧ c = ba.txn.writeTimestamp := by
  cases op with
  | create txn | heartbeat txn req =>
    obtain ⟨_, -, heq⟩ := map_eq_ok.mp h
    cases heq
    simp [commitTimestamp] at hc
  | endTxn txn req =>
    obtain ⟨p, he, heq⟩ := map_eq_ok.mp h
    cases heq
    rcases (evalEndTxn_ok_iff.mp he).2 with ⟨e, hre, _, hcom, _, _, hresp⟩ | ⟨hopen, _⟩
    · rw [hr] at hre
      cases hre
      left
      simpa [commitTimestamp, hcom, hresp] using hc.symm
    · rcases (hopen r hr).1 with h | h <;> simp [hst] at h
  | push req =>
    obtain ⟨_, rfl⟩ := h
    left
    simpa [commitTimestamp, evalPushTxn, hr, hst] using hc.symm
  | recover req =>
    obtain ⟨_, rfl⟩ := h
    simp [commitTimestamp] at hc
  | onePhase data ba =>
    obtain ⟨p, he, heq⟩ := map_eq_ok.mp h
    cases heq
    right
    refine ⟨data, ba, rfl, ?_⟩
    simpa [commitTimestamp, (evalOnePhase_ok he).2] using hc.symm

end Answers

end Datax
