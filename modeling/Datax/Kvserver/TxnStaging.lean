import Datax.Shared.Runs
import Datax.Kvserver.TxnRecord
import Datax.Shared.Fallible

/-!
# Operations on one record, and the staging state

A staging record says that the transaction is committed as soon as its in-flight writes have
applied, so it may only give way to a verdict, or to a later staging by its own coordinator.
-/

namespace Datax

inductive TxnOp where
  | create (txn : Transaction)
  | endTxn (txn : Transaction) (req : EndTxnRequest)
  | heartbeat (txn : Transaction) (req : HeartbeatTxnRequest)
  | push (req : PushTxnRequest)
  | recover (req : RecoverTxnRequest)
  | onePhase (data : Key → KeyHistory) (ba : OnePhaseBatch)

inductive TxnAnswer where
  | created
  | ended (commit : Bool) (resp : EndTxnResponse)
  | heartbeat (status : TxnStatus)
  | pushed (resp : PushTxnResponse)
  | recovered (status : TxnStatus)
  | onePhase (resp : EndTxnResponse)

def evalTxnOp (gcThreshold : Timestamp) (rec : Option Transaction) :
    TxnOp → Except KVError (Option Transaction × TxnAnswer)
  | .create txn => (createTxnRecord gcThreshold rec txn).map fun r => (some r, .created)
  | .endTxn txn req => (evalEndTxn rec txn req).map fun p => (p.1, .ended req.commit p.2)
  | .heartbeat txn req => (evalHeartbeatTxn rec txn req).map fun p => (p.1, .heartbeat p.2)
  | .push req => .ok ((evalPushTxn rec req).1, .pushed (evalPushTxn rec req).2)
  | .recover req => .ok ((evalRecoverTxn rec req).1, .recovered (evalRecoverTxn rec req).2)
  | .onePhase data ba => (evalOnePhase rec data ba).map fun p => (rec, .onePhase p.2)

def recordAfter (gcThreshold : Timestamp) (rec : Option Transaction) (op : TxnOp) :
    Option Transaction :=
  match evalTxnOp gcThreshold rec op with
  | .ok (rec', _) => rec'
  | .error _ => rec

section After
variable {gcThreshold : Timestamp} {rec : Option Transaction}

theorem recordAfter_create (txn : Transaction) : recordAfter gcThreshold rec (.create txn) =
      match createTxnRecord gcThreshold rec txn with
      | .ok r => some r
      | .error _ => rec := by
  simp only [recordAfter, evalTxnOp]
  cases createTxnRecord gcThreshold rec txn <;> rfl

theorem recordAfter_endTxn (txn : Transaction) (req : EndTxnRequest) :
    recordAfter gcThreshold rec (.endTxn txn req) =
      match evalEndTxn rec txn req with
      | .ok (rec', _) => rec'
      | .error _ => rec := by
  simp only [recordAfter, evalTxnOp]
  cases evalEndTxn rec txn req <;> rfl

theorem recordAfter_onePhase (data : Key → KeyHistory) (ba : OnePhaseBatch) :
    recordAfter gcThreshold rec (.onePhase data ba) = rec := by
  simp only [recordAfter, evalTxnOp]
  cases evalOnePhase rec data ba <;> rfl

theorem recordAfter_heartbeat (gcThreshold : Timestamp) (rec : Option Transaction)
    (txn : Transaction) (req : HeartbeatTxnRequest) :
    recordAfter gcThreshold rec (.heartbeat txn req) = rec ∨ ∃ r hb wf wk, rec = some r ∧
      r.status = .pending ∧
        recordAfter gcThreshold rec (.heartbeat txn req) =
          some { r with lastHeartbeat := hb, waitingFor := wf, waitingForKey := wk } := by
  rcases rec with _ | r
  · exact .inl rfl
  by_cases hp : r.status = .pending
  · right
    refine ⟨r, r.lastHeartbeat.forward req.now, req.waitingFor, req.waitingForKey, rfl, hp, ?_⟩
    simp [recordAfter, evalTxnOp, evalHeartbeatTxn, hp, Except.map]
  · left
    simp [recordAfter, evalTxnOp, evalHeartbeatTxn, hp, Except.map]

end After

def TxnOp.isStagedEndTxn : TxnOp → Bool
  | .endTxn _ req => req.commit && !req.inFlight.isEmpty
  | _ => false

/-- Where a staging record may go: to a verdict, or to a staging record that keeps
its in-flight keys and does not lower its timestamp, and that is the same record
or the coordinator's. -/
def LeavesByVerdict (op : TxnOp) (r : Transaction) (after : Option Transaction) : Prop :=
  ∃ r' ∈ after, r'.status ≠ .pending ∧
    (r'.status = .staging →
      r.inFlightKeys ⊆ r'.inFlightKeys ∧ r.writeTimestamp ≤ r'.writeTimestamp ∧
      (r' = r ∨ op.isStagedEndTxn = true))

def StagingKept (rec : Option Transaction) (step : Timestamp × TxnOp) : Prop :=
  ∀ r ∈ rec, r.status = .staging → LeavesByVerdict step.2 r (recordAfter step.1 rec step.2)

/-- The operation does not recreate a staging record, and does not stage it again
with fewer keys or at a lower timestamp. -/
def KeepsStaging (rec : Option Transaction) (step : Timestamp × TxnOp) : Prop :=
  ∀ r ∈ rec, r.status = .staging → match step.2 with
    | .create txn => Predates step.1 txn.minTimestamp
    | .endTxn txn req =>
      req.all = false → req.commit = true → req.inFlight ≠ [] → r.epoch ≤ txn.epoch →
        txn.readTimestamp = txn.writeTimestamp →
          r.inFlightKeys ⊆ req.inFlight ∧ r.writeTimestamp ≤ txn.writeTimestamp
    | _ => True

variable {r : Transaction}

theorem leavesByVerdict_self {op : TxnOp} (hr : r.status = .staging) :
    LeavesByVerdict op r (some r) := by
  refine ⟨r, rfl, ?_, ?_⟩
  · simp [hr]
  · intro _
    exact ⟨List.Subset.refl _, le_rfl, .inl rfl⟩

theorem leavesByVerdict_of_verdict {op : TxnOp} {r' : Transaction}
    (h : r'.status = .committed ∨ r'.status = .aborted) :
    LeavesByVerdict op r (some r') := by
  refine ⟨r', rfl, ?_, ?_⟩
  · rcases h with h | h <;> simp [h]
  · intro hs
    rcases h with h | h <;> simp [h] at hs

theorem finalRecord_status (txn : Transaction) (req : EndTxnRequest) :
    (finalRecord txn req).status =
      if req.commit then if req.inFlight ≠ [] then .staging else .committed else .aborted := by
  unfold finalRecord
  split
  · split <;> rfl
  · rfl

theorem stagingKept_endTxn_iff (hst : r.status = .staging) (thr : Timestamp) (txn : Transaction)
    (req : EndTxnRequest) :
    LeavesByVerdict (.endTxn txn req) r (recordAfter thr (some r) (.endTxn txn req)) ↔
      (req.all = false → req.commit = true → req.inFlight ≠ [] → r.epoch ≤ txn.epoch →
        txn.readTimestamp = txn.writeTimestamp →
          r.inFlightKeys ⊆ req.inFlight ∧ r.writeTimestamp ≤ txn.writeTimestamp) := by
  rw [recordAfter_endTxn]
  by_cases hflip : req.all = false ∧ r.epoch ≤ txn.epoch ∧
      (req.commit = true → txn.readTimestamp = txn.writeTimestamp)
  · obtain ⟨hall, hep, hts⟩ := hflip
    have hok : evalEndTxn (some r) txn req =
        .ok (some (finalRecord txn req), ⟨txn.writeTimestamp, false⟩) := by
      refine evalEndTxn_ok_iff.mpr ⟨hall, .inr ⟨?_, hts, rfl, rfl⟩⟩
      intro e he
      cases he
      exact ⟨.inr hst, hep⟩
    simp only [hok]
    by_cases hstage : req.commit = true ∧ req.inFlight ≠ []
    · obtain ⟨hc, hne⟩ := hstage
      simp [LeavesByVerdict, finalRecord, hc, hne, TxnOp.isStagedEndTxn, hall, hep, hts hc]
    have hverdict : (finalRecord txn req).status = .committed ∨
        (finalRecord txn req).status = .aborted := by
      rw [finalRecord_status]
      split
      · rename_i hc
        have hnil : req.inFlight = [] := by
          by_contra hne
          exact hstage ⟨hc, hne⟩
        simp [hnil]
      · exact .inr rfl
    refine iff_of_true (leavesByVerdict_of_verdict hverdict) ?_
    intro _ hc hne
    exact absurd ⟨hc, hne⟩ hstage
  · have hafter : (match evalEndTxn (some r) txn req with
        | .ok (rec', _) => rec'
        | .error _ => some r) = some r := by
      cases he : evalEndTxn (some r) txn req with
      | error e => rfl
      | ok p =>
        exfalso
        rcases (evalEndTxn_ok_iff.mp he).2 with ⟨e, hre, hcom, _⟩ | ⟨hopen, hts, _⟩
        · cases hre
          simp [hst] at hcom
        · exact hflip ⟨(evalEndTxn_ok_iff.mp he).1, (hopen r rfl).2, hts⟩
    rw [hafter]
    refine iff_of_true (leavesByVerdict_self hst) ?_
    intro hall _ _ hep hts
    exact absurd ⟨hall, hep, fun _ => hts⟩ hflip

theorem stagingKept_iff (rec : Option Transaction) (step : Timestamp × TxnOp) :
    StagingKept rec step ↔ KeepsStaging rec step := by
  obtain ⟨thr, op⟩ := step
  refine forall₂_congr fun r hr => forall_congr' fun hst => ?_
  obtain rfl : rec = some r := hr
  cases op with
  | create txn =>
    rw [recordAfter_create]
    by_cases hp : Predates thr txn.minTimestamp
    · have herr : ∀ r', createTxnRecord thr (some r) txn ≠ .ok r' := by
        intro r' h
        exact (createTxnRecord_ok_iff.mp h).1 hp
      cases hc : createTxnRecord thr (some r) txn with
      | ok r' => exact absurd hc (herr r')
      | error e => simp [hp, leavesByVerdict_self hst]
    · have hok : createTxnRecord thr (some r) txn = .ok { txn with status := .pending } := by
        refine createTxnRecord_ok_iff.mpr ⟨hp, ?_, rfl⟩
        intro e he
        cases he
        exact .inr hst
      simp [hok, hp, LeavesByVerdict]
  | endTxn txn req => exact stagingKept_endTxn_iff hst thr txn req
  | heartbeat txn req =>
    have hafter : recordAfter thr (some r) (.heartbeat txn req) = some r := by
      rcases recordAfter_heartbeat thr (some r) txn req with h | h
      · exact h
      obtain ⟨r', _, _, _, heq, hp, _⟩ := h
      cases heq
      simp [hst] at hp
    simp [hafter, leavesByVerdict_self hst]
  | push req =>
    have hafter : recordAfter thr (some r) (.push req) = some r := by
      simp [recordAfter, evalTxnOp, evalPushTxn, hst]
    simp [hafter, leavesByVerdict_self hst]
  | recover req =>
    have hafter : LeavesByVerdict (.recover req) r (recordAfter thr (some r) (.recover req)) := by
      simp only [recordAfter, evalTxnOp, evalRecoverTxn, hst]
      apply leavesByVerdict_of_verdict
      cases req.commit <;> simp
    simp [hafter]
  | onePhase data ba => simp [recordAfter_onePhase, leavesByVerdict_self hst]

def recordRun (rec : Option Transaction) (step : Timestamp × TxnOp) : Option Transaction :=
  recordAfter step.1 rec step.2

/-- Along any sequence of operations, from any record, a staging record leaves
staging only by a verdict or its coordinator's own staging, with keys and
timestamp kept, if and only if no operation recreates or restages it below what it has. -/
theorem staging_leaves_by_verdict_iff (rec : Option Transaction) (ops : List (Timestamp × TxnOp)) :
    Runs.Along recordRun StagingKept rec ops ↔ Runs.Along recordRun KeepsStaging rec ops :=
  Runs.along_congr stagingKept_iff rec ops

def sampleTxn : Transaction where
  id := 1
  key := [4]
  epoch := 0
  writeTimestamp := ⟨1, 0⟩
  minTimestamp := ⟨1, 0⟩
  priority := 0
  sequence := 1
  historyFloor := -1
  status := .pending
  readTimestamp := ⟨1, 0⟩
  lastHeartbeat := ⟨1, 0⟩
  intentKeys := []
  waitingFor := 0
  waitingForKey := []
  inFlightKeys := []

/-- The first write batch is delivered again after the commit has staged: the
record is pending, and its in-flight keys are gone. -/
theorem redelivered_create_unstages : ¬ Runs.Along recordRun StagingKept none
      [(⊥, .create sampleTxn),
       (⊥, .endTxn sampleTxn { commit := true, inFlight := [[5]], intentKeys := [[4], [5]] }),
       (⊥, .create sampleTxn)] := by
  intro h
  rw [Runs.along_congr stagingKept_iff, Runs.along_cons, Runs.along_cons, Runs.along_cons] at h
  obtain ⟨_, _, hcreate, _⟩ := h
  have hpredates : Predates ⊥ sampleTxn.minTimestamp := hcreate _ rfl rfl
  exact hpredates.1 rfl

end Datax
