import Datax.Storage.MvccWrite

/-!
# Transaction records

The operations of a range on one transaction record. Each reads the record stored under the
transaction's key, if any, and returns what is stored there afterwards with its answer. An error
discards the whole engine batch.
-/

namespace Datax

structure Transaction extends TxnMeta where
  status : TxnStatus
  readTimestamp : Timestamp
  lastHeartbeat : Timestamp
  intentKeys : List Key
  waitingFor : UUID
  waitingForKey : Key
  inFlightKeys : List Key
deriving DecidableEq

inductive KVError where
  | plain (message : String)
  | txnAborted (message : String)
  | txnRetry (message : String) (retryTimestamp : Timestamp)
  | txnNotFound (message : String)
  | storage (err : StorageError)

structure EndTxnRequest where
  commit : Bool
  intentKeys : List Key := []
  inFlight : List Key := []
  all : Bool := false

structure EndTxnResponse where
  commitTimestamp : Timestamp
  onePhase : Bool := false

structure HeartbeatTxnRequest where
  now : Timestamp
  waitingFor : UUID
  waitingForKey : Key

structure PushTxnRequest where
  pusherTxn : Option Transaction
  pusheeTxn : TxnMeta
  pushAbort : Bool
  now : Timestamp
  forceAbort : Bool := false

structure PushTxnResponse where
  status : TxnStatus
  commitTS : Timestamp := ⊥
  inFlightKeys : List Key := []

structure RecoverTxnRequest where
  key : Key
  txnID : UUID
  commit : Bool

/-- Five seconds, in nanoseconds. -/
def txnExpiration : Nat := 5000000000

def expired (now last : Timestamp) : Bool := last.wallTime + txnExpiration < now.wallTime

def createTxnRecord (gcThreshold : Timestamp) (existing : Option Transaction) (txn : Transaction) :
    Except KVError Transaction :=
  if !gcThreshold.isEmpty && txn.minTimestamp.lessEq gcThreshold then
    .error (.txnAborted
      ("transaction " ++ txn.id.toString ++ " predates the GC threshold " ++ gcThreshold.toString))
  else
    match existing.map Transaction.status with
    | some .aborted =>
      .error (.txnAborted
        ("transaction " ++ txn.id.toString ++ " aborted before its record was created"))
    | some .committed =>
      .error (.plain
        ("transaction " ++ txn.id.toString ++ ": record already committed at record creation"))
    -- a pending or staging record falls through and is overwritten
    | _ => .ok { txn with status := .pending }

def finalRecord (txn : Transaction) (req : EndTxnRequest) : Transaction :=
  if req.commit then
    if req.inFlight ≠ [] then
      { txn with status := .staging, inFlightKeys := req.inFlight, intentKeys := req.intentKeys }
    else { txn with status := .committed, inFlightKeys := [], intentKeys := req.intentKeys }
  else { txn with status := .aborted, inFlightKeys := [] }

def evalEndTxn (rec : Option Transaction) (txn : Transaction) (req : EndTxnRequest) :
    Except KVError (Option Transaction × EndTxnResponse) :=
  if req.all then
    .error (.plain "EndTxn.All in a batch that is not one-phase-commit shaped")
  else
    match rec with
    | none => flip
    | some r =>
      match r.status with
      | .aborted =>
        .error (.txnAborted
          ("transaction " ++ txn.id.toString ++ " aborted by a conflicting transaction"))
      | .committed =>
        if req.commit && r.epoch == txn.epoch then .ok (some r, ⟨r.writeTimestamp, false⟩)
        else .error (.plain ("transaction " ++ txn.id.toString ++ " already committed"))
      | _ =>
        if txn.epoch < r.epoch then
          .error (.plain ("transaction " ++ txn.id.toString ++ ": record at newer epoch " ++
            toString r.epoch ++ " than request " ++ toString txn.epoch))
        else flip
where
  flip : Except KVError (Option Transaction × EndTxnResponse) :=
    if req.commit && txn.readTimestamp != txn.writeTimestamp then
      .error (.txnRetry ("transaction " ++ txn.id.toString ++ " cannot commit: write timestamp " ++
        txn.writeTimestamp.toString ++ " diverged from read timestamp " ++
        txn.readTimestamp.toString)
        txn.writeTimestamp)
    else .ok (some (finalRecord txn req), ⟨txn.writeTimestamp, false⟩)

def evalHeartbeatTxn (rec : Option Transaction) (txn : Transaction) (req : HeartbeatTxnRequest) :
    Except KVError (Option Transaction × TxnStatus) :=
  match rec with
  | none => .error (.txnNotFound ("transaction " ++ txn.id.toString ++ ": no record to heartbeat"))
  | some r =>
    if r.status = .pending then
      .ok (some { r with
        lastHeartbeat := r.lastHeartbeat.forward req.now
        waitingFor := req.waitingFor
        waitingForKey := req.waitingForKey }, r.status)
    else .ok (some r, r.status)

def zeroTransaction (txn : TxnMeta) (status : TxnStatus) : Transaction :=
  ⟨txn, status, ⊥, ⊥, [], 0, [], []⟩

/-- Non-transactional pushers win. -/
def nonTxnPusherPriority : Int := 2 ^ 30

def evalPushTxn (rec : Option Transaction) (req : PushTxnRequest) :
    Option Transaction × PushTxnResponse :=
  match rec with
  | none =>
    if expired req.now req.pusheeTxn.minTimestamp then
      (some (zeroTransaction req.pusheeTxn .aborted), { status := .aborted })
    else (none, { status := .pending })
  | some r =>
    match r.status with
    | .committed => (some r, { status := .committed, commitTS := r.writeTimestamp })
    | .aborted => (some r, { status := .aborted })
    | .staging =>
      (some r, { status := .staging, commitTS := r.writeTimestamp, inFlightKeys := r.inFlightKeys })
    | .pending =>
      let pusherPriority := (req.pusherTxn.map fun t => t.priority).getD nonTxnPusherPriority
      if expired req.now r.lastHeartbeat || req.forceAbort ||
          (req.pushAbort && decide (r.priority < pusherPriority)) then
        (some { r with status := .aborted }, { status := .aborted })
      else (some r, { status := .pending })

def evalRecoverTxn (rec : Option Transaction) (req : RecoverTxnRequest) :
    Option Transaction × TxnStatus :=
  match rec with
  | none => (none, .aborted)
  | some r =>
    if r.status ≠ .staging then (some r, r.status)
    else
      let status := if req.commit then TxnStatus.committed else .aborted
      (some { r with status := status, inFlightKeys := [] }, status)

/-- A batch of one-phase-commit shape: writes, then an `EndTxn` that declares them all. -/
structure OnePhaseBatch where
  txn : Transaction
  writes : List (Key × Option Bytes)

def collectIntents (seen found : List Intent) : List Intent :=
  found.foldl (fun acc i => if acc.any (fun j => j.key == i.key) then acc else acc ++ [i]) seen

def onePhaseWrites (ts : Timestamp) :
    List (Key × Option Bytes) → (Key → KeyHistory) → List Intent →
      Except StorageError (Key → KeyHistory)
  | [], data, [] => .ok data
  | [], _, conflicts => .error (.writeIntent conflicts)
  | (key, value) :: rest, data, conflicts =>
    match mvccWriteCommitted (data key) key ts value with
    | .ok h => onePhaseWrites ts rest (Function.update data key h) conflicts
    | .error (.writeIntent intents) =>
      onePhaseWrites ts rest data (collectIntents conflicts intents)
    | .error err => .error err

def evalOnePhase (rec : Option Transaction) (data : Key → KeyHistory) (ba : OnePhaseBatch) :
    Except KVError ((Key → KeyHistory) × EndTxnResponse) :=
  let txn := ba.txn
  if txn.readTimestamp ≠ txn.writeTimestamp then
    .error (.txnRetry ("transaction " ++ txn.id.toString ++
      " cannot commit in one phase: write timestamp " ++ txn.writeTimestamp.toString ++
      " diverged from read timestamp " ++ txn.readTimestamp.toString) txn.writeTimestamp)
  else if rec.any (fun r => r.status == .aborted) then
    .error (.txnAborted
      ("transaction " ++ txn.id.toString ++ " aborted before its one-phase commit"))
  else
    match onePhaseWrites txn.writeTimestamp ba.writes data [] with
    | .error err => .error (.storage err)
    | .ok data => .ok (data, ⟨txn.writeTimestamp, true⟩)

/-- The resurrection guard: a transaction born at or below the threshold may have
had its record collected. -/
def Predates (gcThreshold : Timestamp) (birth : Timestamp) : Prop :=
  gcThreshold ≠ ⊥ ∧ birth ≤ gcThreshold

instance (gcThreshold birth : Timestamp) : Decidable (Predates gcThreshold birth) :=
  inferInstanceAs (Decidable (_ ∧ _))

variable {req : PushTxnRequest} {resp : EndTxnResponse}

section Specs
variable {rec rec' : Option Transaction} {txn r : Transaction}

theorem createTxnRecord_ok_iff {gcThreshold : Timestamp} {existing : Option Transaction} :
    createTxnRecord gcThreshold existing txn = .ok r ↔ ¬ Predates gcThreshold txn.minTimestamp ∧
        (∀ e ∈ existing, e.status = .pending ∨ e.status = .staging) ∧
        r = { txn with status := .pending } := by
  have hguard : (!gcThreshold.isEmpty && txn.minTimestamp.lessEq gcThreshold) = true ↔
      Predates gcThreshold txn.minTimestamp := by
    simp [Predates, ← Timestamp.isEmpty_iff]
  unfold createTxnRecord
  split
  · rename_i h
    simp [hguard.mp h]
  rename_i h
  have h := mt hguard.mpr h
  rcases existing with _ | e
  · simp [h, eq_comm]
  · cases he : e.status <;> simp [h, he, eq_comm]

theorem evalEndTxn_ok_iff {req : EndTxnRequest} :
    evalEndTxn rec txn req = .ok (rec', resp) ↔ req.all = false ∧
      ((∃ e, rec = some e ∧ e.status = .committed ∧ req.commit = true ∧ e.epoch = txn.epoch ∧
          rec' = some e ∧ resp = ⟨e.writeTimestamp, false⟩) ∨
        ((∀ e ∈ rec, (e.status = .pending ∨ e.status = .staging) ∧ e.epoch ≤ txn.epoch) ∧
          (req.commit = true → txn.readTimestamp = txn.writeTimestamp) ∧
          rec' = some (finalRecord txn req) ∧ resp = ⟨txn.writeTimestamp, false⟩)) := by
  have hflip : evalEndTxn.flip txn req = .ok (rec', resp) ↔
      (req.commit = true → txn.readTimestamp = txn.writeTimestamp) ∧
        rec' = some (finalRecord txn req) ∧ resp = ⟨txn.writeTimestamp, false⟩ := by
    unfold evalEndTxn.flip
    rw [eq_comm (a := rec'), eq_comm (a := resp)]
    by_cases hc : req.commit = true <;> by_cases ht :
      txn.readTimestamp = txn.writeTimestamp <;> simp [hc, ht]
  unfold evalEndTxn
  split
  · rename_i hall
    simp [hall]
  rename_i hall
  rcases rec with _ | e
  · simp [hall, hflip]
  cases he : e.status with
  | aborted => simp [hall, he]
  | committed =>
    by_cases hc : req.commit = true ∧ e.epoch = txn.epoch
    · simp [hall, he, hc.1, hc.2, eq_comm (a := rec'), eq_comm (a := resp)]
    have hno : (req.commit && e.epoch == txn.epoch) = false := by simpa using hc
    simp only [he, hno, Bool.false_eq_true, if_false]
    simp only [reduceCtorEq, hall, true_and, false_iff, not_or]
    refine ⟨?_, ?_⟩
    · rintro ⟨_, ⟨⟩, _, hcommit, hepoch, _⟩
      exact hc ⟨hcommit, hepoch⟩
    · rintro ⟨hopen, _⟩
      simpa [he] using hopen e rfl
  | pending | staging =>
    by_cases hep : txn.epoch < e.epoch
    · simp [hall, he, hep, not_le.mpr hep]
    · simp [hall, he, hep, not_lt.mp hep, hflip]

theorem evalOnePhase_ok {data data' : Key → KeyHistory} {ba : OnePhaseBatch}
    (h : evalOnePhase rec data ba = .ok (data', resp)) :
    (∀ e ∈ rec, e.status ≠ .aborted) ∧ resp = ⟨ba.txn.writeTimestamp, true⟩ := by
  unfold evalOnePhase at h
  simp only at h
  split_ifs at h with _ hab
  split at h
  · cases h
  cases h
  refine ⟨?_, rfl⟩
  rintro e ⟨⟩ he
  simp [he] at hab

theorem evalPushTxn_aborted (h : (evalPushTxn rec req).2.status = .aborted) :
    ∃ e ∈ (evalPushTxn rec req).1, e.status = .aborted := by
  rcases rec with _ | e
  · by_cases hexp : expired req.now req.pusheeTxn.minTimestamp = true
    · simp [evalPushTxn, hexp, zeroTransaction]
    · simp [evalPushTxn, hexp] at h
  · cases he : e.status with
    | pending =>
      simp only [evalPushTxn, he] at h ⊢
      split
      · exact ⟨_, rfl, rfl⟩
      · rename_i hno
        simp [hno] at h
    | committed | staging => simp [evalPushTxn, he] at h
    | aborted => simp [evalPushTxn, he]

theorem evalPushTxn_committed (h : (evalPushTxn rec req).2.status = .committed) :
    ∃ e ∈ rec, e.status = .committed := by
  rcases rec with _ | e
  · by_cases hexp : expired req.now req.pusheeTxn.minTimestamp = true <;>
      simp [evalPushTxn, hexp] at h
  cases he : e.status with
  | pending =>
    simp only [evalPushTxn, he] at h
    split at h <;> cases h
  | committed => exact ⟨e, rfl, he⟩
  | aborted | staging => simp [evalPushTxn, he] at h

theorem evalRecoverTxn_status (rec : Option Transaction) (req : RecoverTxnRequest) :
    (rec = none ∧ evalRecoverTxn rec req = (none, .aborted)) ∨
      ∃ e ∈ (evalRecoverTxn rec req).1, e.status = (evalRecoverTxn rec req).2 := by
  rcases rec with _ | e
  · exact .inl ⟨rfl, rfl⟩
  right
  by_cases he : e.status = .staging
  · simp [evalRecoverTxn, he]
  · simp [evalRecoverTxn, he]

theorem evalHeartbeatTxn_ok {req : HeartbeatTxnRequest} {status : TxnStatus}
    (h : evalHeartbeatTxn rec txn req = .ok (rec', status)) :
    (∃ e ∈ rec, e.status = status) ∧ ∃ e ∈ rec', e.status = status := by
  rcases rec with _ | e
  · cases h
  · simp only [evalHeartbeatTxn] at h
    split at h <;> cases h <;> exact ⟨⟨e, rfl, rfl⟩, ⟨_, rfl, rfl⟩⟩

end Specs

end Datax
