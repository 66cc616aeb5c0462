import Datax.Kvclient.TxnOps
import Datax.Kvserver.OnePhase

/-!
# Savepoints of a client transaction

A run of one transaction: writes, batches, savepoints, releases, rollbacks and a final `Commit`,
with or without pipelining, on keys that nobody else touches. The state keeps what the run is
measured by: the effects that were not rolled back, the scene of each savepoint, and what `Commit`
left. With pipelining `RunBatch` only buffers; the flush is a step of its own, and `Commit` sends
the rest in one phase or in parallel with its `EndTxn`.
-/

namespace Datax.Scopes

def lastWrite : List (Key × Option Bytes) → Key → Option (Option Bytes)
  | [], _ => none
  | w :: ws, k => (lastWrite ws k).or (if w.1 = k then some w.2 else none)

abbrev Effects := Key → Option (Option Bytes)

def Effects.overlay (e : Effects) (ws : List (Key × Option Bytes)) : Effects :=
  fun k => (lastWrite ws k).or (e k)

structure Scene where
  txn : TxnMeta
  data : Key → KeyHistory
  deferred : List (Key × Option Bytes)
  effects : Effects

def Scene.read (sc : Scene) (key : Key) (ts limit : Timestamp) :
    Except StorageError (Option Bytes) :=
  match lastWrite sc.deferred key with
  | some v => .ok (v.bind copyBytes)
  | none => mvccGet (sc.data key) key ts { txn := some sc.txn, uncertaintyLimit := limit }

structure Scoped where
  session : Session
  ranges : Ranges
  effects : Effects := fun _ => none
  -- the scene in which the savepoint of this order was established
  marks : Nat → Option Scene := fun _ => none
  -- the scene of the savepoint that was just rolled back to
  restored : Option Scene := none
  -- the commit timestamp, and the keys with every intent of the transaction resolved
  committed : Option (Timestamp × (Key → KeyHistory)) := none

def Scoped.pending (s : Scoped) : List (Key × Option Bytes) := s.session.deferred.getD []

def Scoped.scene (s : Scoped) : Scene :=
  ⟨s.session.txn.toTxnMeta, s.ranges.data, s.pending, s.effects⟩

inductive Via where
  | classic (refreshes : List (Timestamp × (ReadSpan → Bool)))
  | onePhase (refreshes : List (Timestamp × (ReadSpan → Bool)))
  | parallel (attempts : List Attempt) (refreshes : List (Timestamp × (ReadSpan → Bool)))
    (gcThreshold : Timestamp)

inductive Action where
  -- `Put` and `Delete`
  | write (w : Key × Option Bytes) (attempts : List Attempt) (ret : Returned)
  | runBatch (writes : List (Key × Option Bytes)) (attempts : List Attempt) (ret : Returned)
  | flush (attempts : List Attempt) (ret : Returned)
  | savepoint (name : String)
  | release (name : String)
  -- the keys whose `RollbackIntent` was applied
  | rollbackTo (name : String) (applied : List Key)
  | commit (via : Via)

def writeOp (w : Key × Option Bytes) : Op := w.2.elim (.delete w.1) (.put w.1)

def resolveAll (id : UUID) (status : TxnStatus) (ts : Timestamp) (data : Key → KeyHistory) :
    Key → KeyHistory :=
  fun k => ((mvccResolveIntent (data k) k id status ts).toOption).getD (data k)

/-- `Commit` without a deferred batch. Without a record the intents that are left are
aborted by whoever meets them. -/
def commitClassic (s : Scoped) (refreshes : List (Timestamp × (ReadSpan → Bool))) :
    Option (Timestamp × (Key → KeyHistory)) :=
  if s.pending ≠ [] then none
  else if !s.session.anchored then
    some (s.session.txn.writeTimestamp, resolveAll s.session.txn.id .aborted ⊥ s.ranges.data)
  else
    let t := s.session.refreshAll refreshes
    match evalEndTxn s.ranges.record t.txn { commit := true, intentKeys := t.writes } with
    | .ok (_, resp) =>
      some (resp.commitTimestamp, resolveAll t.txn.id .committed resp.commitTimestamp s.ranges.data)
    | .error _ => none

def commit1PC (s : Scoped) (refreshes : List (Timestamp × (ReadSpan → Bool))) :
    Option (Timestamp × (Key → KeyHistory)) :=
  if s.pending = [] || s.session.anchored || s.session.writes != [] then none
  else
    let t := ((s.session.prepareWrite (s.pending.map Prod.fst)).1).refreshAll refreshes
    match evalOnePhase s.ranges.record s.ranges.data ⟨t.txn, s.pending⟩ with
    | .ok (data, resp) => some (resp.commitTimestamp, resolveAll t.txn.id .aborted ⊥ data)
    | .error _ => none

/-- `parallelCommit`, in the order in which its commit condition holds: the writes,
then the record. -/
def parallelCommit (s : Scoped) (attempts : List Attempt)
    (refreshes : List (Timestamp × (ReadSpan → Bool))) (gcThreshold : Timestamp) :
    Option (Timestamp × (Key → KeyHistory)) :=
  let o := Op.runBatch s.pending
  if s.pending = [] || !(attempts.all fun a => a.parts.all o.shares) then none
  else
    let r := sendAttempts false attempts
      (((s.session.prepareWrite o.keys).1).recordWrites o.keys) s.ranges
    if answered o.requests r.2.2 then
      let t := (r.1.adopt r.2.2).refreshAll refreshes
      let h : BatchHeader := { txn := some t.txn, createTxnRecord := !s.session.anchored }
      match evalCreate gcThreshold r.2.1 h with
      | .error _ => none
      | .ok st =>
        match evalEndTxn st.record t.txn
            { commit := true, intentKeys := t.writes, inFlight := o.keys } with
        | .ok (_, resp) =>
          some (resp.commitTimestamp, resolveAll t.txn.id .committed resp.commitTimestamp st.data)
        | .error _ => none
    else none

def commit (s : Scoped) : Via → Option (Timestamp × (Key → KeyHistory))
  | .classic refreshes => commitClassic s refreshes
  | .onePhase refreshes => commit1PC s refreshes
  | .parallel attempts refreshes gcThreshold => parallelCommit s attempts refreshes gcThreshold

def Scoped.ran (s : Scoped) (p : Session × Ranges) (effects : Effects) : Scoped :=
  { s with session := p.1, ranges := p.2, effects := effects, restored := none }

def advance (s : Scoped) : Action → Option Scoped
  | .write w attempts ret =>
    if s.pending ≠ [] then none
    else
      (runOp (writeOp w) attempts ret s.session s.ranges).map fun p =>
        s.ran p (if ret = .ok then s.effects.overlay [w] else s.effects)
  | .runBatch writes attempts ret =>
    if s.session.pipelining then
      if ret = .ok then
        some (s.ran ({ s.session with deferred := some (s.pending ++ writes) }, s.ranges)
          (s.effects.overlay writes))
      else none
    -- nothing is ever deferred without pipelining
    else if s.pending ≠ [] then none
    else
      (runOp (.runBatch writes) attempts ret s.session s.ranges).map fun p =>
        s.ran p (if ret = .ok then s.effects.overlay writes else s.effects)
  | .flush attempts ret =>
    (runOp (.runBatch s.pending) attempts ret { s.session with deferred := none } s.ranges).map
      fun p => s.ran p s.effects
  | .savepoint name =>
    (s.session.savepoint name).toOption.map fun t =>
      { s with
        session := t
        marks := Function.update s.marks t.spOrder (some s.scene), restored := none }
  | .release name =>
    (s.session.releaseSavepoint name).toOption.map fun t =>
      { s with session := t, restored := none }
  | .rollbackTo name applied =>
    match s.session.find name with
    | none => none
    | some sp =>
      if s.session.finished || s.pending ≠
        [] || !(applied.all fun k => s.session.writes.contains k) then
        none
      else
        let ranges := rollbackIntents s.session.txn.id sp.seq applied s.ranges
        let sent : Except String Unit :=
          if s.session.writes.all fun k => applied.contains k then .ok ()
          else .error "not all applied"
        match s.session.rollbackToSavepoint name sent with
        | .ok t =>
          some { s with
            session := t
            ranges := ranges
            effects := ((s.marks sp.order).map Scene.effects).getD s.effects
            restored := s.marks sp.order }
        | .error _ => some { s with ranges := ranges, restored := none }
  | .commit via =>
    if s.session.finished then none
    else
      (commit s via).map fun p =>
        { s with session := { s.session with
          finished := true }, restored := none, committed := some p }

def step (s : Scoped) (a : Action) : Option Scoped :=
  if s.committed.isSome then none else advance s a

def RollbackExact (s : Scoped) : Prop :=
  ∀ m ∈ s.restored, ∀ key ts limit, s.scene.read key ts limit = m.read key ts limit

/-- `Commit` adds to each key the version of its effect, as the newest, and nothing
else. -/
def CommitExact (base : Key → KeyHistory) (s : Scoped) : Prop :=
  ∀ p ∈ s.committed, ∀ k, p.2 k = (base k).withVersion p.1 (s.effects k) ∧
    (s.effects k ≠ none → (base k).Below p.1)

def applied (create : Bool) : List Attempt → Session → Ranges → Bool
  | [], _, _ => false
  | a :: rest, s, st =>
    let s := a.refreshed s
    let r := sendParts s.txn create a.parts st
    !r.2.isEmpty || applied create rest s r.1

def failsWhole (s : Session) (st : Ranges) (o : Op) (attempts : List Attempt) (ret : Returned) :
    Bool :=
  ret == .ok || !(applied (s.prepareWrite o.keys).2 attempts (s.prepareWrite o.keys).1 st)

/-- Operations fail as a whole, a deferred batch is neither passed by a savepoint nor
lost in a flush, and a tracked write set is anchored when it is committed. -/
def orderly (s : Scoped) : Action → Bool
  | .write w attempts ret => failsWhole s.session s.ranges (writeOp w) attempts ret
  | .runBatch writes attempts ret =>
    s.session.pipelining || failsWhole s.session s.ranges (.runBatch writes) attempts ret
  | .flush _ ret => ret == .ok
  | .savepoint _ => s.pending == []
  | .release _ => true
  | .rollbackTo _ kys => kys == [] || s.session.writes.all fun k => kys.contains k
  | .commit (.classic _) => s.session.anchored || s.session.writes == []
  | .commit _ => true

end Datax.Scopes
