import Datax.Kvclient.Coordinator

/-!
# The bookkeeping of a client transaction

Beside its write set a client transaction tracks the spans it has read, which a refresh revalidates
before the read timestamp moves, and its savepoints. Tracking stops for good when there are too many
spans; a savepoint remembers how many there were and whether tracking had stopped.
-/

namespace Datax

/-- A span a transaction has observed; without an end it is a point. -/
structure ReadSpan where
  start : Key
  stop : Option Key
deriving DecidableEq

def ReadSpan.Contains (sp : ReadSpan) (k : Key) : Prop :=
  match sp.stop with
  | none => k = sp.start
  | some stop => sp.start ≤ k ∧ k < stop

structure Savepoint where
  order : Nat
  seq : Int
  writes : List Key
  readSpans : Nat
  refreshUnusable : Bool

structure Session extends Txn where
  finished : Bool := false
  pipelining : Bool := false
  readSpans : List ReadSpan := []
  refreshUnusable : Bool := false
  -- the pipelined write batch awaiting `Commit`
  deferred : Option (List (Key × Option Bytes)) := none
  savepoints : List (String × Savepoint) := []
  spOrder : Nat := 0

def newTransaction (id : UUID) (priority : Int) (now : Timestamp) : Transaction where
  id := id
  key := []
  epoch := 0
  writeTimestamp := now
  minTimestamp := now
  priority := priority
  sequence := 0
  historyFloor := 0
  status := .pending
  readTimestamp := now
  lastHeartbeat := now
  intentKeys := []
  waitingFor := 0
  waitingForKey := []
  inFlightKeys := []

namespace Session

def newTxn (id : UUID) (priority : Int) (now : Timestamp) : Session where
  txn := { newTransaction id priority now with historyFloor := -1 }
  writes := []
  anchored := false
  phase := .idle

def maxReadSpans : Nat := 512

def recordRead (s : Session) (sp : ReadSpan) : Session :=
  if s.refreshUnusable then s
  else if maxReadSpans ≤ s.readSpans.length then { s with refreshUnusable := true, readSpans := [] }
  else { s with readSpans := s.readSpans ++ [sp] }

def lowerFloor (floor : Int) (p : String × Savepoint) : Int :=
  if floor < 0 || p.2.seq + 1 < floor then p.2.seq + 1 else floor

/-- The sequence below which a rollback to a live savepoint could still reach. -/
def historyFloor (savepoints : List (String × Savepoint)) : Int := savepoints.foldl lowerFloor (-1)

def updateHistoryFloor (s : Session) : Session :=
  { s with txn := { s.txn with historyFloor := historyFloor s.savepoints } }

def find (s : Session) (name : String) : Option Savepoint := s.savepoints.lookup name

def savepoint (s : Session) (name : String) : Except String Session :=
  if s.finished then .error "transaction already finished"
  else
    let sp : Savepoint :=
      { order := s.spOrder + 1
        seq := s.txn.sequence
        writes := s.writes
        readSpans := s.readSpans.length
        refreshUnusable := s.refreshUnusable }
    .ok (updateHistoryFloor { s with
      spOrder := s.spOrder + 1
      savepoints := (name, sp) :: s.savepoints.filter fun p => p.1 != name })

def missing (name : String) : String := "savepoint \"" ++ name ++ "\" does not exist"

def releaseSavepoint (s : Session) (name : String) : Except String Session :=
  match s.find name with
  | none => .error (missing name)
  | some sp =>
    .ok (updateHistoryFloor { s with
      savepoints := s.savepoints.filter fun p => !decide (sp.order ≤ p.2.order) })

/-- The last part of `RollbackToSavepoint`, when the intents have been restored. -/
def restore (s : Session) (sp : Savepoint) : Session :=
  updateHistoryFloor { s with
    writes := sp.writes
    readSpans :=
      if sp.readSpans < s.readSpans.length then s.readSpans.take sp.readSpans else s.readSpans
    refreshUnusable := sp.refreshUnusable
    savepoints := s.savepoints.filter fun p => !decide (sp.order < p.2.order) }

/-- `RollbackToSavepoint` of a transaction without a deferred batch; `sent` is how the
batch that restores the intents ends, when there is one. -/
def rollbackToSavepoint (s : Session) (name : String) (sent : Except String Unit) :
    Except String Session :=
  if s.finished then .error "transaction already finished"
  else
    match s.find name with
    | none => .error (missing name)
    | some sp =>
      if s.writes = [] then .ok (s.restore sp)
      else
        match sent with
        | .error err => .error ("rolling back to savepoint \"" ++ name ++ "\": " ++ err)
        | .ok () => .ok (s.restore sp)

/-- The `Refresh` requests `maybeRefresh` sends before the first that fails, and
whether it succeeds. -/
def refreshSpans (answer : ReadSpan → Bool) : List ReadSpan → List ReadSpan × Bool
  | [] => ([], true)
  | sp :: rest =>
    if answer sp then
      let p := refreshSpans answer rest
      (sp :: p.1, p.2)
    else ([], false)

/-- `maybeRefresh`: the session afterwards, the spans revalidated up to `newTS`, and
whether it succeeded. -/
def maybeRefresh (s : Session) (newTS : Timestamp) (answer : ReadSpan → Bool) :
    Session × List ReadSpan × Bool :=
  if s.refreshUnusable then (s, [], false)
  else if newTS.lessEq s.txn.readTimestamp then (s, [], true)
  else
    let p := refreshSpans answer s.readSpans
    (if p.2 then { s with toTxn := s.toTxn.refresh newTS } else s, p.1, p.2)

theorem rollbackToSavepoint_ok {t t' : Session} {name : String} {sp : Savepoint}
    {sent : Except String Unit} (hfind : t.find name = some sp)
    (ht : t.rollbackToSavepoint name sent = .ok t') : t' = t.restore sp := by
  simp only [Session.rollbackToSavepoint, hfind] at ht
  split at ht
  · cases ht
  split at ht
  · cases ht
    rfl
  · split at ht <;> cases ht
    rfl

@[simp] theorem recordRead_savepoints (s : Session) (sp : ReadSpan) :
    (s.recordRead sp).savepoints = s.savepoints := by
  unfold recordRead
  split
  · rfl
  · split <;> rfl

def Moved (s s' : Session) : Prop :=
  ∃ read write, s.txn.writeTimestamp ≤ write ∧
    s' = { s with txn := { s.txn with readTimestamp := read, writeTimestamp := write } }

theorem Moved.refl (s : Session) : Moved s s :=
  ⟨s.txn.readTimestamp, s.txn.writeTimestamp, le_rfl, rfl⟩

theorem Moved.trans {s t u : Session} (h : Moved s t) (h' : Moved t u) : Moved s u := by
  obtain ⟨r, w, hw, rfl⟩ := h
  obtain ⟨r', w', hw', rfl⟩ := h'
  exact ⟨r', w', hw.trans hw', rfl⟩

theorem maybeRefresh_moved (s : Session) (newTS : Timestamp) (answer : ReadSpan → Bool) :
    Moved s (s.maybeRefresh newTS answer).1 := by
  unfold maybeRefresh
  split
  · exact Moved.refl s
  split
  · exact Moved.refl s
  dsimp only
  split
  · unfold Txn.refresh
    split
    · exact Moved.refl s
    · exact ⟨_, _, le_max_left _ _, rfl⟩
  · exact Moved.refl s

end Session

end Datax
