import Datax.Kvserver.RaftStorage
import Datax.Kvserver.Snapshot
import Datax.Shared.Runs

/-!
# A replica on a split store

The state engine has no write-ahead log: what is not flushed is lost in a crash. The raft engine
keeps synced batches; an unsynced one is lost or not. The log is truncated only when the state
engine has flushed past the truncation. A catch-up snapshot is committed there and flushed, then the
log is reset, and the hard state of the same `Ready` is written last.
-/

namespace Datax

structure DiskEngine (α : Type) where
  durable : α
  current : α

namespace DiskEngine
variable {α : Type}

def write (e : DiskEngine α) (a : α) : DiskEngine α := { e with current := a }

def flush (e : DiskEngine α) : DiskEngine α := { e with durable := e.current }

end DiskEngine

inductive Install where
  | idle
  | committed (h : SnapshotHeader)
  | flushed (h : SnapshotHeader)
  | reset

/-- `applySnapshot` is under way. -/
def Install.running : Install → Bool
  | .idle | .reset => false
  | .committed _ | .flushed _ => true

/-- `committed` is raft's own commit index, which runs ahead of the hard state on disk. -/
structure SplitStore where
  state : DiskEngine ReplicaState
  raft : DiskEngine RaftDisk
  rs : RaftStorage
  committed : Nat
  pendingTrunc : TruncatedState := {}
  install : Install := .idle

namespace SplitStore

def load (raft : RaftDisk) (state : ReplicaState) : SplitStore where
  state := ⟨state, state⟩
  raft := ⟨raft, raft⟩
  rs := newRaftStorage raft state
  committed := committedIndex raft state

/-- `ready` is the batch of a `Ready`: entries from `first` on, and a hard state whose term or vote
changes when `vote` is set. -/
inductive Action where
  | ready (first : Nat) (terms : List Nat) (commit : Nat) (vote : Bool)
  | apply (truncate : Option TruncatedState)
  | flush
  | sync
  | truncateDeferred
  | commitSnapshot (h : SnapshotHeader)
  | flushSnapshot
  | resetLog
  | restart

def entriesFrom : Nat → List Nat → List LogEntry
  | _, [] => []
  | first, term :: terms => ⟨first, term⟩ :: entriesFrom (first + 1) terms

def notePendingTruncate (pending : TruncatedState) : Option TruncatedState → TruncatedState
  | none => pending
  | some ts => if pending.index < ts.index then ts else pending

def stageApplied (state : ReplicaState) (rs : RaftStorage) : ReplicaState :=
  { state with
    appliedIndex := state.appliedIndex + 1
    truncatedIndex := rs.truncated.index
    truncatedTerm := rs.truncated.term }

/-- `MustSync`: a batch that only moves the commit index is not synced. -/
def stageReady (s : SplitStore) (ents : List LogEntry) (commit : Nat) (vote : Bool) : SplitStore :=
  let p := s.rs.append s.raft.current ents
  let raft := s.raft.write { p.2 with commit := some commit }
  { s with
    rs := p.1
    raft := if vote || !ents.isEmpty then raft.flush else raft
    committed := commit
    install := .idle }

def resetLog (s : SplitStore) (h : SnapshotHeader) : SplitStore :=
  let ts : TruncatedState := ⟨h.appliedIndex, h.term⟩
  { s with
    raft := (s.raft.write { s.raft.current with log := [], truncated := some ts }).flush
    rs := ⟨ts, h.appliedIndex⟩
    install := .reset }

/-- One step of the replica, of the engines or of a restart. Raft appends above what is applied,
never lowers its commit index, applies what is committed and restores only above its commit index;
a replica that raft cannot start takes no step. -/
def step (s : SplitStore) : Action → Option SplitStore
  | .ready first terms commit vote =>
    let s' := s.stageReady (entriesFrom first terms) commit vote
    if s.install.running = false ∧ s.state.current.appliedIndex < first ∧
        first ≤ s.rs.lastIndex + 1 ∧ s.committed ≤ commit ∧ commit ≤ s'.rs.lastIndex then
      some s'
    else none
  | .apply truncate =>
    match s.install with
    | .idle =>
      if s.state.current.appliedIndex < s.committed then
        some { s with
          state := s.state.write (stageApplied s.state.current s.rs)
          pendingTrunc := notePendingTruncate s.pendingTrunc truncate }
      else none
    | _ => none
  | .flush => some { s with state := s.state.flush }
  | .sync => some { s with raft := s.raft.flush }
  | .truncateDeferred =>
    if s.install.running = true ∨ s.pendingTrunc.index = 0 ∨
        s.state.durable.appliedIndex < s.pendingTrunc.index then
      none
    else
      match s.rs.stageTruncate s.raft.current s.pendingTrunc with
      | none => some { s with pendingTrunc := {} }
      | some (rs, raft) =>
        some { s with
          rs := rs
          raft := s.raft.write { raft with truncated := some rs.truncated }
          pendingTrunc := {} }
  | .commitSnapshot h =>
    match s.install with
    | .idle =>
      if s.state.current.appliedIndex < h.appliedIndex ∧ s.committed < h.appliedIndex then
        some { s with
          state := s.state.write h.seedState
          committed := h.appliedIndex
          install := .committed h }
      else none
    | _ => none
  | .flushSnapshot =>
    match s.install with
    | .committed h => some { s with state := s.state.flush, install := .flushed h }
    | _ => none
  | .resetLog =>
    match s.install with
    | .flushed h => some (s.resetLog h)
    | _ => none
  | .restart =>
    if Legal s.raft.durable s.state.durable then some (load s.raft.durable s.state.durable)
    else none

/-- The state engine has flushed what the raft engine's synced hard state does not commit. -/
def exposed (s : SplitStore) : Bool :=
  decide (committedIndex s.raft.durable s.state.durable < s.state.durable.appliedIndex)

end SplitStore

end Datax
