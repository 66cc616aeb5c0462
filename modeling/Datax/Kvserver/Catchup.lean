import Datax.Kvserver.DescriptorChange
import Datax.Kvserver.SnapshotTransfer
import Datax.Shared.Runs

/-!
# Catch-up snapshots while descriptors change

A catch-up reads the descriptor from the leader's memory, and later streams its span from an engine
snapshot. Entries apply in between, and a descriptor change commits to the engine before it reaches
memory. The leader also keeps what the range was at each log position.
-/

namespace Datax.Catchup

/-- The range as of one log position: its descriptor and content, and the ranges
split off it that no later merge has taken back. -/
structure Position where
  index : Nat
  desc : RangeDescriptor
  content : Content
  siblings : List RangeDescriptor

/-- The leader's replica. `unfinished` is a descriptor that is committed and not yet
in memory; `capturing` holds what the running catch-ups read, by follower. -/
structure Leader where
  replica : Replica
  engine : RangeEngine
  unfinished : Option RangeDescriptor := none
  capturing : List (ReplicaID × RangeDescriptor) := []
  siblings : List RangeDescriptor := []
  positions : List Position
  sent : List Snapshot := []

inductive Entry where
  | command (cmd : RaftCommand)
  | split (base : RangeDescriptor) (splitKey : Key) (newID : RangeID) (closedTS : Timestamp)
  | merge (base rhsDesc : RangeDescriptor) (rhs : Replicated) (applied : RangeDescriptor)
  | replicaChange (base : RangeDescriptor) (self : NodeID) (change : ReplicaChange)

def Entry.base : Entry → Option RangeDescriptor
  | command _ => none
  | split base _ _ _ => some base
  | merge base _ _ _ => some base
  | replicaChange base _ _ => some base

structure Change where
  desc : RangeDescriptor
  siblings : List RangeDescriptor
  account : Replica → Replica

/-- A sibling whose start lies in an absorbed span is not a range any more. -/
def absorb (right merged : RangeDescriptor) (siblings : List RangeDescriptor) :
    List RangeDescriptor :=
  siblings.filter fun s =>
    decide (s.startKey < right.startKey) || !decide (s.startKey < merged.endKey)

def Entry.change (cur : RangeDescriptor) (content : Content) (siblings : List RangeDescriptor) :
    Entry → Option Change
  | command _ => none
  | split base splitKey newID closedTS => do
    let trig ← (adminSplit false base splitKey newID closedTS).toOption
    let desc ← (stageSplit cur trig).toOption
    return ⟨desc, trig.right :: siblings, fun r =>
      { r with sizeBytes := spanSizeBytes content desc }⟩
  | merge base rhsDesc rhs applied => do
    let trig ← (adminMergeTrigger base rhsDesc rhs).toOption
    let desc ← (stageMerge cur applied trig).toOption
    return ⟨desc, absorb trig.right trig.merged siblings, fun r =>
      { r with
        sizeBytes := r.sizeBytes + trig.rightSizeBytes
        gcThreshold :=
          if r.gcThreshold.less trig.rightGCThreshold then trig.rightGCThreshold
          else r.gcThreshold }⟩
  | replicaChange base self change => do
    let newDesc ← (adminChangeReplicas false self base change).toOption
    let desc ← (stageConfChange cur newDesc).toOption
    return ⟨desc, siblings, id⟩

def Leader.commit (s : Leader) (p : Replica × RangeEngine) (desc : RangeDescriptor)
    (siblings : List RangeDescriptor) (unfinished : Option RangeDescriptor) : Leader :=
  { s with
    replica := p.1
    engine := p.2
    unfinished := unfinished
    siblings := siblings
    positions := ⟨p.1.appliedIndex, desc, p.2.content, siblings⟩ :: s.positions }

/-- An entry without a change is a command, or a change that was refused. -/
def Leader.applyUnchanged (s : Leader) (idx : Nat) : Entry → Replica × RangeEngine
  | .command cmd => applyCommand s.replica s.engine cmd idx
  | _ => persistAppliedIndex s.replica s.engine idx

def Leader.applyEntry (s : Leader) (e : Entry) : Leader :=
  let idx := s.replica.appliedIndex + 1
  match e.change s.replica.desc s.engine.content s.siblings with
  | none => s.commit (s.applyUnchanged idx e) s.replica.desc s.siblings none
  | some c =>
    s.commit (persistAppliedIndex (c.account s.replica) { s.engine with desc := some c.desc } idx)
      c.desc c.siblings (some c.desc)

inductive Action where
  | apply (e : Entry)
  | finish
  | capture (target : ReplicaID)
  | stream (target : ReplicaID) (term : Nat)
  | neighbour (key : ContentKey) (value : Option Bytes)

/-- One atomic step on the leader's store. Entries apply one at a time, and every
change was built from a descriptor that the range has had. -/
def step (s : Leader) : Action → Option Leader
  | .apply e =>
    if s.unfinished.isNone ∧ e.base.all (fun d => decide (d ∈ s.positions.map Position.desc)) then
      some (s.applyEntry e)
    else none
  | .finish =>
    s.unfinished.map fun desc =>
      { s with replica := { s.replica with desc := desc }, unfinished := none }
  | .capture target =>
    if s.capturing.any fun c => c.1 == target then none
    else some { s with capturing := (target, s.replica.desc) :: s.capturing }
  | .stream target term =>
    (s.capturing.find? fun c => c.1 == target).map fun c =>
      { s with
        sent := streamSnapshot s.engine c.2 target term none :: s.sent
        capturing := s.capturing.filter fun c => c.1 != target }
  | .neighbour key value =>
    if s.engine.desc.any fun desc => inSpan desc key then none
    else
      some { s with
        engine := { s.engine with
          content := match value with
            | none => s.engine.content.erase key
            | some v => s.engine.content.insert key v } }

def Leader.start (eng : RangeEngine) (desc : RangeDescriptor) : Leader where
  replica := newReplica eng desc
  engine := { eng with desc := some desc }
  positions := [⟨eng.state.appliedIndex, desc, eng.content, []⟩]

def Leader.position (s : Leader) (index : Nat) : Option Position :=
  s.positions.find? fun p => p.index == index

/-- No descriptor change is between its engine commit and its memory update when a
catch-up reads the descriptor, and none commits until the catch-up has its engine
snapshot. -/
def undisturbed (s : Leader) : Action → Bool
  | .apply e => s.capturing.isEmpty || (e.change s.replica.desc s.engine.content s.siblings).isNone
  | .capture _ => s.unfinished.isNone
  | _ => true

end Datax.Catchup
