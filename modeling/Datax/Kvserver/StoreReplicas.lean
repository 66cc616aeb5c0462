import Datax.Kvserver.DescriptorChange
import Datax.Kvserver.SplitStore

/-!
# The replicas of a split store

The state engine holds a range's descriptor, or a tombstone once its replica was removed or merged
away; the raft engine holds the vote and the log. A crash takes the state engine back to its last
flush. A restart drops the raft state of ranges with a tombstone and no descriptor, and loads every
descriptor that names the node.

A log entry stands for its outcome, a refused one for a plain command. `votes` is not part of the
store: it keeps what a replica has persisted until it is removed or merged away.
-/

namespace Datax.StoreLife

open Function

inductive Entry where
  | command
  | split (splitKey : Key) (newID : RangeID)
  | merge (rhs : RangeID) (endKey : Key) (generation : Int)
  | changeReplicas (replicas : List ReplicaDescriptor) (nextReplicaID : ReplicaID)

def Entry.removes (node : NodeID) : Entry → Bool
  | command => false
  | split _ _ => false
  | merge _ _ _ => false
  | changeReplicas replicas _ => !(replicas.any fun r => r.nodeID == node)

structure RaftGroup where
  term : Nat := 0
  vote : ReplicaID := 0
  commit : Nat := 0
  log : Nat → Option Entry := fun _ => none

structure RangeKeys where
  desc : Option RangeDescriptor := none
  tombstone : Bool := false
  applied : Nat := 0

def RangeKeys.names (k : RangeKeys) (node : NodeID) : Bool :=
  k.desc.any fun d => (d.getReplica node).isSome

def RangeKeys.unknown (k : RangeKeys) : Bool := k.desc.isNone && !k.tombstone

def RangeKeys.removed : RangeKeys := { tombstone := true }

inductive Origin where
  | created
  | split
  | loaded
deriving DecidableEq

/-- `wiping` lists the ranges whose raft state is about to be deleted. -/
structure Store where
  node : NodeID
  state : DiskEngine (RangeID → RangeKeys)
  raft : RangeID → Option RaftGroup
  replicas : RangeID → Option Origin
  wiping : List RangeID := []
  votes : RangeID → Option RaftGroup

def Store.empty (node : NodeID) : Store where
  node := node
  state := ⟨fun _ => {}, fun _ => {}⟩
  raft _ := none
  replicas _ := none
  votes _ := none

def Store.put (s : Store) (id : RangeID) (k : RangeKeys) : Store :=
  { s with state := s.state.write (update s.state.current id k) }

def Store.setRaft (s : Store) (id : RangeID) (g : RaftGroup) : Store :=
  { s with raft := update s.raft id (some g), votes := update s.votes id (some g) }

/-- `startReplica`: a replica that is there stays, and a new one goes on with the
raft state it finds. -/
def Store.startReplica (s : Store) (id : RangeID) (origin : Origin) : Store :=
  { s with
    replicas := update s.replicas id (some ((s.replicas id).getD origin))
    votes := update s.votes id ((s.votes id).or (s.raft id)) }

def Store.detach (s : Store) (id : RangeID) : Store :=
  { s with replicas := update s.replicas id none, votes := update s.votes id none }

def Store.bury (s : Store) (id : RangeID) : Store :=
  { (s.detach id).put id RangeKeys.removed with wiping := id :: s.wiping }

def createReplica (s : Store) (desc : RangeDescriptor) (bootstrap : Bool) : Option Store :=
  if (desc.getReplica s.node).isSome then
    let t := s.put desc.rangeID { s.state.current desc.rangeID with desc := some desc }
    let t := if bootstrap then { t with state := t.state.flush } else t
    some (t.startReplica desc.rangeID .created)
  else none

def applySnapshotStream (s : Store) (desc : RangeDescriptor) (appliedIndex : Nat) : Option Store :=
  if (desc.getReplica s.node).isSome && (s.replicas desc.rangeID).isNone then
    let t := s.put desc.rangeID
      { s.state.current desc.rangeID with desc := some desc, applied := appliedIndex }
    some (t.startReplica desc.rangeID .created)
  else none

def installSnapshot (s : Store) (id : RangeID) (appliedIndex : Nat) : Option Store :=
  match s.replicas id, s.raft id with
  | some _, some g =>
    if (s.state.current id).applied < appliedIndex then
      let t := s.put id { s.state.current id with applied := appliedIndex }
      some ({ t with state := t.state.flush }.setRaft id
        { g with commit := max g.commit appliedIndex, log := fun _ => none })
    else none
  | _, _ => none

def appendLog (log : Nat → Option Entry) (first : Nat) (entries : List Entry) :
    Nat → Option Entry :=
  fun j => if j < first then log j else entries[j - first]?

/-- The hard state and entries of a Ready. The commit index covers what is applied
and never falls, and no committed entry is replaced. -/
def ready (s : Store) (id : RangeID) (term : Nat) (vote : ReplicaID) (commit first : Nat)
    (entries : List Entry) : Option Store :=
  match s.replicas id with
  | none => none
  | some _ =>
    let g := (s.raft id).getD {}
    if g.commit ≤ commit ∧ (s.state.current id).applied ≤ commit ∧ g.commit < first ∧
        (s.state.current id).applied < first then
      some (s.setRaft id
        { term := term
          vote := vote
          commit := commit
          log := if entries.isEmpty then g.log else appendLog g.log first entries })
    else none

def applySplit (s : Store) (id : RangeID) (cur : RangeDescriptor) (i : Nat) (splitKey : Key)
    (newID : RangeID) :
    Store :=
  let left := { cur with endKey := splitKey, generation := cur.generation + 1 }
  let right := { cur with rangeID := newID, startKey := splitKey, generation := cur.generation + 1 }
  let t := s.put newID { s.state.current newID with desc := some right, applied := 0 }
  let t := t.put id { s.state.current id with desc := some left, applied := i }
  if (right.getReplica s.node).isSome then t.startReplica newID .split else t

def applyMerge (s : Store) (id : RangeID) (cur : RangeDescriptor) (i : Nat) (rhs : RangeID)
    (endKey : Key) (generation : Int) : Store :=
  let t := s.bury rhs
  t.put id { s.state.current id with
    desc := some { cur with endKey := endKey, generation := generation }, applied := i }

def applyConfChange (s : Store) (id : RangeID) (cur : RangeDescriptor) (i : Nat)
    (replicas : List ReplicaDescriptor) (nextReplicaID : ReplicaID) : Store :=
  let newDesc := { cur with
    replicas := replicas, nextReplicaID := nextReplicaID, generation := cur.generation + 1 }
  let t := s.put id { s.state.current id with desc := some newDesc, applied := i }
  if (newDesc.getReplica s.node).isSome then t else t.detach id

def Store.next (s : Store) (id : RangeID) : Option (RangeDescriptor × Entry) :=
  match s.replicas id, s.raft id, (s.state.current id).desc with
  | some _, some g, some cur =>
    if (s.state.current id).applied + 1 ≤ g.commit then
      (g.log ((s.state.current id).applied + 1)).map fun e => (cur, e)
    else none
  | _, _, _ => none

/-- A merge needs the right-hand replica on the store. -/
def applyEntry (s : Store) (id : RangeID) : Option Store :=
  let i := (s.state.current id).applied + 1
  match s.next id with
  | none => none
  | some (_, .command) => some (s.put id { s.state.current id with applied := i })
  | some (cur, .split splitKey newID) => some (applySplit s id cur i splitKey newID)
  | some (cur, .merge rhs endKey generation) =>
    if (s.replicas rhs).isSome ∧ rhs ≠ id then some (applyMerge s id cur i rhs endKey generation)
    else none
  | some (cur, .changeReplicas replicas next) => some (applyConfChange s id cur i replicas next)

/-- A removed replica, or a leftover that a snapshot is to replace. -/
def removeReplica (s : Store) (id : RangeID) : Option Store :=
  if (s.state.current id).desc.isSome then some (s.bury id) else none

def wipeRaftState (s : Store) (id : RangeID) : Option Store :=
  if s.wiping.contains id then
    some { s with
      state := s.state.flush
      raft := update s.raft id none
      wiping := s.wiping.filter fun i => i != id }
  else none

def truncate (s : Store) (id : RangeID) (index : Nat) : Option Store :=
  match s.replicas id, s.raft id with
  | some _, some g =>
    if index ≤ (s.state.durable id).applied then
      some (s.setRaft id { g with log := fun j => if j ≤ index then none else g.log j })
    else none
  | _, _ => none

def sweepOrphanRaftState (c : RangeID → RangeKeys) (raft : RangeID → Option RaftGroup) :
    RangeID → Option RaftGroup :=
  fun id => if (c id).desc.isNone && (c id).tombstone then none else raft id

def restart (s : Store) : Store :=
  let raft := sweepOrphanRaftState s.state.durable s.raft
  { s with
    state := ⟨s.state.durable, s.state.durable⟩
    raft := raft
    replicas := fun id => if (s.state.durable id).names s.node then some .loaded else none
    wiping := []
    votes := fun id =>
      if (s.state.durable id).names s.node then (s.votes id).or (raft id) else s.votes id }

inductive Action where
  | createReplica (desc : RangeDescriptor) (bootstrap : Bool)
  | applySnapshotStream (desc : RangeDescriptor) (appliedIndex : Nat)
  | installSnapshot (id : RangeID) (appliedIndex : Nat)
  | ready (id : RangeID) (term : Nat) (vote : ReplicaID) (commit first : Nat) (entries : List Entry)
  | apply (id : RangeID)
  | remove (id : RangeID)
  | wipe (id : RangeID)
  | truncate (id : RangeID) (index : Nat)
  | flush
  | crash

def step (s : Store) : Action → Option Store
  | .createReplica desc bootstrap => createReplica s desc bootstrap
  | .applySnapshotStream desc appliedIndex => applySnapshotStream s desc appliedIndex
  | .installSnapshot id appliedIndex => installSnapshot s id appliedIndex
  | .ready id term vote commit first entries => ready s id term vote commit first entries
  | .apply id => applyEntry s id
  | .remove id => removeReplica s id
  | .wipe id => wipeRaftState s id
  | .truncate id index => truncate s id index
  | .flush => some { s with state := s.state.flush }
  | .crash => some (restart s)

def awaited (s : Store) (id : RangeID) : Bool :=
  (s.raft id).any fun g => (List.range (g.commit + 1)).any fun i =>
    decide ((s.state.current id).applied < i) && match g.log i with
      | some (.split _ _) => true
      | _ => false

def vacant (s : Store) (id : RangeID) : Bool :=
  (s.state.current id).desc.isNone && (s.raft id).isNone && !s.wiping.contains id

/-- A snapshot or a new range finds a store that holds nothing of it. A replica
created that way writes raft state only once its descriptor has been flushed. The
right-hand range of a split is unknown to the store. A replica goes away, or jumps
over its log, only with no committed split left to apply. -/
def flushedFirst (s : Store) : Action → Bool
  | .createReplica desc _ => vacant s desc.rangeID
  | .applySnapshotStream desc _ => vacant s desc.rangeID
  | .installSnapshot id _ => !awaited s id
  | .ready id _ _ _ _ _ => decide (s.replicas id = some .split) || (s.state.durable id).names s.node
  | .apply id =>
    match s.next id with
    | some (_, .split _ newID) => (s.state.current newID).unknown
    | some (_, .merge rhs _ _) => !awaited s rhs
    | _ => true
  | .remove id => !awaited s id
  | .wipe _ => true
  | .truncate _ _ => true
  | .flush => true
  | .crash => true

/-- The committed log of `lhs` splits off `id` above what it has applied, is
complete up to there and does not remove the node before that. -/
structure Pending (node : NodeID) (c : RangeID → RangeKeys) (lhs : RangeID)
    (g : RaftGroup) (i : Nat) (id : RangeID) : Prop where
  entry : ∃ splitKey, g.log i = some (.split splitKey id)
  above : (c lhs).applied < i
  committed : i ≤ g.commit
  stays : ∀ j, (c lhs).applied < j → j < i → ∃ e, g.log j = some e ∧ e.removes node = false

/-- The replica is running, or the replay of another one that is or will be
re-creates it. -/
inductive Rejoins (s : Store) : RangeID → Prop where
  | running {id : RangeID} (h : (s.replicas id).isSome = true) : Rejoins s id
  | replayed {lhs id : RangeID} {g : RaftGroup} {i : Nat} (hlhs : Rejoins s lhs)
    (hg : s.raft lhs = some g)
      (hpending : Pending s.node s.state.current lhs g i id) : Rejoins s id

/-- After a crash every replica that has persisted raft state finds it again and is
loaded or re-created. -/
def VotersStay (s : Store) : Prop :=
  ∀ id g, s.votes id = some g → (restart s).raft id = some g ∧ Rejoins (restart s) id

end Datax.StoreLife
