import Datax.Kvserver.DescriptorChange
import Datax.Shared.Replay
import Datax.Shared.Runs

/-!
# Merging a frozen range

Two ranges, each a log that the nodes apply at their own pace. The right-hand range's frozen
flag is tested when a split or membership change is proposed, which reaches the log later. A
merge trigger is built from what the driving node reads, confirmed node by node, and compared
with each node's own right-hand replica. A node without a replica follows the log too, as a
snapshot would bring it there.
-/

namespace Datax.Merging

def nodes (d : RangeDescriptor) : List NodeID := d.replicas.map ReplicaDescriptor.nodeID

inductive AdminRequest where
  | split (splitKey : Key) (newID : RangeID) (closedTS : Timestamp)
  | changeReplicas (change : ReplicaChange)

inductive RangeChange where
  | split (trig : SplitTrigger)
  | confChange (desc : RangeDescriptor)

def RangeChange.desc : RangeChange → RangeDescriptor
  | split trig => trig.left
  | confChange desc => desc

def RangeChange.stage (cur : RangeDescriptor) : RangeChange → Option RangeDescriptor
  | split trig => (stageSplit cur trig).toOption
  | confChange desc => (stageConfChange cur desc).toOption

def AdminRequest.build (frozen : Bool) (self : NodeID) (desc : RangeDescriptor) :
    AdminRequest → Option RangeChange
  | split splitKey newID closedTS =>
    ((adminSplit frozen desc splitKey newID closedTS).toOption).map .split
  | changeReplicas change =>
    ((adminChangeReplicas frozen self desc change).toOption).map .confChange

inductive RhsEntry where
  | subsume
  | unfreeze
  | change (c : RangeChange)
  | command

structure RhsState where
  desc : RangeDescriptor
  frozen : Bool

def RhsState.apply (st : RhsState) : RhsEntry → RhsState
  | .subsume => { st with frozen := true }
  | .unfreeze => { st with frozen := false }
  | .change c => { st with desc := (c.stage st.desc).getD st.desc }
  | .command => st

inductive LhsEntry where
  | merge (trig : MergeTrigger)
  | change (c : RangeChange)
  | command

structure Lhs where
  applied : Nat
  desc : RangeDescriptor

/-- A split or membership change that has passed the frozen test, with the position
the test was made at. -/
structure Proposal where
  change : RangeChange
  seen : Nat

/-- A running `adminMerge`: the index of its subsume, the trigger once it is built,
and the nodes still to be confirmed. -/
structure Driver where
  node : NodeID
  subsumed : Nat
  trig : Option MergeTrigger := none
  waiting : List NodeID := []

inductive Outcome where
  | refused
  | absorbed (rhs : RangeDescriptor)
  | missing
deriving DecidableEq

structure Cluster where
  rhsFirst : RangeDescriptor
  rhsLog : List RhsEntry := []
  rhs : NodeID → Nat := fun _ => 0
  detached : NodeID → Bool := fun _ => false
  lhsFirst : RangeDescriptor
  lhsLog : List LhsEntry := []
  lhs : NodeID → Lhs
  changes : List Proposal := []
  lhsChanges : List RangeChange := []
  unfreezing : Nat := 0
  drivers : List Driver := []
  -- history
  triggers : List MergeTrigger := []
  lhsDescs : List RangeDescriptor := []
  outcomes : List (NodeID × Nat × Outcome) := []

namespace Cluster

def start (lhs rhs : RangeDescriptor) : Cluster where
  rhsFirst := rhs
  lhsFirst := lhs
  lhs := fun _ => ⟨0, lhs⟩

def rhsAt (s : Cluster) (k : Nat) : RhsState :=
  Replay.stateAt RhsState.apply ⟨s.rhsFirst, false⟩ s.rhsLog k

def rhsReplica (s : Cluster) (n : NodeID) : Option RhsState :=
  let st := s.rhsAt (s.rhs n)
  if s.detached n = false ∧ n ∈ nodes st.desc then some st else none

/-- The trigger of a running merge, from the node's two replicas. -/
def reread (s : Cluster) (d : Driver) : Option MergeTrigger :=
  match s.rhsReplica d.node with
  | none => none
  | some st =>
    (adminMergeTrigger (s.lhs d.node).desc st.desc { appliedIndex := s.rhs d.node }).toOption

end Cluster

inductive Action where
  | admin (n : NodeID) (req : AdminRequest)
  | appendChange (i : Nat)
  | appendCommand
  | applyRhs (n : NodeID)
  | subsume (n : NodeID)
  | reread (i : Nat)
  | confirm (i : Nat)
  | propose (i : Nat)
  | tryUnfreeze (n : NodeID)
  | appendUnfreeze
  | adminLhs (n : NodeID) (req : AdminRequest)
  | appendLhsChange (i : Nat)
  | applyLhs (n : NodeID)
  | followLhs (n m : NodeID)

namespace Cluster

def appendRhs (s : Cluster) (e : RhsEntry) : Cluster := { s with rhsLog := s.rhsLog ++ [e] }

def appendLhs (s : Cluster) (e : LhsEntry) : Cluster := { s with lhsLog := s.lhsLog ++ [e] }

def advance (s : Cluster) (n : NodeID) (desc : RangeDescriptor) : Cluster :=
  { s with
    lhs := Function.update s.lhs n ⟨(s.lhs n).applied + 1, desc⟩
    lhsDescs := desc :: s.lhsDescs }

def record (s : Cluster) (n : NodeID) (o : Outcome) : Cluster :=
  { s with outcomes := (n, (s.lhs n).applied, o) :: s.outcomes }

/-- `stageMerge` on a node: without a local right-hand replica the node dies, behind
the trigger's position it waits. -/
def applyMerge (s : Cluster) (n : NodeID) (trig : MergeTrigger) : Option Cluster :=
  let cur := (s.lhs n).desc
  if cur.generation ≠ trig.left.generation then some ((s.record n .refused).advance n cur)
  else
    match s.rhsReplica n with
    | none => some (s.record n .missing)
    | some st =>
      if s.rhs n < trig.rightAppliedIndex then none
      else
        match stageMerge cur st.desc trig with
        | .error _ => some ((s.record n .refused).advance n cur)
        | .ok desc =>
          let s' := (s.record n (.absorbed st.desc)).advance n desc
          some { s' with detached := Function.update s.detached n true }

def applyLhs (s : Cluster) (n : NodeID) : Option Cluster :=
  let cur := (s.lhs n).desc
  match s.lhsLog[(s.lhs n).applied]? with
  | none => none
  | some .command => some (s.advance n cur)
  | some (.change c) => some (s.advance n ((c.stage cur).getD cur))
  | some (.merge trig) => s.applyMerge n trig

end Cluster

def step (s : Cluster) : Action → Option Cluster
  | .admin n req =>
    match s.rhsReplica n with
    | none => none
    | some st =>
      (req.build st.frozen n st.desc).map fun c => { s with changes := ⟨c, s.rhs n⟩ :: s.changes }
  | .appendChange i =>
    (s.changes[i]?).map fun p =>
      { s.appendRhs (.change p.change) with changes := s.changes.eraseIdx i }
  | .appendCommand => some (s.appendRhs .command)
  | .applyRhs n =>
    if s.rhs n < s.rhsLog.length then some { s with rhs := Function.update s.rhs n (s.rhs n + 1) }
    else none
  | .subsume n =>
    match s.rhsReplica n with
    | none => none
    | some st =>
      if st.desc.startKey = (s.lhs n).desc.endKey ∧
          (adminMergeCheck false (s.lhs n).desc st.desc).toOption.isSome then
        some { s.appendRhs .subsume with
          drivers := { node := n, subsumed := s.rhsLog.length } :: s.drivers }
      else none
  | .reread i =>
    match s.drivers[i]? with
    | none => none
    | some d =>
      if d.trig.isNone ∧ d.subsumed < s.rhs d.node then
        (s.reread d).map fun trig =>
          { s with
            drivers := s.drivers.set i
              { d with
                trig := some trig
                waiting := (nodes trig.right).filter fun n => n != d.node }
            triggers := trig :: s.triggers }
      else none
  | .confirm i =>
    match s.drivers[i]? with
    | none => none
    | some d =>
      match d.trig, d.waiting with
      | some trig, n :: rest =>
        if (s.rhsReplica n).isSome ∧ trig.rightAppliedIndex ≤ s.rhs n then
          some { s with drivers := s.drivers.set i { d with waiting := rest } }
        else none
      | _, _ => none
  | .propose i =>
    match s.drivers[i]? with
    | none => none
    | some d =>
      match d.trig, d.waiting with
      | some trig, [] =>
        some { s.appendLhs (.merge trig) with drivers := s.drivers.eraseIdx i }
      | _, _ => none
  | .tryUnfreeze n =>
    match s.rhsReplica n with
    | none => none
    | some st =>
      if st.frozen ∧ st.desc.startKey = (s.lhs n).desc.endKey ∧
          sameNodeSet (s.lhs n).desc.replicas st.desc.replicas = false then
        some { s with unfreezing := s.unfreezing + 1 }
      else none
  | .appendUnfreeze =>
    if s.unfreezing = 0 then none
    else some { s.appendRhs .unfreeze with unfreezing := s.unfreezing - 1 }
  | .adminLhs n req =>
    (req.build false n (s.lhs n).desc).map fun c => { s with lhsChanges := c :: s.lhsChanges }
  | .appendLhsChange i =>
    (s.lhsChanges[i]?).map fun c =>
      { s.appendLhs (.change c) with lhsChanges := s.lhsChanges.eraseIdx i }
  | .applyLhs n => if n ∈ nodes (s.lhs n).desc then s.applyLhs n else none
  | .followLhs n m =>
    if n ∉ nodes (s.lhs n).desc ∧ (s.lhs m).applied = (s.lhs n).applied + 1 then
      some { s with lhs := Function.update s.lhs n (s.lhs m) }
    else none

def RhsEntry.isSubsume : RhsEntry → Bool
  | subsume => true
  | _ => false

def RhsEntry.isUnfreeze : RhsEntry → Bool
  | unfreeze => true
  | _ => false

def Outcome.isAbsorbed : Outcome → Bool
  | absorbed _ => true
  | _ => false

/-- The races the source leaves open do not happen: a change reaches the log with no
subsume behind its frozen test; a trigger is built from equal node sets, with no
unfreeze behind its own subsume; an unfreeze reaches the log when no merge has
applied and the left-hand range has moved past every trigger built. -/
def unraced (s : Cluster) : Action → Bool
  | .appendChange i =>
    (s.changes[i]?).all fun p => (s.rhsLog.drop p.seen).all fun e => !e.isSubsume
  | .reread i =>
    (s.drivers[i]?).all fun d => ((s.rhsLog.drop d.subsumed).all fun e => !e.isUnfreeze) &&
      (s.reread d).all fun trig => sameNodeSet trig.left.replicas trig.right.replicas
  | .appendUnfreeze =>
    (s.outcomes.all fun o => !o.2.2.isAbsorbed) &&
      s.triggers.all fun trig => s.lhsDescs.any fun d =>
        decide (trig.left.generation < d.generation)
  | _ => true

end Datax.Merging
