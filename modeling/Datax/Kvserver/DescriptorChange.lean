import Datax.Kvserver.Replica

/-!
# Splits, merges and membership changes

A descriptor change is built by the leader from the descriptor it holds and
travels through the log. When the entry applies, the range may have moved on; the
stage functions compare generations and refuse a change that was built from
another descriptor.
-/

namespace Datax

structure SplitTrigger where
  left : RangeDescriptor
  right : RangeDescriptor
  closedTS : Timestamp

structure MergeTrigger where
  left : RangeDescriptor
  right : RangeDescriptor
  merged : RangeDescriptor
  rightAppliedIndex : Nat
  rightSizeBytes : Int
  rightGCThreshold : Timestamp

inductive ReplicaChange where
  | add (node : NodeID)
  | remove (node : NodeID)
deriving DecidableEq

inductive AdminError where
  | frozen
  | boundary (splitKey : Key)
  | outsideRange (splitKey : Key) (actual : RangeDescriptor)
  | hasReplica (node : NodeID)
  | noReplica (node : NodeID)
  | ownReplica
  | replicaSetsDiffer (rhs : RangeID)
  | notAdjacent (rhs : RangeID) (rhsStart lhsEnd : Key)

def adminSplit (frozen : Bool) (desc : RangeDescriptor) (splitKey : Key) (newID : RangeID)
    (closedTS : Timestamp) : Except AdminError SplitTrigger :=
  if frozen then .error .frozen
  else if splitKey = desc.startKey then .error (.boundary splitKey)
  else if ¬ desc.containsKey splitKey then .error (.outsideRange splitKey desc)
  else
    .ok
      { left := { desc with endKey := splitKey, generation := desc.generation + 1 }
        right :=
          { rangeID := newID
            startKey := splitKey
            endKey := desc.endKey
            replicas := desc.replicas
            nextReplicaID := desc.nextReplicaID
            generation := desc.generation + 1 }
        closedTS := closedTS }

/-- One change of `adminChangeReplicas` on the leader at node `self`. -/
def adminChangeReplicas (frozen : Bool) (self : NodeID) (desc : RangeDescriptor) :
    ReplicaChange → Except AdminError RangeDescriptor
  | .add node =>
    if frozen then .error .frozen
    else if (desc.getReplica node).isSome then .error (.hasReplica node)
    else
      .ok { desc with
          replicas := desc.replicas ++ [⟨node, node, desc.nextReplicaID⟩]
          nextReplicaID := desc.nextReplicaID + 1
          generation := desc.generation + 1 }
  | .remove node =>
    if frozen then .error .frozen
    else if (desc.getReplica node).isNone then .error (.noReplica node)
    else if node = self then .error .ownReplica
    else
      .ok { desc with
          replicas := desc.replicas.filter fun r => r.nodeID != node
          generation := desc.generation + 1 }

/-- The checks of `adminMerge` before it freezes the right-hand side. -/
def adminMergeCheck (frozen : Bool) (desc rhsDesc : RangeDescriptor) : Except AdminError Unit :=
  if frozen then .error .frozen
  else if ¬ sameNodeSet desc.replicas rhsDesc.replicas then .error
    (.replicaSetsDiffer rhsDesc.rangeID)
  else .ok ()

/-- The trigger `adminMerge` builds from the descriptors it reads again after the
subsume, and from the right-hand side's position. -/
def adminMergeTrigger (desc rhsDesc : RangeDescriptor) (rhs : Replicated) :
    Except AdminError MergeTrigger :=
  if rhsDesc.startKey ≠ desc.endKey then
    .error (.notAdjacent rhsDesc.rangeID rhsDesc.startKey desc.endKey)
  else
    .ok
      { left := desc
        right := rhsDesc
        merged :=
          { rangeID := desc.rangeID
            startKey := desc.startKey
            endKey := rhsDesc.endKey
            replicas := desc.replicas
            nextReplicaID := desc.nextReplicaID
            generation := max desc.generation rhsDesc.generation + 1 }
        rightAppliedIndex := rhs.appliedIndex
        rightSizeBytes := rhs.sizeBytes
        rightGCThreshold := rhs.gcThreshold }

inductive Refusal where
  | stale (against current : Int)
  | rightMoved (generation : Int) (endKey : Key) (actual : Int) (actualEnd : Key)

def stageSplit (cur : RangeDescriptor) (trig : SplitTrigger) : Except Refusal RangeDescriptor :=
  if staleDescriptorChange cur.generation trig.left.generation then
    .error (.stale (trig.left.generation - 1) cur.generation)
  else .ok trig.left

/-- `stageMerge`, once the local right-hand replica has reached the trigger's
position and has descriptor `rhs`. -/
def stageMerge (cur rhs : RangeDescriptor) (trig : MergeTrigger) : Except Refusal RangeDescriptor :=
  if cur.generation ≠ trig.left.generation then
    .error (.stale trig.left.generation cur.generation)
  else if rhs.generation ≠ trig.right.generation ∨ rhs.endKey ≠ trig.merged.endKey then
    .error (.rightMoved trig.right.generation trig.merged.endKey rhs.generation rhs.endKey)
  else .ok trig.merged

/-- A membership change when it applies; a repeat of the descriptor the replica was
seeded with is not stale. -/
def stageConfChange (cur newDesc : RangeDescriptor) : Except Refusal RangeDescriptor :=
  if staleDescriptorChange cur.generation newDesc.generation ∧ ¬ sameDescriptor cur newDesc then
    .error (.stale (newDesc.generation - 1) cur.generation)
  else .ok newDesc

variable {frozen : Bool} {desc : RangeDescriptor} {trig : SplitTrigger}

section
variable {splitKey : Key} {newID : RangeID} {closedTS : Timestamp}
  (h : adminSplit frozen desc splitKey newID closedTS = .ok trig)
include h

theorem adminSplit_eq_ok : desc.startKey < splitKey ∧ splitKey < desc.endKey ∧
      trig.left = { desc with endKey := splitKey, generation := desc.generation + 1 } ∧
      trig.right =
        { rangeID := newID
          startKey := splitKey
          endKey := desc.endKey
          replicas := desc.replicas
          nextReplicaID := desc.nextReplicaID
          generation := desc.generation + 1 } := by
  unfold adminSplit at h
  split at h
  · cases h
  split at h
  · cases h
  rename_i hstart
  split at h
  · cases h
  rename_i hin
  cases h
  obtain ⟨hle, hlt⟩ := RangeDescriptor.containsKey_iff.mp (not_not.mp hin)
  exact ⟨lt_of_le_of_ne hle (Ne.symm hstart), hlt, rfl, rfl⟩

theorem adminSplit_ok : splitKey < desc.endKey ∧
      trig.left = { desc with endKey := splitKey, generation := desc.generation + 1 } ∧
      trig.right.startKey = splitKey := by
  obtain ⟨_, hlt, hleft, hright⟩ := adminSplit_eq_ok h
  exact ⟨hlt, hleft, by rw [hright]⟩

end

theorem adminChangeReplicas_ok {self : NodeID} {newDesc : RangeDescriptor}
    {change : ReplicaChange} (h : adminChangeReplicas frozen self desc change = .ok newDesc) :
    newDesc.startKey = desc.startKey ∧ newDesc.endKey = desc.endKey ∧
      newDesc.generation = desc.generation + 1 := by
  cases change with
  | add node =>
    simp only [adminChangeReplicas] at h
    split_ifs at h
    cases h
    exact ⟨rfl, rfl, rfl⟩
  | remove node =>
    simp only [adminChangeReplicas] at h
    split at h
    · cases h
    split_ifs at h
    cases h
    exact ⟨rfl, rfl, rfl⟩

section
variable {rhsDesc : RangeDescriptor} {rhs : Replicated} {trig : MergeTrigger}
  (h : adminMergeTrigger desc rhsDesc rhs = .ok trig)
include h

theorem adminMergeTrigger_merged : trig.merged =
      { desc with
        endKey := rhsDesc.endKey
        generation := max desc.generation rhsDesc.generation + 1 } := by
  unfold adminMergeTrigger at h
  split_ifs at h
  cases h
  rfl

theorem adminMergeTrigger_ok :
    rhsDesc.startKey = desc.endKey ∧ trig.left = desc ∧ trig.right = rhsDesc ∧
      trig.merged.replicas = desc.replicas ∧ trig.merged.endKey = rhsDesc.endKey ∧
      trig.merged.generation = max desc.generation rhsDesc.generation + 1 ∧
      trig.rightAppliedIndex = rhs.appliedIndex := by
  unfold adminMergeTrigger at h
  split_ifs at h with hadj
  cases h
  exact ⟨not_not.mp hadj, rfl, rfl, rfl, rfl, rfl, rfl⟩

end

theorem staleDescriptorChange_eq_false {current produced : Int} :
    staleDescriptorChange current produced = false ↔ produced = current + 1 := by
  simp [staleDescriptorChange]

variable {cur : RangeDescriptor}

theorem stageSplit_ok (h : stageSplit cur trig = .ok desc) :
    desc = trig.left ∧ trig.left.generation = cur.generation + 1 := by
  unfold stageSplit at h
  split_ifs at h with hstale
  cases h
  exact ⟨rfl, staleDescriptorChange_eq_false.mp (by simpa using hstale)⟩

theorem stageMerge_ok {rhs : RangeDescriptor} {trig : MergeTrigger}
    (h : stageMerge cur rhs trig = .ok desc) :
    desc = trig.merged ∧ cur.generation = trig.left.generation ∧
      rhs.generation = trig.right.generation ∧ rhs.endKey = trig.merged.endKey := by
  unfold stageMerge at h
  split_ifs at h with hgen hmoved
  cases h
  rw [not_or, not_not, not_not] at hmoved
  exact ⟨rfl, not_not.mp hgen, hmoved.1, hmoved.2⟩

theorem stageConfChange_ok {newDesc : RangeDescriptor}
    (h : stageConfChange cur newDesc = .ok desc) :
    desc = newDesc ∧
      (newDesc.generation = cur.generation + 1 ∨ sameDescriptor cur newDesc = true) := by
  unfold stageConfChange at h
  split_ifs at h with hstale
  cases h
  refine ⟨rfl, ?_⟩
  by_cases hs : sameDescriptor cur desc = true
  · exact Or.inr hs
  apply Or.inl
  apply staleDescriptorChange_eq_false.mp
  rw [Bool.eq_false_iff]
  exact fun hst => hstale ⟨hst, hs⟩

/-- The engine bytes that a range's size counts: encoded MVCC keys and their values. -/
def ContentKey.mvccSize : ContentKey → Bytes → Nat
  | txnRecord _ _, _ => 0
  | mvcc key version, value =>
    key.length + 2 + key.count 0 + (if version.isSome then 12 else 0) + value.length

def spanSizeBytes (content : Content) (desc : RangeDescriptor) : Nat :=
  ((content.entries.filter fun kv => desc.containsKey kv.1.addr).map fun kv =>
    kv.1.mvccSize kv.2).sum

end Datax
