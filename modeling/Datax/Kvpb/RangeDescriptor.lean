import Datax.Keys.Key

/-!
# Range descriptors

A range is a half-open span of keys with a set of replicas. Every split, merge
and membership change produces a descriptor of the next generation.
-/

namespace Datax

abbrev RangeID := Nat
abbrev NodeID := Nat
abbrev ReplicaID := Nat

structure ReplicaDescriptor where
  nodeID : NodeID
  storeID : Nat
  replicaID : ReplicaID
deriving DecidableEq

structure RangeDescriptor where
  rangeID : RangeID
  startKey : Key
  endKey : Key
  replicas : List ReplicaDescriptor
  nextReplicaID : ReplicaID
  generation : Int
deriving DecidableEq

namespace RangeDescriptor

def containsKey (d : RangeDescriptor) (k : Key) : Bool :=
  !(decide (k < d.startKey)) && decide (k < d.endKey)

theorem containsKey_iff {d : RangeDescriptor} {k : Key} :
    d.containsKey k = true ↔ d.startKey ≤ k ∧ k < d.endKey := by
  simp [containsKey]

def getReplica (d : RangeDescriptor) (node : NodeID) : Option ReplicaDescriptor :=
  d.replicas.find? fun r => r.nodeID == node

def Overlaps (d e : RangeDescriptor) : Prop := ∃ k, d.containsKey k = true ∧ e.containsKey k = true

end RangeDescriptor

def wholeRange : RangeDescriptor :=
  { rangeID := 1, startKey := [], endKey := [255]
    replicas := [⟨1, 1, 1⟩], nextReplicaID := 2, generation := 0 }

def sameReplicas (a b : List ReplicaDescriptor) : Bool :=
  a.length == b.length && a.all fun x => b.contains x

def sameDescriptor (a b : RangeDescriptor) : Bool :=
  a.rangeID == b.rangeID && a.generation == b.generation && a.startKey == b.startKey &&
    a.endKey == b.endKey && sameReplicas a.replicas b.replicas

def sameNodeSet (a b : List ReplicaDescriptor) : Bool :=
  a.length == b.length && b.all fun r => a.any fun s => s.nodeID == r.nodeID

/-- A change that produces generation `produced` was not built from the descriptor
at generation `current`. -/
def staleDescriptorChange (current produced : Int) : Bool := produced != current + 1

end Datax
