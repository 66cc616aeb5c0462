import Datax.Kvserver.DescriptorChange
import Datax.Shared.Runs
import Datax.Shared.Tiling

/-!
# The ranges of a cluster

All the ranges of a cluster, each with the descriptor its last applied entry left. A change is built
from descriptors the ranges have had at some time, waits in `proposed`, and may apply at any later
time, any number of times; the stage functions compare it with what the range is then. A merge reads
the right-hand range when it applies; nothing here rests on its freeze.
-/

namespace Datax.Ranges

open Function

inductive Command where
  | split (trig : SplitTrigger)
  | merge (trig : MergeTrigger)
  | confChange (newDesc : RangeDescriptor)

def Command.rangeID : Command → RangeID
  | split trig => trig.left.rangeID
  | merge trig => trig.left.rangeID
  | confChange newDesc => newDesc.rangeID

/-- The live ranges, every value that a descriptor has had, the counter of range
IDs, and the commands proposed so far. -/
structure Layout where
  live : RangeID → Option RangeDescriptor
  past : List RangeDescriptor
  rangeIDGen : RangeID
  proposed : List Command := []

def Layout.span (s : Layout) (id : RangeID) : Set Key :=
  { k | ∃ d, s.live id = some d ∧ d.containsKey k = true }

/-- Every key of the keyspace belongs to one live range, and no other key does. -/
def Layout.Partition (s : Layout) (keyspace : Set Key) : Prop := Tiling.Tiles s.span keyspace

def Layout.adopt (s : Layout) (desc : RangeDescriptor) : Layout :=
  { s with
    live := Function.update s.live desc.rangeID (some desc)
    past := desc :: s.past }

def Layout.drop (s : Layout) (id : RangeID) : Layout :=
  { s with live := Function.update s.live id none }

section Edits
variable (s : Layout) (desc : RangeDescriptor) {id : RangeID}

@[simp] theorem adopt_live_self : (s.adopt desc).live desc.rangeID = some desc := update_self _ _ _

theorem adopt_live_of_ne (h : id ≠ desc.rangeID) : (s.adopt desc).live id = s.live id :=
  update_of_ne h _ _

@[simp] theorem drop_live_self (id : RangeID) : (s.drop id).live id = none := update_self _ _ _

theorem drop_live_of_ne {gone : RangeID} (h : id ≠ gone) : (s.drop gone).live id = s.live id :=
  update_of_ne h _ _

end Edits

def applySplit (s : Layout) (cur : RangeDescriptor) (trig : SplitTrigger) : Except Refusal Layout :=
  (stageSplit cur trig).map fun left => (s.adopt left).adopt trig.right

def applyMerge (s : Layout) (cur rhs : RangeDescriptor) (trig : MergeTrigger) :
    Except Refusal Layout :=
  (stageMerge cur rhs trig).map fun merged => (s.adopt merged).drop trig.right.rangeID

def applyConfChange (s : Layout) (cur newDesc : RangeDescriptor) : Except Refusal Layout :=
  (stageConfChange cur newDesc).map s.adopt

/-- The outcome of a command on a range at `cur`. A merge that is not stale and
finds no right-hand range stops the node. -/
def applyCommand (s : Layout) (cur : RangeDescriptor) : Command → Option (Except Refusal Layout)
  | .split trig => some (applySplit s cur trig)
  | .merge trig =>
    match s.live trig.right.rangeID with
    | some rhs => some (applyMerge s cur rhs trig)
    | none =>
      if cur.generation ≠ trig.left.generation then
        some (.error (.stale trig.left.generation cur.generation))
      else none
  | .confChange newDesc => some (applyConfChange s cur newDesc)

def Layout.outcome (s : Layout) (i : Nat) : Option (Command × Except Refusal Layout) := do
  let c ← s.proposed[i]?
  let cur ← s.live c.rangeID
  let r ← applyCommand s cur c
  return (c, r)

inductive Action where
  | proposeSplit (desc : RangeDescriptor) (splitKey : Key) (closedTS : Timestamp)
  | proposeMerge (desc rhsDesc : RangeDescriptor) (rhs : Replicated)
  | proposeConfChange (desc : RangeDescriptor) (self : NodeID) (change : ReplicaChange)
  | apply (i : Nat)

def Layout.propose (s : Layout) (c : Command) : Layout := { s with proposed := s.proposed ++ [c] }

def step (s : Layout) : Action → Option Layout
  | .proposeSplit desc splitKey closedTS =>
    if s.past.contains desc then
      (adminSplit false desc splitKey (s.rangeIDGen + 1) closedTS).toOption.map fun trig =>
        { s with rangeIDGen := s.rangeIDGen + 1 }.propose (.split trig)
    else none
  | .proposeMerge desc rhsDesc rhs =>
    if s.past.contains desc && s.past.contains rhsDesc then
      (adminMergeTrigger desc rhsDesc rhs).toOption.map fun trig => s.propose (.merge trig)
    else none
  | .proposeConfChange desc self change =>
    if s.past.contains desc then
      (adminChangeReplicas false self desc change).toOption.map fun newDesc =>
        s.propose (.confChange newDesc)
    else none
  | .apply i =>
    (s.outcome i).map fun r =>
      match r.2 with
      | .ok s' => s'
      | .error _ => s

def Layout.start (descs : List RangeDescriptor) : Layout where
  live id := descs.find? fun d => d.rangeID == id
  past := descs
  rangeIDGen := (descs.map RangeDescriptor.rangeID).foldr max 0

/-- Every range that is there before and after has kept its descriptor or has a
newer generation. -/
def Ascends (s s' : Layout) : Prop :=
  ∀ id d d', s.live id = some d → s'.live id = some d' → d' = d ∨ d.generation < d'.generation

end Datax.Ranges
