import Mathlib.Data.List.AList
import Datax.Kvpb.RangeDescriptor
import Datax.Storage.Mvcc

/-!
# The applied state of a replica

A replica keeps the replicated fields twice: in memory, and in the record that is
written with every application batch. The engine's content is raw key-value
pairs; a command's requests are any deterministic function on it.
-/

namespace Datax

/-- Engine keys of a range's replicated content, by the user key they are
addressed to. An MVCC key without a version is an intent record. -/
inductive ContentKey where
  | txnRecord (anchor : Key) (id : UUID)
  | mvcc (key : Key) (version : Option Timestamp)
deriving DecidableEq

def ContentKey.addr : ContentKey → Key
  | txnRecord anchor _ => anchor
  | mvcc key _ => key

abbrev Content := AList fun _ : ContentKey => Bytes

structure Replicated where
  appliedIndex : Nat := 0
  gcThreshold : Timestamp := ⊥
  sizeBytes : Int := 0
  frozen : Bool := false
  mergedInto : RangeID := 0
  closedTS : Timestamp := ⊥
deriving DecidableEq

structure TruncatedState where
  index : Nat := 0
  term : Nat := 0
deriving DecidableEq

structure ReplicaState extends Replicated where
  truncatedIndex : Nat := 0
  truncatedTerm : Nat := 0
deriving DecidableEq

/-- What a store's state engine holds of one range, next to the content of others. -/
structure RangeEngine where
  state : ReplicaState
  desc : Option RangeDescriptor
  content : Content

structure Replica extends Replicated where
  desc : RangeDescriptor
  truncated : TruncatedState

inductive Freeze where
  | subsume (mergeInto : RangeID)
  | unfreeze

/-- A command's requests: what they leave of the content, unless one of them fails,
and the last freeze or unfreeze among those that ran. -/
structure RaftCommand where
  eval : Content → Option Content
  freeze : Content → Option Freeze := fun _ => none
  gc : Option Timestamp := none
  closedTS : Timestamp := ⊥
  sizeDelta : Int := 0

def Replica.freezeBy (r : Replica) : Option Freeze → Replica
  | some (.subsume mergeInto) => { r with frozen := true, mergedInto := mergeInto }
  | some .unfreeze => { r with frozen := false, mergedInto := 0 }
  | none => r

def stageAppliedIndex (r : Replica) (idx : Nat) : ReplicaState where
  appliedIndex := idx
  gcThreshold := r.gcThreshold
  sizeBytes := r.sizeBytes
  frozen := r.frozen
  mergedInto := r.mergedInto
  closedTS := r.closedTS
  truncatedIndex := r.truncated.index
  truncatedTerm := r.truncated.term

def persistAppliedIndex (r : Replica) (eng : RangeEngine) (idx : Nat) : Replica × RangeEngine :=
  ({ r with appliedIndex := idx }, { eng with state := stageAppliedIndex r idx })

def Replica.account (r : Replica) (cmd : RaftCommand) : Replica :=
  let threshold := cmd.gc.getD ⊥
  { r with
    gcThreshold := if r.gcThreshold.less threshold then threshold else r.gcThreshold
    closedTS := if r.closedTS.less cmd.closedTS then cmd.closedTS else r.closedTS
    sizeBytes := if cmd.sizeDelta = 0 then r.sizeBytes else max 0 (r.sizeBytes + cmd.sizeDelta) }

def applyCommand (r : Replica) (eng : RangeEngine) (cmd : RaftCommand) (idx : Nat) :
    Replica × RangeEngine :=
  -- The freeze is set while the requests are evaluated: a later failure keeps it.
  let r := r.freezeBy (cmd.freeze eng.content)
  match cmd.eval eng.content with
  | none => persistAppliedIndex r eng idx
  | some content =>
    persistAppliedIndex (r.account cmd) { eng with content := content } idx

@[simp] theorem freezeBy_desc (r : Replica) (f : Option Freeze) : (r.freezeBy f).desc = r.desc := by
  unfold Replica.freezeBy
  split <;> rfl

theorem applyCommand_spec (r : Replica) (eng : RangeEngine) (cmd : RaftCommand) (idx : Nat) :
    (applyCommand r eng cmd idx).1.appliedIndex = idx ∧
      (applyCommand r eng cmd idx).2.state.appliedIndex = idx ∧
      (applyCommand r eng cmd idx).1.desc = r.desc ∧
      (applyCommand r eng cmd idx).2.desc = eng.desc := by
  unfold applyCommand
  split
  · exact ⟨rfl, rfl, freezeBy_desc r _, rfl⟩
  · exact ⟨rfl, rfl, freezeBy_desc r _, rfl⟩

def applyLog : Replica → RangeEngine → List RaftCommand → Replica × RangeEngine
  | r, eng, [] => (r, eng)
  | r, eng, cmd :: log =>
    let p := applyCommand r eng cmd (r.appliedIndex + 1)
    applyLog p.1 p.2 log

def Mirrored (r : Replica) (eng : RangeEngine) : Prop := eng.state.toReplicated = r.toReplicated

theorem applyCommand_mirrored (r : Replica) (eng : RangeEngine) (cmd : RaftCommand) (idx : Nat) :
    Mirrored (applyCommand r eng cmd idx).1 (applyCommand r eng cmd idx).2 := by
  unfold applyCommand
  split <;> rfl

theorem applyLog_mirrored {r : Replica} {eng : RangeEngine} (log : List RaftCommand)
    (h : Mirrored r eng) : Mirrored (applyLog r eng log).1 (applyLog r eng log).2 := by
  induction log generalizing r eng with
  | nil => exact h
  | cons cmd log ih => exact ih (applyCommand_mirrored r eng cmd _)

/-- `newReplica`: the memory of a replica that is loaded from its engine. -/
def newReplica (eng : RangeEngine) (desc : RangeDescriptor) : Replica where
  toReplicated := eng.state.toReplicated
  desc := desc
  truncated := ⟨eng.state.truncatedIndex, eng.state.truncatedTerm⟩

end Datax
