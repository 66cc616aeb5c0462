import Datax.Kvserver.RangeLayout

/-!
# Addressing records

`/meta` holds one record for the end key of each range, and a key is looked up at the first record
past it. A change that has applied sends one batch of record updates, which arrives once, whole, and
in any order. A record is named by the end key itself; MVCC is left out: an update reads the newest
value and writes above it.
-/

namespace Datax.Addressing

open Shared (Chain)
open Ranges (Layout Command)
open OrderDual (toDual ofDual)

structure UpdateMetaRequest where
  key : Key
  desc : Option RangeDescriptor := none
  ifRangeID : RangeID := 0
  ifGeneration : Int := 0

def metaUpdateApplies (existing : Option RangeDescriptor) (req : UpdateMetaRequest) : Bool :=
  match req.desc with
  | none =>
    match existing with
    | none => false
    | some e => e.rangeID == req.ifRangeID && decide (e.generation ≤ req.ifGeneration)
  | some d =>
    match existing with
    | none => true
    | some e =>
      decide (e.generation < d.generation) ||
        (e.rangeID == d.rangeID && e.generation == d.generation)

abbrev MetaRecords := Chain (OrderDual Key) RangeDescriptor

def evalUpdateMeta (records : MetaRecords) (req : UpdateMetaRequest) : MetaRecords :=
  if metaUpdateApplies (records.get (toDual req.key)) req then
    match req.desc with
    | none => records.delete (toDual req.key)
    | some d => records.put (toDual req.key) d
  else records

def putRecord (d : RangeDescriptor) : UpdateMetaRequest := { key := d.endKey, desc := some d }

def deleteRecord (d : RangeDescriptor) : UpdateMetaRequest :=
  { key := d.endKey, ifRangeID := d.rangeID, ifGeneration := d.generation }

def putMetaRecords (descs : List RangeDescriptor) : List UpdateMetaRequest := descs.map putRecord

def updateMetaRecords (puts deletes : List RangeDescriptor) : List UpdateMetaRequest :=
  puts.map putRecord ++ deletes.map deleteRecord

def metaUpdates : Command → List UpdateMetaRequest
  | .split trig => putMetaRecords [trig.left, trig.right]
  | .merge trig => updateMetaRecords [trig.merged] [trig.left]
  | .confChange newDesc => putMetaRecords [newDesc]

/-- The row that `lookupMeta` scans for: the first record at or past the
successor of the key. -/
def firstRecord (records : MetaRecords) (key : Key) : Option RangeDescriptor :=
  (records.newest fun e => !(decide (ofDual e < key.next))).map Prod.snd

structure State where
  layout : Layout
  records : MetaRecords
  pending : List (List UpdateMetaRequest) := []

inductive Action where
  | range (a : Ranges.Action)
  | deliver (i : Nat)

def issued (layout : Layout) : Ranges.Action → List (List UpdateMetaRequest)
  | .apply i =>
    match layout.outcome i with
    | some (c, .ok _) => [metaUpdates c]
    | some (_, .error _) => []
    | none => []
  | .proposeSplit _ _ _ => []
  | .proposeMerge _ _ _ => []
  | .proposeConfChange _ _ _ => []

def step (s : State) : Action → Option State
  | .range a =>
    (Ranges.step s.layout a).map fun layout =>
      { s with layout := layout, pending := s.pending ++ issued s.layout a }
  | .deliver i =>
    (s.pending[i]?).map fun batch =>
      { s with records := batch.foldl evalUpdateMeta s.records, pending := s.pending.eraseIdx i }

/-- No batch is delivered that deletes a record which a batch of an earlier change
has yet to put. -/
def inOrder (s : State) : Action → Bool
  | .range _ => true
  | .deliver i =>
    ((s.pending[i]?).getD []).all fun q => q.desc.isSome ||
      (s.pending.take i).all fun batch => batch.all fun p => p.desc.isNone || p.key != q.key

/-- Once every batch has arrived, the first record past a key is the descriptor of
the live range that holds the key. -/
def Converged (keyspace : Set Key) (s : State) : Prop :=
  s.pending = [] → ∀ k ∈ keyspace, ∃ d, s.layout.live d.rangeID = some d ∧ d.containsKey k = true ∧
    firstRecord s.records k = some d

def Exact (layout : Layout) (records : MetaRecords) : Prop :=
  ∀ e d, records.get (toDual e) = some d ↔ ∃ id, layout.live id = some d ∧ d.endKey = e

end Datax.Addressing
