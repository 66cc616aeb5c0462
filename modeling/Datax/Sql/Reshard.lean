import Mathlib.Data.List.AList
import Mathlib.Data.List.Sort
import Mathlib.Data.Prod.Lex
import Datax.Hlc.Timestamp
import Datax.Shared.Batch
import Datax.Shared.Runs

/-!
# Online re-sharding

A re-shard builds the rows of a sharded table at a fresh index ID under a new bucket count, and its
indexes at shadow IDs, while transactions that see the marker write both layouts. The backfill plans
chunks by a sweep of the old layout at a boundary timestamp, blind to intents, and copies each in a
serializable transaction; then the swap.

Only old rows keep versions. Statements are evaluated at the commit, as intents keep
the rows as they were found. A timestamp is pushed above every earlier read of a key,
as the timestamp cache does.
-/

namespace Datax.Reshard

variable {PK V C : Type}

/-- A secondary index, with the ID its copy is built at. The columns are missing when one
of them is null. -/
structure Index (PK V C : Type) where
  id : Nat
  newID : Nat
  unique : Bool
  columns : PK → V → Option C

/-- A table whose descriptor carries the re-shard marker. -/
structure Table (PK V C : Type) where
  hash : PK → Nat
  buckets : Nat
  newBuckets : Nat
  newIndexID : Nat
  indexes : List (Index PK V C)
  fresh : (newIndexID :: (indexes.map Index.id ++ indexes.map Index.newID)).Nodup

/-- Keys outside the old layout: the rows of the new one, and index entries. The entries of
a non-unique index end in the encoded primary key. -/
inductive StoreKey (PK C : Type)
  | row (index bucket : Nat) (pk : PK)
  | entry (index : Nat) (columns : C) (suffix : Option (Nat × PK))
deriving DecidableEq

inductive StoreVal (PK V : Type)
  | row (value : V)
  | pk (bucket : Nat) (pk : PK)
  | present
deriving DecidableEq

abbrev Write (PK V C : Type) := StoreKey PK C × Option (StoreVal PK V)

namespace Table

def shardBucketAt (t : Table PK V C) (new : Bool) (pk : PK) : Nat :=
  t.hash pk % (if new then t.newBuckets else t.buckets)

def oldKey (t : Table PK V C) (pk : PK) : Nat ×ₗ PK := toLex (t.shardBucketAt false pk, pk)

def reshardShadowKey (t : Table PK V C) (pk : PK) : StoreKey PK C :=
  .row t.newIndexID (t.shardBucketAt true pk) pk

def entryKey (t : Table PK V C) (new : Bool) (idx : Index PK V C) (pk : PK) (columns : C) :
    StoreKey PK C :=
  .entry (if new then idx.newID else idx.id) columns
    (if idx.unique then none else some (t.shardBucketAt new pk, pk))

def entryVal (t : Table PK V C) (new : Bool) (idx : Index PK V C) (pk : PK) : StoreVal PK V :=
  if idx.unique then .pk (t.shardBucketAt new pk) pk else .present

end Table

def Index.columnsOf (idx : Index PK V C) (pk : PK) (row : Option V) : Option C :=
  row.bind (idx.columns pk)

structure Version (V : Type) where
  ts : Timestamp
  value : Option V
  /-- The writer saw the marker, and wrote the new layout as well. -/
  dual : Bool

abbrev History (V : Type) := List (Version V)

namespace History

def current (h : History V) : Option V := h.head?.bind Version.value

def valueAt (h : History V) (ts : Timestamp) : Option V :=
  (h.find? fun v => decide (v.ts ≤ ts)).bind Version.value

def newest (h : History V) : Timestamp := h.head?.elim ⊥ Version.ts

end History

variable [LinearOrder PK] [DecidableEq C]

structure Store (PK V C : Type) where
  rows : AList fun _ : PK => History V
  kv : StoreKey PK C → Option (StoreVal PK V)

namespace Store

def history (st : Store PK V C) (pk : PK) : History V := (st.rows.lookup pk).getD []

def current (st : Store PK V C) (pk : PK) : Option V := (st.history pk).current

end Store

namespace Table
variable (t : Table PK V C)

/-- The writes that move a row's entry in an index from its old columns to its new ones,
in the live index and, under the marker, in its copy. -/
def indexWrites (marker : Bool) (idx : Index PK V C) (pk : PK) (old new : Option C) :
    List (Write PK V C) :=
  if old = new then []
  else
    (old.toList.flatMap fun c => (t.entryKey false idx pk c, none) ::
      if marker then [(t.entryKey true idx pk c, none)] else []) ++
    new.toList.flatMap fun c => (t.entryKey false idx pk c, some (t.entryVal false idx pk)) ::
      if marker then [(t.entryKey true idx pk c, some (t.entryVal true idx pk))] else []

/-- What `addIndexEntries` and `updateIndexEntries` refuse: a null in a unique index, and a
key that another row has. -/
def indexAllows (st : Store PK V C) (idx : Index PK V C) (pk : PK) (old new : Option V) : Bool :=
  !idx.unique || new.isNone || (idx.columnsOf pk new).any fun c =>
      decide (idx.columnsOf pk old = some c) || (st.kv (t.entryKey false idx pk c)).isNone

def moveIndexEntries (marker : Bool) (pk : PK) (old new : Option V) : List (Write PK V C) :=
  t.indexes.flatMap fun idx =>
    t.indexWrites marker idx pk (idx.columnsOf pk old) (idx.columnsOf pk new)

def addIndexEntries (marker : Bool) (pk : PK) (new : V) : List (Write PK V C) :=
  t.moveIndexEntries marker pk none (some new)

def updateIndexEntries (marker : Bool) (pk : PK) (old new : V) : List (Write PK V C) :=
  t.moveIndexEntries marker pk (some old) (some new)

def dropIndexEntries (marker : Bool) (pk : PK) (old : V) : List (Write PK V C) :=
  t.moveIndexEntries marker pk (some old) none

def putRow (marker : Bool) (ts : Timestamp) (st : Store PK V C) (pk : PK) (new : Option V)
    (entries : List (Write PK V C)) : Store PK V C where
  rows := st.rows.insert pk (⟨ts, new, marker⟩ :: st.history pk)
  kv := Batch.apply st.kv
    ((if marker then [(t.reshardShadowKey pk, new.map .row)] else []) ++ entries)

end Table

inductive Op (V : Type)
  | insert (value : V)
  | update (value : V)
  | delete
deriving DecidableEq

structure Statement (PK V : Type) where
  pk : PK
  op : Op V
deriving DecidableEq

namespace Table
variable (t : Table PK V C)

def evalStatement (marker : Bool) (ts : Timestamp) (st : Store PK V C) (stmt : Statement PK V) :
    Option (Store PK V C) :=
  let pk := stmt.pk
  match stmt.op, st.current pk with
  | .insert v, none =>
    if t.indexes.all (fun idx => t.indexAllows st idx pk none (some v)) then
      some (t.putRow marker ts st pk (some v) (t.addIndexEntries marker pk v))
    else none
  | .update v, some old =>
    if t.indexes.all (fun idx => t.indexAllows st idx pk (some old) (some v)) then
      some (t.putRow marker ts st pk (some v) (t.updateIndexEntries marker pk old v))
    else none
  | .delete, some old => some (t.putRow marker ts st pk none (t.dropIndexEntries marker pk old))
  | _, _ => none

def evalStatements (marker : Bool) (ts : Timestamp) :
    Store PK V C → List (Statement PK V) → Option (Store PK V C)
  | st, [] => some st
  | st, stmt :: rest =>
    (t.evalStatement marker ts st stmt).bind fun st => evalStatements marker ts st rest

/-- What a chunk writes for one row: its copy under the new bucket, and its index entries at
the shadow IDs. -/
def copyRow (st : Store PK V C) (pk : PK) : Store PK V C :=
  match st.current pk with
  | none => st
  | some v =>
    { st with
      kv := Batch.apply st.kv ((t.reshardShadowKey pk, some (.row v)) ::
        t.indexes.flatMap fun idx => (idx.columns pk v).toList.map fun c =>
          (t.entryKey true idx pk c, some (t.entryVal true idx pk))) }

end Table

abbrev TxnID := Nat

structure Txn (PK V : Type) where
  marker : Bool
  ts : Timestamp
  deadline : Option Timestamp
  statements : List (Statement PK V) := []

namespace Txn

def mayCommit (txn : Txn PK V) : Bool := txn.deadline.all fun d => decide (txn.ts ≤ d)

def touches (txn : Txn PK V) (pk : PK) : Bool := txn.statements.any fun stmt => stmt.pk == pk

end Txn

def above (floor ts : Timestamp) : Timestamp := if floor < ts then ts else floor.next

/-- The keys of the old layout behind `after`, up to `upto`. -/
structure Chunk (PK : Type) where
  after : Option (Nat ×ₗ PK)
  upto : Nat ×ₗ PK
  done : Bool

structure State (PK V C : Type) where
  store : Store PK V C
  served : PK → Timestamp
  txns : AList fun _ : TxnID => Txn PK V
  /-- The latest deadline of a transaction without the marker. -/
  lastDeadline : Timestamp
  boundary : Option Timestamp
  cursor : Option (Nat ×ₗ PK)
  chunks : List (Chunk PK)
  swept : Bool
  swapped : Option (Store PK V C)

namespace Table
variable (t : Table PK V C)

def beyond (cursor : Option (Nat ×ₗ PK)) (pk : PK) : Bool :=
  cursor.all fun k => decide (k < t.oldKey pk)

def inChunk (chunk : Chunk PK) (pk : PK) : Bool :=
  t.beyond chunk.after pk && decide (t.oldKey pk ≤ chunk.upto)

def visible (st : Store PK V C) (ts : Timestamp) (p : PK → Bool) : List PK :=
  (st.rows.entries.filter fun e => p e.1 && (History.valueAt e.2 ts).isSome).map fun e => e.1

/-- `ScanAt`: the first rows behind the cursor that were committed by the boundary. -/
def scanAt (st : Store PK V C) (cursor : Option (Nat ×ₗ PK)) (limit : Nat) (ts : Timestamp) :
    List PK :=
  ((visible st ts (t.beyond cursor)).insertionSort fun a b => t.oldKey a ≤ t.oldKey b).take limit

end Table

def reshardChunkSize : Nat := 512

namespace State
variable (t : Table PK V C)

/-- A transaction starts, under a lease that ends before the boundary unless it sees the
marker. -/
def start (s : State PK V C) (id : TxnID) (marker : Bool) (ts : Timestamp)
    (deadline : Option Timestamp) :
    Option (State PK V C) :=
  match s.txns.lookup id, marker, deadline with
  | some _, _, _ => none
  | none, true, _ => some { s with txns := s.txns.insert id ⟨true, ts, deadline, []⟩ }
  | none, false, none => none
  | none, false, some d =>
    if s.boundary.all (fun b => decide (d < b)) then
      some { s with
        txns := s.txns.insert id ⟨false, ts, some d, []⟩
        lastDeadline := max s.lastDeadline d }
    else none

def locked (s : State PK V C) (id : TxnID) (pk : PK) : Bool :=
  s.txns.entries.any fun e => e.1 != id && e.2.touches pk

/-- A statement lays its intents, above every read served before and every version. -/
def write (s : State PK V C) (id : TxnID) (stmt : Statement PK V) : Option (State PK V C) :=
  match s.txns.lookup id with
  | none => none
  | some txn =>
    if s.locked id stmt.pk then none
    else
      let ts := above (s.store.history stmt.pk).newest (above (s.served stmt.pk) txn.ts)
      some { s with
        txns := s.txns.insert id { txn with ts := ts, statements := txn.statements ++ [stmt] } }

def push (s : State PK V C) (id : TxnID) (ts : Timestamp) : Option (State PK V C) :=
  match s.txns.lookup id with
  | none => none
  | some txn =>
    if txn.ts ≤ ts then some { s with txns := s.txns.insert id { txn with ts := ts } } else none

def commit (s : State PK V C) (id : TxnID) : Option (State PK V C) :=
  match s.txns.lookup id with
  | none => none
  | some txn =>
    if txn.mayCommit then
      (t.evalStatements txn.marker txn.ts s.store txn.statements).map fun st =>
        { s with store := st, txns := s.txns.erase id }
    else none

def takeBoundary (s : State PK V C) (b : Timestamp) : Option (State PK V C) :=
  match s.boundary with
  | some _ => none
  | none => if s.lastDeadline < b then some { s with boundary := some b } else none

def serve (s : State PK V C) (p : PK → Bool) (ts : Timestamp) (pk : PK) : Timestamp :=
  if p pk then max (s.served pk) ts else s.served pk

def endSweep (s : State PK V C) (b : Timestamp) : State PK V C :=
  { s with served := s.serve (t.beyond s.cursor) b, swept := true }

/-- A scan with a limit reads up to the last row that it returns. -/
def planChunk (s : State PK V C) (b : Timestamp) (last : PK) : State PK V C :=
  { s with
    served := s.serve (t.inChunk ⟨s.cursor, t.oldKey last, false⟩) b
    cursor := some (t.oldKey last)
    chunks := s.chunks ++ [⟨s.cursor, t.oldKey last, false⟩] }

/-- One turn of the planning sweep of `backfillReshard`. -/
def plan (s : State PK V C) : Option (State PK V C) :=
  match s.boundary with
  | none => none
  | some b =>
    if s.swept then none
    else
      match (t.scanAt s.store s.cursor reshardChunkSize b).getLast? with
      | none => some (s.endSweep t b)
      | some last => some (s.planChunk t b last)

/-- A chunk that reads at `ts` waits for the intents it meets there, and for those on the
keys of the new layout that it writes. -/
def chunkBlocked (s : State PK V C) (chunk : Chunk PK) (ts : Timestamp) : Bool :=
  s.txns.entries.any fun e => e.2.statements.any fun stmt =>
    t.inChunk chunk stmt.pk &&
      (decide (e.2.ts ≤ ts) || (e.2.marker && (s.store.current stmt.pk).isSome))

def copyChunk (s : State PK V C) (i : Nat) (chunk : Chunk PK) (ts : Timestamp) : State PK V C :=
  { s with
    store := (Table.visible s.store ts (t.inChunk chunk)).foldl t.copyRow s.store
    served := s.serve (t.inChunk chunk) ts
    chunks := s.chunks.set i { chunk with done := true } }

def reshardChunk (s : State PK V C) (i : Nat) (ts : Timestamp) : Option (State PK V C) :=
  match s.boundary, s.chunks[i]? with
  | some b, some chunk =>
    if ¬ chunk.done ∧ b < ts ∧ s.chunkBlocked t chunk ts = false ∧
      (Table.visible s.store ts (t.inChunk chunk)).all
          (fun pk => decide ((s.store.history pk).newest ≤ ts)) = true then
      some (s.copyChunk t i chunk ts)
    else none
  | _, _ => none

def swap (s : State PK V C) : Option (State PK V C) :=
  if s.swept ∧ s.chunks.all Chunk.done = true ∧ s.swapped.isNone then some
    { s with swapped := some s.store }
  else none

end State

inductive Action (PK V : Type)
  | start (id : TxnID) (marker : Bool) (ts : Timestamp) (deadline : Option Timestamp)
  | write (id : TxnID) (stmt : Statement PK V)
  | push (id : TxnID) (ts : Timestamp)
  | commit (id : TxnID)
  | abort (id : TxnID)
  | takeBoundary (b : Timestamp)
  | plan
  | reshardChunk (i : Nat) (ts : Timestamp)
  | swap

def step (t : Table PK V C) (s : State PK V C) : Action PK V → Option (State PK V C)
  | .start id marker ts deadline => s.start id marker ts deadline
  | .write id stmt => s.write id stmt
  | .push id ts => s.push id ts
  | .commit id => s.commit t id
  | .abort id => some { s with txns := s.txns.erase id }
  | .takeBoundary b => s.takeBoundary b
  | .plan => s.plan t
  | .reshardChunk i ts => s.reshardChunk t i ts
  | .swap => s.swap

def State.empty : State PK V C where
  store := ⟨∅, fun _ => none⟩
  served := fun _ => ⊥
  txns := ∅
  lastDeadline := ⊥
  boundary := none
  cursor := none
  chunks := []
  swept := false
  swapped := none

/-- The new layout has exactly the rows of the old one, under their new buckets, and every
copy of an index exactly their entries. -/
structure Exact (t : Table PK V C) (st : Store PK V C) : Prop where
  rows : ∀ bucket pk, st.kv (.row t.newIndexID bucket pk) =
    if bucket = t.shardBucketAt true pk then (st.current pk).map .row else none
  entries : ∀ idx ∈ t.indexes, ∀ columns suffix val,
    st.kv (.entry idx.newID columns suffix) = some val ↔
      ∃ pk v c, st.current pk = some v ∧ idx.columns pk v = some c ∧
        .entry idx.newID columns suffix = t.entryKey true idx pk c ∧ val = t.entryVal true idx pk

def Resharded (t : Table PK V C) (s : State PK V C) : Prop := ∀ st, s.swapped = some st → Exact t st

end Datax.Reshard
