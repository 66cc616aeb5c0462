import Datax.Shared.Batch
import Mathlib.Data.List.AList

/-!
# Row writes and foreign keys

The statements as the executor runs them: reads see the store from before the statement, writes
collect in a batch that is applied at the end.

A value is of any type with decidable equality; a null is a missing value. Keys are tuples of
columns, whose encodings are told apart (`Sql/KeyWords`); the shard bucket, a function of the rest
of the key, is left out. The order in which a fetch meets the rows is given with the store.
-/

namespace Datax.Dml

abbrev TableID := Nat
abbrev ColumnID := Nat

variable {V : Type}

abbrev Row (V : Type) := ColumnID → Option V

abbrev Tuple (V : Type) := List (Option V)

abbrev RowKey (V : Type) := TableID × Tuple V

abbrev Fetched (V : Type) := Tuple V × Row V

inductive FKAction where
  | restrict | cascade | setNull
deriving DecidableEq, Repr

structure ForeignKey where
  id : Nat
  columns : List ColumnID
  refTable : TableID
  refColumns : List ColumnID
  onDelete : FKAction
  onUpdate : FKAction
deriving DecidableEq, Repr

structure Index where
  id : Nat
  unique : Bool
  columns : List ColumnID
deriving DecidableEq, Repr

structure ForeignKeyRef where
  tableID : TableID
  constraintID : Nat
deriving DecidableEq, Repr

structure Table (V : Type) where
  id : TableID
  primaryKey : List ColumnID
  notNull : List ColumnID
  indexes : List Index
  fks : List ForeignKey
  inboundFKs : List ForeignKeyRef
  checks : Row V → Bool

/-- What an entry of an index holds: the row's key, in a unique index. -/
inductive EntryVal (V : Type) where
  | pk (key : Tuple V)
  | present
deriving DecidableEq

structure EntryKey (V : Type) where
  table : TableID
  index : Nat
  columns : List V
  suffix : Option (Tuple V)
deriving DecidableEq

def Row.at (row : Row V) (ids : List ColumnID) : Tuple V := ids.map row

def Table.pkKey (t : Table V) (row : Row V) : Tuple V := Row.at row t.primaryKey

def Table.constraintByID (t : Table V) (id : Nat) : Option ForeignKey := t.fks.find? (·.id == id)

/-- The row's entry in an index; a row with a null in the indexed columns has none. -/
def Index.encodeEntry (t : Table V) (idx : Index) (row : Row V) :
    Option (EntryKey V × EntryVal V) :=
  (idx.columns.mapM row).map fun cols =>
    (⟨t.id, idx.id, cols, if idx.unique then none else some (t.pkKey row)⟩,
      if idx.unique then .pk (t.pkKey row) else .present)

/-- The tables, each with the foreign keys of others that refer to it. -/
structure Schema (V : Type) where
  tables : List (Table V)
  tableIDs : (tables.map Table.id).Nodup
  indexIDs : ∀ t ∈ tables, (t.indexes.map Index.id).Nodup
  fkIDs : ∀ t ∈ tables, (t.fks.map ForeignKey.id).Nodup
  arity : ∀ t ∈ tables, ∀ fk ∈ t.fks, fk.columns.length = fk.refColumns.length ∧ fk.columns.Nodup ∧
    fk.columns ≠ []
  inbound : ∀ t ∈ tables, ∀ fk ∈ t.fks, ∃ parent ∈ tables, parent.id = fk.refTable ∧
    ⟨t.id, fk.id⟩ ∈ parent.inboundFKs
  inboundOnly : ∀ parent ∈ tables, ∀ ref ∈ parent.inboundFKs, ∀ t ∈ tables, t.id = ref.tableID →
    ∀ fk ∈ t.fks, fk.id = ref.constraintID → fk.refTable = parent.id
  inboundTables : ∀ parent ∈ tables, ∀ ref ∈ parent.inboundFKs, ∃ t ∈ tables, t.id = ref.tableID

def Schema.table (schema : Schema V) (id : TableID) : Option (Table V) :=
  schema.tables.find? (·.id == id)

structure WriteBatch (V : Type) where
  rows : List (RowKey V × Option (Row V)) := []
  entries : List (EntryKey V × Option (EntryVal V)) := []

namespace WriteBatch

def append (a b : WriteBatch V) : WriteBatch V := ⟨a.rows ++ b.rows, a.entries ++ b.entries⟩

instance : Append (WriteBatch V) := ⟨append⟩

@[simp] theorem rows_append (a b : WriteBatch V) : (a ++ b).rows = a.rows ++ b.rows := rfl

@[simp] theorem entries_append (a b : WriteBatch V) :
    (a ++ b).entries = a.entries ++ b.entries := rfl

end WriteBatch

variable [DecidableEq V]

structure DB (V : Type) [DecidableEq V] where
  rows : AList fun _ : RowKey V => Row V
  entries : EntryKey V → Option (EntryVal V)

namespace DB

def empty : DB V := ⟨∅, fun _ => none⟩

def row (db : DB V) (k : RowKey V) : Option (Row V) := db.rows.lookup k

def scan (db : DB V) (table : TableID) : List (Fetched V) :=
  db.rows.entries.filterMap fun e => if e.1.1 = table then some (e.1.2, e.2) else none

def writeRow (rows : AList fun _ : RowKey V => Row V) (w : RowKey V × Option (Row V)) :
    AList fun _ : RowKey V => Row V :=
  match w.2 with
  | some row => rows.insert w.1 row
  | none => rows.erase w.1

def runBatch (db : DB V) (wb : WriteBatch V) : DB V where
  rows := wb.rows.foldl writeRow db.rows
  entries := Batch.apply db.entries wb.entries

end DB

structure Env (V : Type) [DecidableEq V] where
  schema : Schema V
  db : DB V
  fkCascadeLimit : Nat
  /-- The order a fetch by these columns meets the rows in. -/
  arrange : TableID → List ColumnID → List (Fetched V) → List (Fetched V)
  arranged : ∀ table cols rows, (arrange table cols rows).Perm rows

omit [DecidableEq V] in
theorem arranged_stored (_ : TableID) (_ : List ColumnID) (rows : List (Fetched V)) :
    rows.Perm rows := List.Perm.refl rows

inductive Refusal where
  | internal
  | notNull (table : TableID) (column : ColumnID)
  | nullInUnique (table : TableID) (index : Nat)
  | duplicateKey (table : TableID)
  | duplicateEntry (table : TableID) (index : Nat)
  | check (table : TableID)
  | notPresent (table : TableID) (fk : Nat)
  | stillReferenced (table : TableID) (fk : Nat)
  | cascadeLimit (table : TableID) (fk : Nat)
  | secondTime (table : TableID)
  | primaryKeyColumn (table : TableID) (column : ColumnID)
  | expression
deriving DecidableEq, Repr

/-! ### Index entries -/

abbrev EntryWrite (V : Type) := EntryKey V × Option (EntryVal V)

section Entries
variable (env : Env V) (t : Table V)

def claimEntry (idx : Index) (key : EntryKey V) (seen : List (EntryKey V)) :
    Except Refusal (List (EntryKey V)) :=
  if !idx.unique then .ok seen
  else if seen.contains key || (env.db.entries key).isSome then .error (.duplicateEntry t.id idx.id)
  else .ok (key :: seen)

def addIndexEntry (row : Row V) (seen : List (EntryKey V)) (idx : Index) :
    Except Refusal (List (EntryKey V)) :=
  match idx.encodeEntry t row with
  | none => if idx.unique then .error (.nullInUnique t.id idx.id) else .ok seen
  | some e => claimEntry env t idx e.1 seen

def addIndexEntries (row : Row V) (seen : List (EntryKey V)) : Except Refusal (List (EntryKey V)) :=
  t.indexes.foldlM (addIndexEntry env t row) seen

def keepsEntry (idx : Index) (old new : Row V) : Bool :=
  match idx.encodeEntry t old, idx.encodeEntry t new with
  | some o, some n => o.1 == n.1
  | _, _ => false

def updateIndexEntry (old new : Row V) (seen : List (EntryKey V)) (idx : Index) :
    Except Refusal (List (EntryKey V)) :=
  if keepsEntry t idx old new then .ok seen else addIndexEntry env t new seen idx

def updateIndexEntries (old new : Row V) (seen : List (EntryKey V)) :
    Except Refusal (List (EntryKey V)) :=
  t.indexes.foldlM (updateIndexEntry env t old new) seen

def addedEntries (row : Row V) : List (EntryWrite V) :=
  t.indexes.flatMap fun idx => (idx.encodeEntry t row).toList.map fun e => (e.1, some e.2)

def droppedEntries (row : Row V) : List (EntryWrite V) :=
  t.indexes.flatMap fun idx => (idx.encodeEntry t row).toList.map fun e => (e.1, none)

def movedEntries (old new : Row V) : List (EntryWrite V) :=
  t.indexes.flatMap fun idx =>
    if keepsEntry t idx old new then []
    else (idx.encodeEntry t old).toList.map (fun e => (e.1, none)) ++
      (idx.encodeEntry t new).toList.map fun e => (e.1, some e.2)

end Entries

/-! ### Batches of one row -/

section RowBatches
variable (t : Table V)

def putRow (row : Row V) : WriteBatch V := ⟨[((t.id, t.pkKey row), some row)], addedEntries t row⟩

def deleteRow (fr : Fetched V) : WriteBatch V := ⟨[((t.id, fr.1), none)], droppedEntries t fr.2⟩

def rewriteInPlace (fr : Fetched V) (new : Row V) : WriteBatch V :=
  ⟨[((t.id, fr.1), some new)], movedEntries t fr.2 new⟩

end RowBatches

/-! ### Foreign keys of a row -/

section ForeignKeys
variable (env : Env V)

def matching (t : Table V) (cols : List ColumnID) (vals : Tuple V) : List (Fetched V) :=
  env.arrange t.id cols ((env.db.scan t.id).filter fun fr => decide (Row.at fr.2 cols = vals))

def hasNull (vals : Tuple V) : Bool := vals.any Option.isNone

def fkChanged (fk : ForeignKey) (old : Option (Row V)) (row : Row V) : Bool :=
  match old with
  | none => true
  | some old => decide (Row.at old fk.columns ≠ Row.at row fk.columns)

/-- The rows of the table that a statement has inserted already answer for a key that refers
to the table's own primary key. -/
def insertedHolds (t parent : Table V) (fk : ForeignKey) (inserted : List (Tuple V))
    (vals : Tuple V) : Bool :=
  decide (parent.id = t.id) && decide (fk.refColumns = parent.primaryKey) && inserted.contains vals

def checkForeignKey (t : Table V) (old : Option (Row V)) (row : Row V) (inserted : List (Tuple V))
    (fk : ForeignKey) :
    Except Refusal Unit :=
  let vals := Row.at row fk.columns
  if hasNull vals || !fkChanged fk old row then .ok ()
  else
    match env.schema.table fk.refTable with
    | none => .error .internal
    | some parent =>
      if insertedHolds t parent fk inserted vals then .ok ()
      else if (matching env parent fk.refColumns vals).isEmpty then .error (.notPresent t.id fk.id)
      else .ok ()

def checkForeignKeys (t : Table V) (old : Option (Row V)) (row : Row V) (inserted : List (Tuple V))
    (exempt : Option Nat) : Except Refusal Unit :=
  (t.fks.filter fun fk => decide (some fk.id ≠ exempt)).forM
    (checkForeignKey env t old row inserted)

def checkChecks (t : Table V) (row : Row V) : Except Refusal Unit :=
  if t.checks row then .ok () else .error (.check t.id)

end ForeignKeys

/-! ### Rows that refer to a changed row -/

inductive InflightRow (V : Type) where
  | deleted
  | rewritten (row : Row V)

/-- One statement's cascades: what is left of the row allowance, the rows already deleted or
rewritten, and the batch. -/
structure Cascade (V : Type) where
  budget : Nat
  rows : List (RowKey V × InflightRow V) := []
  wb : WriteBatch V := {}

namespace Cascade

def inflight (st : Cascade V) (k : RowKey V) : Option (InflightRow V) := st.rows.lookup k

def current (st : Cascade V) (table : TableID) (fr : Fetched V) : Option (Fetched V) :=
  match st.inflight (table, fr.1) with
  | some .deleted => none
  | some (.rewritten row) => some (fr.1, row)
  | none => some fr

def mark (st : Cascade V) (k : RowKey V) (f : InflightRow V) : Cascade V :=
  { st with rows := (k, f) :: st.rows }

def buffer (st : Cascade V) (wb : WriteBatch V) : Cascade V := { st with wb := st.wb ++ wb }

end Cascade

/-- The referencing columns, given the new values of the referenced ones (nulls when there are
none). -/
def assign (fk : ForeignKey) (row : Row V) (vals : Tuple V) : Row V := fun id =>
  match (fk.columns.zip vals).lookup id with
  | some v => v
  | none => row id

/-- What becomes of a referencing row: nothing is left of it, or its columns follow. -/
def referencing (fk : ForeignKey) (action : FKAction) (new : Option (Row V)) (row : Row V) :
    Option (Row V) :=
  match action, new with
  | .cascade, none => none
  | .cascade, some new => some (assign fk row (Row.at new fk.refColumns))
  | _, _ => some (assign fk row (fk.columns.map fun _ => none))

section Enforce
variable (env : Env V)

def keyChanged (fk : ForeignKey) (old : Row V) (new : Option (Row V)) : Bool :=
  match new with
  | none => true
  | some new => decide (Row.at old fk.refColumns ≠ Row.at new fk.refColumns)

def fkAction (fk : ForeignKey) (new : Option (Row V)) : FKAction :=
  if new.isNone then fk.onDelete else fk.onUpdate

def rewriteRow (child : Table V) (fr : Fetched V) (updated : Row V) :
    Except Refusal (Tuple V × WriteBatch V) :=
  let newKey := child.pkKey updated
  if newKey = fr.1 then do
    let _ ← updateIndexEntries env child fr.2 updated []
    return (newKey, rewriteInPlace child fr updated)
  else if (env.db.row (child.id, newKey)).isSome then .error (.duplicateKey child.id)
  else do
    let _ ← addIndexEntries env child updated []
    return (newKey, deleteRow child fr ++ putRow child updated)

abbrev Enforcer (V : Type) :=
  Table V → Row V → Option (Row V) → Cascade V → Except Refusal (Cascade V)

def setNullAllowed (child : Table V) (fk : ForeignKey) (action : FKAction) : Except Refusal Unit :=
  match action, fk.columns.find? (child.notNull.contains ·) with
  | .setNull, some id => .error (.notNull child.id id)
  | _, _ => .ok ()

def enforceRow (again : Enforcer V) (child : Table V) (fk : ForeignKey) (action : FKAction)
    (new : Option (Row V)) (st : Cascade V) (fr : Fetched V) : Except Refusal (Cascade V) :=
  match referencing fk action new fr.2 with
  | none => do
    let st ← again child fr.2 none st
    return (st.buffer (deleteRow child fr)).mark (child.id, fr.1) .deleted
  | some updated => do
    setNullAllowed child fk action
    checkChecks child updated
    checkForeignKeys env child (some fr.2) updated [] (some fk.id)
    let st ← again child fr.2 (some updated) st
    let (newKey, wb) ← rewriteRow env child fr updated
    let st := st.buffer wb
    let st := if newKey = fr.1 then st else st.mark (child.id, fr.1) .deleted
    return st.mark (child.id, newKey) (.rewritten updated)

/-- One row answers a refusal; else one row more than the allowance is asked for. -/
def fetchLimit (st : Cascade V) (action : FKAction) : Nat :=
  if action = .restrict then 1 else st.budget + 1

def liveRows (st : Cascade V) (child : Table V) (fk : ForeignKey) (vals : Tuple V)
    (action : FKAction) :
    List (Fetched V) :=
  ((matching env child fk.columns vals).take (fetchLimit st action)).filterMap (st.current child.id)

def enforceRef (again : Enforcer V) (old : Row V) (new : Option (Row V)) (st : Cascade V)
    (ref : ForeignKeyRef) :
    Except Refusal (Cascade V) :=
  match env.schema.table ref.tableID with
  | none => .error .internal
  | some child =>
    match child.constraintByID ref.constraintID with
    | none => .ok st
    | some fk =>
      let vals := Row.at old fk.refColumns
      if hasNull vals || !keyChanged fk old new then .ok st
      else
        let action := fkAction fk new
        let live := liveRows env st child fk vals action
        if live.isEmpty then .ok st
        else if action = .restrict then .error (.stillReferenced child.id fk.id)
        else if st.budget < live.length then .error (.cascadeLimit child.id fk.id)
        else live.foldlM (enforceRow env again child fk action new)
          { st with budget := st.budget - live.length }

def enforceWith (again : Enforcer V) : Enforcer V := fun t old new st =>
  t.inboundFKs.foldlM (enforceRef env again old new) st

def enforceFuel : Nat → Enforcer V
  | 0 => fun _ _ _ _ => .error .internal
  | n + 1 => enforceWith env (enforceFuel n)

/-- Every level of the recursion takes from the allowance, so it is deep enough. -/
def enforceReferencing : Enforcer V :=
  fun t old new st => enforceFuel env (st.budget + 1) t old new st

end Enforce

/-! ### Statements -/

abbrev SetClause (V : Type) := ColumnID × (Row V → Option (Option V))

inductive Arbiter where
  | pk
  | index (id : Nat)
  | any
deriving DecidableEq, Repr

/-- `SET` and `WHERE` of DO UPDATE see the stored row and the proposed one. -/
inductive ConflictAction (V : Type) where
  | doNothing
  | doUpdate (filter : Row V → Row V → Option Bool)
    (sets : List (ColumnID × (Row V → Row V → Option (Option V))))

inductive Statement (V : Type) where
  | insert (table : TableID) (rows : List (Row V))
  | insertOnConflict (table : TableID) (rows : List (Row V)) (arbiter : Arbiter)
    (action : ConflictAction V)
  | update (table : TableID) (filter : Row V → Bool) (sets : List (SetClause V))
  | delete (table : TableID) (filter : Row V → Bool)

section Statements
variable (env : Env V)

def checkNotNull (t : Table V) (row : Row V) : Except Refusal Unit :=
  match t.notNull.find? fun id => (row id).isNone with
  | some id => .error (.notNull t.id id)
  | none => .ok ()

def setColumn (t : Table V) (seen row : Row V) (set : SetClause V) : Except Refusal (Row V) :=
  match set.2 seen with
  | none => .error .expression
  | some v =>
    if v.isNone && t.notNull.contains set.1 then .error (.notNull t.id set.1)
    else .ok (Function.update row set.1 v)

def refusePrimaryKey (t : Table V) (columns : List ColumnID) : Except Refusal Unit :=
  match columns.find? (t.primaryKey.contains ·) with
  | some id => .error (.primaryKeyColumn t.id id)
  | none => .ok ()

structure Progress (V : Type) where
  cascade : Cascade V
  inserted : List (Tuple V) := []
  seen : List (EntryKey V) := []

def Progress.buffer (p : Progress V) (wb : WriteBatch V) : Progress V :=
  { p with cascade := p.cascade.buffer wb }

def insertRow (t : Table V) (p : Progress V) (row : Row V) : Except Refusal (Progress V) := do
  checkNotNull t row
  if p.inserted.contains (t.pkKey row) || (env.db.row (t.id, t.pkKey row)).isSome then
    throw (.duplicateKey t.id)
  let seen ← addIndexEntries env t row p.seen
  let p := { p.buffer (putRow t row) with seen := seen, inserted := t.pkKey row :: p.inserted }
  checkChecks t row
  checkForeignKeys env t none row p.inserted none
  return p

def updateRow (t : Table V) (p : Progress V) (fr : Fetched V) (new : Row V) :
    Except Refusal (Progress V) := do
  checkChecks t new
  checkForeignKeys env t (some fr.2) new [] none
  let st ← enforceReferencing env t fr.2 (some new) p.cascade
  let seen ← updateIndexEntries env t fr.2 new p.seen
  return { p with cascade := st.buffer (rewriteInPlace t fr new), seen := seen }

def deleteOwnRow (t : Table V) (p : Progress V) (fr : Fetched V) : Except Refusal (Progress V) := do
  let st ← enforceReferencing env t fr.2 none p.cascade
  return { p with cascade := st.buffer (deleteRow t fr) }

/-- The stored row that a proposed one collides with: by primary key, then by each unique index. -/
def conflicting (t : Table V) (row : Row V) : Option (Arbiter × Fetched V) :=
  match env.db.row (t.id, t.pkKey row) with
  | some old => some (.pk, t.pkKey row, old)
  | none => t.indexes.findSome? fun idx =>
    if !idx.unique then none
    else
      match (idx.encodeEntry t row).bind fun e => env.db.entries e.1 with
      | some (.pk key) => (env.db.row (t.id, key)).map fun old => (.index idx.id, key, old)
      | _ => none

def conflictUpdate (t : Table V) (filter : Row V → Row V → Option Bool)
    (sets : List (ColumnID × (Row V → Row V → Option (Option V)))) (old row : Row V) :
    Except Refusal (Option (Row V)) :=
  match filter old row with
  | none => .error .expression
  | some false => .ok none
  | some true => do
    let new ← sets.foldlM (fun new set => setColumn t old new (set.1, fun old => set.2 old row)) old
    return some new

def insertOnConflict (t : Table V) (arbiter : Arbiter) (action : ConflictAction V) (p : Progress V)
    (row : Row V) :
    Except Refusal (Progress V) := do
  checkNotNull t row
  if p.inserted.contains (t.pkKey row) then
    match action with
    | .doNothing => return p
    | .doUpdate _ _ => throw (.secondTime t.id)
  else
    match conflicting env t row with
    | none => insertRow env t p row
    | some (hit, fr) =>
      if arbiter ≠ .any ∧ arbiter ≠ hit then
        match hit with
        | .index id => throw (.duplicateEntry t.id id)
        | _ => throw (.duplicateKey t.id)
      else
        match action with
        | .doNothing => return p
        | .doUpdate filter sets =>
          match ← conflictUpdate t filter sets fr.2 row with
          | none => return p
          | some new =>
            let p ← updateRow env t p fr new
            return { p with inserted := fr.1 :: p.inserted }

def ConflictAction.columns : ConflictAction V → List ColumnID
  | .doNothing => []
  | .doUpdate _ sets => sets.map Prod.fst

def selected (t : Table V) (filter : Row V → Bool) : List (Fetched V) :=
  (env.arrange t.id [] (env.db.scan t.id)).filter fun fr => filter fr.2

/-- Every row's new values are computed before the first is written; an assignment sees the
ones before it. -/
def updatedRows (t : Table V) (sets : List (SetClause V)) (rows : List (Fetched V)) :
    Except Refusal (List (Fetched V × Row V)) :=
  rows.mapM fun fr => do return (fr, ← sets.foldlM (fun row set => setColumn t row row set) fr.2)

def start : Progress V := { cascade := { budget := env.fkCascadeLimit } }

def progress : Statement V → Except Refusal (Progress V)
  | .insert table rows =>
    match env.schema.table table with
    | none => .error .internal
    | some t => rows.foldlM (insertRow env t) (start env)
  | .insertOnConflict table rows arbiter action =>
    match env.schema.table table with
    | none => .error .internal
    | some t => do
      refusePrimaryKey t action.columns
      rows.foldlM (insertOnConflict env t arbiter action) (start env)
  | .update table filter sets =>
    match env.schema.table table with
    | none => .error .internal
    | some t => do
      refusePrimaryKey t (sets.map Prod.fst)
      let rows ← updatedRows t sets (selected env t filter)
      rows.foldlM (fun p r => updateRow env t p r.1 r.2) (start env)
  | .delete table filter =>
    match env.schema.table table with
    | none => .error .internal
    | some t => (selected env t filter).foldlM (deleteOwnRow env t) (start env)

def execute (stmt : Statement V) : Except Refusal (DB V) :=
  (progress env stmt).map fun p => env.db.runBatch p.cascade.wb

end Statements

end Datax.Dml
