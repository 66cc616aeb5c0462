import Datax.Sql.KeyWords

/-!
# Executing an access plan

A planned read is a point read, a scan of primary keys or index entries, or one scan for each
shard bucket, concatenated or merged by key. `filter` stands for WHERE and may fail; a limit of
zero is none; `none` is a failed read. The store holds rows and entries in key order. A row whose
key is not read back fails the read. Memory accounting, generated tables and the stamping of a
value's display are left out.
-/

namespace Datax

open PrefixCode Encoding

structure ColBound where
  val : Datum
  inclusive : Bool := false

inductive PlanKind where
  | fullScan | pkPoint | uniquePoint | indexScan | pkScan
deriving DecidableEq, Repr

structure AccessPlan where
  kind : PlanKind
  idx : Option IndexDescriptor := none
  pkVals : List Datum := []
  idxVals : List Datum := []
  lo : Option ColBound := none
  hi : Option ColBound := none
  -- Some conjunct of the WHERE clause is not guaranteed by the key bounds.
  residual : Bool := false
  fanBuckets : Nat := 0
  reverse : Bool := false
  mergeFan : Bool := false

abbrev FetchedRow := Key × Row

section Store
variable (convert : Datum → Family → Option Datum)

/-- The stored rows of a table and the entries of its indexes, each in key order. -/
structure TableStore (desc : TableDescriptor) where
  rows : List FetchedRow
  entries : UInt64 → List (Key × Key)
  rowsSorted : rows.Pairwise fun a b => a.1 < b.1
  entriesSorted : ∀ id, (entries id).Pairwise fun a b => a.1 < b.1
  conforms : ∀ fr ∈ rows, fr.2.Conforms desc
  keyed : ∀ fr ∈ rows, pkKey convert desc fr.2 = some fr.1
  indexed : ∀ idx ∈ desc.indexes, ∀ e, e ∈ entries idx.id ↔
    ∃ fr ∈ rows, encodeIndexEntry convert desc idx fr.2 = some (.entry e.1 e.2)

end Store

def spanScan {α : Type} (kvs : List (Key × α)) (start stop : Key) (limit : Nat) (reverse : Bool) :
    List (Key × α) :=
  let hits := kvs.filter fun kv => decide (start ≤ kv.1) && decide (kv.1 < stop)
  let ordered := if reverse then hits.reverse else hits
  if limit = 0 then ordered else ordered.take limit

def remaining (limit : Nat) : Option Nat := if limit = 0 then none else some limit

section Collect
variable (desc : TableDescriptor)

/-- A stored row as it is read: its primary-key columns hold what the key is read as. -/
def decodeFullRow (key : Key) (row : Row) : Option Row := do
  let pkVals ← decodePK desc key
  return (desc.primaryKey.zip pkVals).foldl (fun row p => Function.update row p.1 p.2) row

variable (get : Key → Option Row) (filter : Row → Option Bool)

def collect : Option Nat → List FetchedRow → Option (List FetchedRow)
  | _, [] => some []
  | left, fr :: frs => do
    let row ← decodeFullRow desc fr.1 fr.2
    if ← filter row then
      if left = some 1 then return [(fr.1, row)]
      else return (fr.1, row) :: (← collect (left.map (· - 1)) frs)
    else collect left frs

/-- `collect` over rows fetched by their primary keys; a key without a row is a failure. -/
def collectPrimary : Option Nat → List Key → Option (List FetchedRow)
  | _, [] => some []
  | left, pk :: pks => do
    let row ← decodeFullRow desc pk (← get pk)
    if ← filter row then
      if left = some 1 then return [(pk, row)]
      else return (pk, row) :: (← collectPrimary (left.map (· - 1)) pks)
    else collectPrimary left pks

end Collect

/-- The run to take the next row from: the first whose head comes before every other head. -/
def bestRun (before : Key → Key → Bool) :
    List (List FetchedRow) → Option (FetchedRow × List (List FetchedRow))
  | [] => none
  | [] :: runs => (bestRun before runs).map fun p => (p.1, [] :: p.2)
  | (fr :: frs) :: runs =>
    match bestRun before runs with
    | some (best, runs') =>
      if before best.1 fr.1 then some (best, (fr :: frs) :: runs') else some (fr, frs :: runs)
    | none => some (fr, frs :: runs)

def mergeRuns (before : Key → Key → Bool) : Nat → List (List FetchedRow) → List FetchedRow
  | 0, _ => []
  | fuel + 1, runs =>
    match bestRun before runs with
    | none => []
    | some (best, runs') => best :: mergeRuns before fuel runs'

/-- The key bytes beyond the common prefix decide; the last one in a reverse scan. -/
def suffixBefore (suffixAt : Nat) (reverse : Bool) (a b : Key) : Bool :=
  if reverse then decide (b.drop suffixAt < a.drop suffixAt)
  else decide (a.drop suffixAt < b.drop suffixAt)

def mergeFannedRows (runs : List (List FetchedRow)) (suffixAt : Nat) (reverse : Bool)
    (limit : Nat) :
    List FetchedRow :=
  let merged := mergeRuns (suffixBefore suffixAt reverse) (runs.map List.length).sum runs
  if limit = 0 then merged else merged.take limit

section Execute
variable (convert : Datum → Family → Option Datum) {desc : TableDescriptor}
  (store : TableStore convert desc) (filter : Row → Option Bool)

namespace AccessPlan

def natural (p : AccessPlan) (desc : TableDescriptor) : List ColumnID :=
  match p.kind with
  | .fullScan | .pkPoint => desc.primaryKey
  | .pkScan => if 0 < p.fanBuckets then desc.primaryKey.tail else desc.primaryKey
  | .uniquePoint => []
  | .indexScan =>
    match p.idx with
    | none => []
    | some idx => if idx.unique then idx.columnIDs else idx.columnIDs ++ desc.primaryKey

structure For (p : AccessPlan) (desc : TableDescriptor) : Prop where
  index : ∀ idx, p.idx = some idx → idx ∈ desc.indexes
  fanned : 0 < p.fanBuckets → p.kind = .pkScan ∧ 0 < desc.shardBuckets
  pinned : p.kind = .fullScan ∨ p.kind = .pkPoint → p.idxVals = []

def boundKey (start : Key) (fam : Family) (b : ColBound) (pastIt : Bool) : Option Key :=
  (appendDatum convert start fam b.val).map fun k => if pastIt then k.prefixEnd else k

def startKey (p : AccessPlan) (start : Key) (fam : Option Family) : Option Key :=
  match p.lo with
  | none => some start
  | some b => fam.bind fun f => boundKey convert start f b (!b.inclusive)

def stopKey (p : AccessPlan) (start : Key) (fam : Option Family) : Option Key :=
  match p.hi with
  | none => some start.prefixEnd
  | some b => fam.bind fun f => boundKey convert start f b b.inclusive

/-- The span of a constrained scan below an encoded prefix. -/
def spanBounds (p : AccessPlan) (start : Key) (fam : Option Family) : Option (Key × Key) := do
  return (← p.startKey convert start fam, ← p.stopKey convert start fam)

def boundFamily (p : AccessPlan) (desc : TableDescriptor) (cols : List ColumnID) : Option Family :=
  (cols[p.idxVals.length]?).bind fun id => (desc.colByID id).map (·.fam)

def pkColumns (p : AccessPlan) (desc : TableDescriptor) : List ColumnID :=
  if 0 < p.fanBuckets then desc.primaryKey.tail else desc.primaryKey

/-- The pinned values appended to a key; there may be no more of them than columns. -/
def appendPinned (desc : TableDescriptor) : Key → List ColumnID → List Datum → Option Key
  | k, _, [] => some k
  | _, [], _ :: _ => none
  | k, id :: ids, d :: ds => do
    let col ← desc.colByID id
    appendPinned desc (← appendDatum convert k col.fam d) ids ds

def pkScanSpan (p : AccessPlan) (desc : TableDescriptor) (start : Key) : Option (Key × Key) := do
  let pinned ← appendPinned convert desc start (p.pkColumns desc) p.idxVals
  p.spanBounds convert pinned (p.boundFamily desc (p.pkColumns desc))

def bucketPrefix (desc : TableDescriptor) (b : Nat) : Key :=
  primaryKeyPrefixFor desc ++ encodeInt64 (Int64.ofNat b)

def pkScanSpans (p : AccessPlan) (desc : TableDescriptor) : Option (List (Key × Key)) :=
  if p.fanBuckets = 0 then (p.pkScanSpan convert desc (primaryKeyPrefixFor desc)).map fun sp => [sp]
  else (List.range p.fanBuckets).mapM fun b => p.pkScanSpan convert desc (bucketPrefix desc b)

end AccessPlan

def TableStore.get (pk : Key) : Option Row := (store.rows.find? (·.1 == pk)).map Prod.snd

def fetchByPrimaryKey (pk : Key) : Option (List FetchedRow) :=
  match store.get convert pk with
  | none => some []
  | some raw => do
    let row ← decodeFullRow desc pk raw
    return if ← filter row then [(pk, row)] else []

def scanPrimarySpan (plan : AccessPlan) (span : Key × Key) (limit : Nat) :
    Option (List FetchedRow) :=
  collect desc filter (remaining limit)
    (spanScan store.rows span.1 span.2 (if plan.residual then 0 else limit) plan.reverse)

def executePlan (plan : AccessPlan) (limit : Nat) : Option (List FetchedRow) :=
  match plan.kind with
  | .pkPoint => do fetchByPrimaryKey convert store filter (← encodePK convert desc plan.pkVals)
  | .uniquePoint => do
    let idx ← plan.idx
    let key ← encodeIndexPrefix convert desc idx plan.idxVals
    match (store.entries idx.id).find? (·.1 == key) with
    | none => return []
    | some (_, pkEnc) =>
      let pk := primaryKeyPrefixFor desc ++ pkEnc
      if (store.get convert pk).isNone then none else fetchByPrimaryKey convert store filter pk
  | .indexScan => do
    let idx ← plan.idx
    let start ← encodeIndexPrefix convert desc idx plan.idxVals
    let span ← plan.spanBounds convert start (plan.boundFamily desc idx.columnIDs)
    let hits := spanScan (store.entries idx.id) span.1 span.2 (if plan.residual then 0 else limit)
      plan.reverse
    let pks ← hits.mapM fun e => indexEntryPrimaryKey desc idx e.1 e.2
    collectPrimary desc (store.get convert) filter (remaining limit) pks
  | .pkScan => do
    let spans ← plan.pkScanSpans convert desc
    let runs ← spans.mapM fun span => scanPrimarySpan convert store filter plan span limit
    if plan.fanBuckets = 0 then return runs.flatten
    else if plan.mergeFan then
      return mergeFannedRows runs ((primaryKeyPrefixFor desc).length + 8) plan.reverse limit
    else return if limit = 0 then runs.flatten else runs.flatten.take limit
  | .fullScan =>
    scanPrimarySpan convert store filter plan
      (primaryKeyPrefixFor desc, (primaryKeyPrefixFor desc).prefixEnd) limit

end Execute

end Datax
