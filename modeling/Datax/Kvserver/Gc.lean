import Datax.Storage.MvccScan

/-!
# Garbage collection of versions

The leader enumerates the garbage of its range from one snapshot, cuts it into commands of at
most `gcChunkSize` items, versions before record keys, and proposes them one after another; a
pass may stop after any. `expire` and `rowExpired` are the retention modes, of which the
ordinary pass has neither.
-/

namespace Datax

structure GCVersion where
  key : Key
  ts : Timestamp
  bytes : Nat
deriving DecidableEq

abbrev TransactionKey := Key × UUID

structure GCRequest where
  threshold : Timestamp
  versions : List GCVersion
  txnRecordKeys : List TransactionKey
deriving DecidableEq

def gcChunkSize : Nat := 1000

def encodedBytesLen (data : Bytes) : Nat := data.length + 2 + data.count 0

def versionSuffixLen : Nat := 12

def storedBytes (key : Key) (value : Option Bytes) : Nat :=
  encodedBytesLen key + versionSuffixLen + (1 + (value.getD []).length)

structure GarbageRules where
  threshold : Timestamp
  expire : Bool
  rowExpired : Option (Key → Timestamp → Bool)

def GarbageRules.rowAgedOut (rules : GarbageRules) (key : Key) (ts : Timestamp) : Bool :=
  match rules.rowExpired with
  | some pred => pred key ts
  | none => false

/-- The versions of one key, newest first: the newest at or below the threshold
survives unless it is a tombstone, everything older goes. -/
def garbageOfKey (rules : GarbageRules) (cur : Key) :
    Bool → List (Timestamp × Option Bytes) → List GCVersion
  | _, [] => []
  | survivorSeen, (cvts, value) :: rest =>
    let item : GCVersion := ⟨cur, cvts, storedBytes cur value⟩
    if rules.rowAgedOut cur cvts then item :: garbageOfKey rules cur survivorSeen rest
    else if cvts.lessEq rules.threshold then
      if survivorSeen || rules.expire then item :: garbageOfKey rules cur survivorSeen rest
      else if value.isNone then item :: garbageOfKey rules cur true rest
      else garbageOfKey rules cur true rest
    else garbageOfKey rules cur survivorSeen rest

structure Garbage where
  versions : List GCVersion
  rowExpiredCount : Nat
  liveIntentTxns : List UUID

def enumerateGarbageVersions (e : Engine) (startKey endKey : Key) (rules : GarbageRules) :
    Garbage :=
  let span := e.entries.filter fun p => startKey ≤ p.1 ∧ p.1 < endKey
  let settled := span.filter fun p => p.2.intent.isNone
  { versions := settled.flatMap fun p => garbageOfKey rules p.1 false p.2.versions.entries
    rowExpiredCount :=
      (settled.map fun p => p.2.versions.entries.countP fun v => rules.rowAgedOut p.1 v.1).sum
    liveIntentTxns := span.filterMap fun p => p.2.intent.map fun intent => intent.txn.id }

/-- The commands of one pass; the fuel is the number of items left. -/
def gcChunks (threshold : Timestamp) : Nat → List GCVersion → List TransactionKey → List GCRequest
  | 0, _, _ => []
  | fuel + 1, versions, records =>
    if versions = [] ∧ records = [] then []
    else
      let chunkV := versions.take gcChunkSize
      let chunkR := records.take (gcChunkSize - chunkV.length)
      ⟨threshold, chunkV, chunkR⟩ :: gcChunks threshold fuel (versions.drop gcChunkSize)
        (records.drop chunkR.length)

/-- What `runGC` proposes. `records` are the reclaimable record keys whose
intents could be resolved first. -/
def runGC (e : Engine) (gcThreshold : Timestamp) (startKey endKey : Key) (rules : GarbageRules)
    (records : List TransactionKey) : List GCRequest :=
  if rules.threshold.lessEq gcThreshold then []
  else
    let versions := (enumerateGarbageVersions e startKey endKey rules).versions
    gcChunks rules.threshold (versions.length + records.length) versions records

def evalGC (e : Engine) (req : GCRequest) : Engine :=
  req.versions.foldl (fun e v => e.deleteVersion v.key v.ts) e

def Engine.withoutVersions (e : Engine) (vs : List GCVersion) : Engine :=
  e.mapHistories fun k h =>
    { h with versions := h.versions.keep fun t => vs.all fun v => v.key ≠ k ∨ v.ts ≠ t }

section
variable (e : Engine)
include e

theorem Engine.withoutVersions_nil : e.withoutVersions [] = e := by
  ext1
  apply List.map_id''
  intro p
  simp [Shared.Chain.keep_of_forall]

theorem Engine.withoutVersions_cons (v : GCVersion) (vs : List GCVersion) :
    (e.deleteVersion v.key v.ts).withoutVersions vs = e.withoutVersions (v :: vs) := by
  ext1
  simp only [withoutVersions, deleteVersion, mapHistories, List.map_map]
  apply List.map_congr_left
  intro p _
  by_cases hk : p.1 = v.key
  · simp [hk, Shared.Chain.delete, bne, eq_comm, beq_eq_decide]
  · simp [hk, Ne.symm hk]

theorem evalGC_eq (req : GCRequest) : evalGC e req = e.withoutVersions req.versions := by
  unfold evalGC
  generalize req.versions = vs
  induction vs generalizing e with
  | nil => exact (e.withoutVersions_nil).symm
  | cons v vs ih =>
    rw [List.foldl_cons, ih]
    exact e.withoutVersions_cons v vs

theorem Engine.withoutVersions_append (vs ws : List GCVersion) :
    (e.withoutVersions vs).withoutVersions ws = e.withoutVersions (vs ++ ws) := by
  induction vs generalizing e with
  | nil => rw [withoutVersions_nil, List.nil_append]
  | cons v vs ih => rw [← withoutVersions_cons, ih, List.cons_append, ← withoutVersions_cons]

theorem foldl_evalGC (reqs : List GCRequest) :
    reqs.foldl evalGC e = e.withoutVersions (reqs.flatMap GCRequest.versions) := by
  induction reqs generalizing e with
  | nil => exact (e.withoutVersions_nil).symm
  | cons r reqs ih =>
    rw [List.foldl_cons, ih, evalGC_eq, Engine.withoutVersions_append, List.flatMap_cons]

end

section Chunks
variable {threshold : Timestamp} {fuel : Nat} {versions : List GCVersion}
  {records : List TransactionKey}

theorem items_left_le (hfuel : versions.length + records.length ≤ fuel + 1) :
    (versions.drop gcChunkSize).length +
      (records.drop (records.take
        (gcChunkSize - (versions.take gcChunkSize).length)).length).length ≤ fuel := by
  simp only [List.length_drop, List.length_take, gcChunkSize]
  omega

section
variable (hfuel : versions.length + records.length ≤ fuel) (m : Nat)
include hfuel m

theorem gcChunks_take_versions :
    ((gcChunks threshold fuel versions records).take m).flatMap GCRequest.versions =
      versions.take (m * gcChunkSize) := by
  induction m generalizing fuel versions records with
  | zero => simp
  | succ m ih =>
    cases fuel with
    | zero =>
      obtain rfl : versions = [] := List.eq_nil_of_length_eq_zero (by omega)
      simp [gcChunks]
    | succ fuel =>
      simp only [gcChunks]
      split
      · rename_i hnil
        simp [hnil.1]
      · rw [List.take_succ_cons, List.flatMap_cons, ih (items_left_le hfuel), ← List.take_add,
          Nat.succ_mul, Nat.add_comm]

theorem gcChunks_head_version :
    ((gcChunks threshold fuel versions records)[m]?.bind fun r => r.versions.head?) =
      versions[m * gcChunkSize]? := by
  induction fuel generalizing versions records m with
  | zero =>
    obtain rfl : versions = [] := List.eq_nil_of_length_eq_zero (by omega)
    simp [gcChunks]
  | succ fuel ih =>
    simp only [gcChunks]
    split
    · rename_i hnil
      simp [hnil.1]
    cases m with
    | zero => simp [gcChunkSize, List.head?_eq_getElem?]
    | succ m =>
      rw [List.getElem?_cons_succ, ih (items_left_le hfuel), List.getElem?_drop, Nat.succ_mul,
        Nat.add_comm]

end

end Chunks

end Datax
