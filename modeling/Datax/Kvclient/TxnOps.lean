import Datax.Kvclient.Session
import Datax.Kvserver.TxnWrites
import Datax.Storage.MvccRollback

/-!
# The writing operations of a client transaction

An operation prepares its batch, `Txn.send` takes it through any number of attempts, and at the last
answer the keys are recorded. An attempt splits the batch into parts, one for each range, a scan
into segments; each part applies as a whole or not at all. Attempts may refresh, and each range may
push the write timestamp of its part.
-/

namespace Datax

open List Session

inductive Op where
  | put (key : Key) (value : Bytes)
  | delete (key : Key)
  | increment (key : Key) (amount : Int)
  | getForUpdate (key : Key)
  | runBatch (writes : List (Key × Option Bytes))
  | getBatchForUpdate (keys : List Key)
  | scanForUpdate (start stop : Key) (maxRows : Nat)

def intentRequest (w : Key × Option Bytes) : IntentRequest := w.2.elim (.delete w.1) (.put w.1)

def Op.keys : Op → List Key
  | put key _ => [key]
  | delete key => [key]
  | increment key _ => [key]
  | getForUpdate key => [key]
  | runBatch writes => writes.map Prod.fst
  | getBatchForUpdate keys => keys
  | scanForUpdate start _ _ => [start]

def Op.requests : Op → List IntentRequest
  | put key value => [.put key value]
  | delete key => [.delete key]
  | increment key amount => [.increment key amount]
  | getForUpdate key => [.getForUpdate key]
  | runBatch writes => writes.map intentRequest
  | getBatchForUpdate keys => keys.map .getForUpdate
  | scanForUpdate _ _ _ => []

/-- The bookkeeping before a write, which `prepareWrite`, `runBatchNow` and
`GetBatchForUpdate` share: the next sequence, the anchor if there is none yet, and
whether the batch creates the record. -/
def Session.prepareWrite (s : Session) (kys : List Key) : Session × Bool :=
  let txn := { s.txn with sequence := s.txn.sequence + 1 }
  if s.anchored then ({ s with txn := txn }, false)
  else
    let txn := if txn.key = [] then { txn with key := kys.headD [] } else txn
    ({ s with txn := txn }, kys.contains txn.key)

/-- The share of one range in a batch; its timestamp cache may push the write
timestamp. -/
structure Part where
  requests : List IntentRequest
  pushed : Timestamp := ⊥
  gcThreshold : Timestamp := ⊥

structure Ack where
  part : Part
  writeTimestamp : Timestamp
  responses : List IntentResponse

structure Attempt where
  refresh : Option (Timestamp × (ReadSpan → Bool)) := none
  parts : List Part

/-- What a range may be sent: the requests on some of the keys, in their order, or a
segment of the scan. -/
def Op.shares (o : Op) (p : Part) : Bool :=
  match o with
  | scanForUpdate start stop _ =>
    match p.requests with
    | [.scanForUpdate segStart segEnd _ _] => start ≤ segStart && segEnd ≤ stop
    | _ => false
  | _ => p.requests == o.requests.filter fun q => p.requests.any fun r => r.key == q.key

/-- The timestamp cache forgets nothing: a rewrite is pushed at least as far as the
intent it replaces. -/
def Part.admits (p : Part) (txn : Transaction) (st : Ranges) : Bool :=
  p.requests.all fun q => (st.data q.key).intent.all fun i =>
    i.txn.id != txn.id || i.timestamp.lessEq (txn.writeTimestamp.forward p.pushed)

def Part.header (p : Part) (txn : Transaction) (create : Bool) : BatchHeader where
  txn := some { txn with writeTimestamp := txn.writeTimestamp.forward p.pushed }
  createTxnRecord := create && p.requests.any (IntentRequest.covers txn.key)

def sendParts (txn : Transaction) (create : Bool) : List Part → Ranges → Ranges × List Ack
  | [], st => (st, [])
  | p :: ps, st =>
    if p.admits txn st then
      match evalTxnWrites p.gcThreshold st (p.header txn create) p.requests with
      | .error _ => sendParts txn create ps st
      | .ok (st', responses) =>
        let r := sendParts txn create ps st'
        (r.1, ⟨p, txn.writeTimestamp.forward p.pushed, responses⟩ :: r.2)
    else sendParts txn create ps st

def Attempt.refreshed (a : Attempt) (s : Session) : Session :=
  match a.refresh with
  | none => s
  | some (newTS, answer) => (s.maybeRefresh newTS answer).1

/-- The session and the ranges after the attempts, and what the last one had
acknowledged. -/
def sendAttempts (create : Bool) : List Attempt → Session → Ranges → Session × Ranges × List Ack
  | [], s, st => (s, st, [])
  | a :: rest, s, st =>
    let s := a.refreshed s
    let r := sendParts s.txn create a.parts st
    if rest.isEmpty then (s, r) else sendAttempts create rest s r.1

/-- A store with nothing in it. -/
def noData : Key → KeyHistory := fun _ => KeyHistory.empty

def Session.adopt (s : Session) (acks : List Ack) : Session :=
  { s with toTxn := acks.foldl (fun t a => t.adopt a.writeTimestamp) s.toTxn }

def Session.recordWrites (s : Session) (kys : List Key) : Session :=
  { s with toTxn := s.toTxn.recordWrites kys }

def answered (requests : List IntentRequest) (acks : List Ack) : Bool :=
  requests.all fun q => acks.any fun a => a.part.requests.contains q

/-- The loop of `sendScan` over the answers of the segments, from `cur` on: the rows
and where the scan stopped early. -/
def stitch (stop : Key) (limited : Bool) :
    Key → Nat → List Ack → Option (List KeyValue × Option Key)
  | cur, _, [] => if cur < stop then none else some ([], none)
  | cur, remaining, a :: rest =>
    match a.part.requests, a.responses with
    | [.scanForUpdate start segEnd maxRows _], [.scan res] =>
      if start = cur ∧ cur < segEnd ∧ segEnd ≤ stop ∧ maxRows = remaining then
        if limited && remaining ≤ res.kvs.length then
          if rest.isEmpty then
            some (res.kvs, res.resume <|> if segEnd < stop then some segEnd else none)
          else none
        else
          (stitch stop limited (res.resume.getD segEnd) (remaining - res.kvs.length) rest).map
            fun p => (res.kvs ++ p.1, p.2)
      else none
    | _, _ => none

/-- What an operation records when its send returns; `none` while a request is
unanswered. -/
def Op.record (o : Op) (s : Session) (acks : List Ack) : Option Session :=
  match o with
  | put key value => point s key (.put key value)
  | delete key => point s key (.delete key)
  | increment key amount => point s key (.increment key amount)
  | getForUpdate key => locked s [key]
  | runBatch writes =>
    if answered (writes.map intentRequest) acks then some
      ((s.adopt acks).recordWrites (writes.map Prod.fst))
    else none
  | getBatchForUpdate keys => locked s keys
  | scanForUpdate start stop maxRows =>
    (stitch stop (0 < maxRows) start maxRows acks).map fun p =>
      -- the answer of a scan that was sent segment by segment carries no transaction
      (s.recordRead ⟨start, some (p.2.getD stop)⟩).recordWrites (start :: p.1.map KeyValue.key)
where
  point (s : Session) (key : Key) (q : IntentRequest) : Option Session :=
    if answered [q] acks then some ((s.adopt acks).recordWrites [key]) else none
  locked (s : Session) (kys : List Key) : Option Session :=
    if answered (kys.map .getForUpdate) acks then
      some (((kys.map fun k => ⟨k, none⟩).foldl recordRead (s.adopt acks)).recordWrites kys)
    else none

/-- How an operation ends: with success, with an error the transaction survives, or
because the transaction was found aborted. -/
inductive Returned where
  | ok | error | aborted
deriving DecidableEq

def runOp (o : Op) (attempts : List Attempt) (ret : Returned) (s : Session) (st : Ranges) :
    Option (Session × Ranges) :=
  -- an empty batch returns at once
  if o.keys = [] then if ret = .ok then some (s, st) else none
  else if !(attempts.all fun a => a.parts.all o.shares) then none
  else
    let p := s.prepareWrite o.keys
    let (s, st, acks) := sendAttempts p.2 attempts p.1 st
    match ret with
    | .ok => (o.record s acks).map fun s => (s, st)
    | .error => some (s, st)
    | .aborted => some ({ s with finished := true }, st)

def rollbackIntents (id : UUID) (seq : Int) (kys : List Key) (st : Ranges) : Ranges :=
  { st with
    data := fun k =>
      if kys.contains k then mvccRollbackIntent (st.data k) id seq else st.data k }

def Session.refreshAll (s : Session) (refreshes : List (Timestamp × (ReadSpan → Bool))) : Session :=
  refreshes.foldl (fun s r => (s.maybeRefresh r.1 r.2).1) s

theorem sendParts_cons (txn : Transaction) (create : Bool) (p : Part) (ps : List Part)
    (st : Ranges) :
    sendParts txn create (p :: ps) st = sendParts txn create ps st ∨
      ∃ st' resps, p.admits txn st = true ∧
        evalTxnWrites p.gcThreshold st (p.header txn create) p.requests = .ok (st', resps) ∧
        sendParts txn create (p :: ps) st = ((sendParts txn create ps st').1,
          ⟨p, txn.writeTimestamp.forward p.pushed, resps⟩ :: (sendParts txn create ps st').2) := by
  rw [sendParts]
  split
  · rename_i hadmits
    split
    · exact .inl rfl
    · rename_i st' resps hev
      exact .inr ⟨st', resps, hadmits, hev, rfl⟩
  · exact .inl rfl

variable {a : Ack} {attempts : List Attempt}

section Bookkeeping
variable {s : Session} {kys : List Key}

theorem Attempt.refreshed_moved (a : Attempt) (s : Session) : Session.Moved s (a.refreshed s) := by
  unfold Attempt.refreshed
  split
  · exact Session.Moved.refl s
  · exact s.maybeRefresh_moved _ _

theorem sendAttempts_moved (create : Bool) (attempts : List Attempt) (s : Session) (st : Ranges) :
    Session.Moved s (sendAttempts create attempts s st).1 := by
  induction attempts generalizing s st with
  | nil => exact Session.Moved.refl s
  | cons a rest ih =>
    unfold sendAttempts
    split
    · exact a.refreshed_moved s
    · exact (a.refreshed_moved s).trans (ih _ _)

theorem Session.refreshAll_moved (s : Session) (refreshes : List (Timestamp × (ReadSpan → Bool))) :
    Session.Moved s (s.refreshAll refreshes) := by
  induction refreshes generalizing s with
  | nil => exact Session.Moved.refl s
  | cons r rest ih => exact (s.maybeRefresh_moved r.1 r.2).trans (ih _)

theorem Session.adopt_moved (s : Session) (acks : List Ack) : Session.Moved s (s.adopt acks) := by
  induction acks generalizing s with
  | nil => exact Session.Moved.refl s
  | cons a rest ih =>
    have hstep : Session.Moved s { s with toTxn := s.toTxn.adopt a.writeTimestamp } :=
      ⟨_, _, le_max_left _ _, rfl⟩
    exact hstep.trans (ih _)

theorem Session.le_adopt {acks : List Ack} (ha : a ∈ acks) (s : Session) :
    a.writeTimestamp ≤ (s.adopt acks).txn.writeTimestamp := by
  induction acks generalizing s with
  | nil => cases ha
  | cons b rest ih =>
    have hstep : s.adopt (b :: rest) =
        ({ s with toTxn := s.toTxn.adopt b.writeTimestamp } : Session).adopt rest := rfl
    rw [hstep]
    rcases mem_cons.mp ha with rfl | ha
    · obtain ⟨read, write, hle, hmoved⟩ :=
        ({ s with toTxn := s.toTxn.adopt a.writeTimestamp } : Session).adopt_moved rest
      rw [hmoved]
      exact (le_max_right _ _).trans hle
    · exact ih ha _

@[simp] theorem recordRead_toTxn (s : Session) (sp : ReadSpan) :
    (s.recordRead sp).toTxn = s.toTxn := by
  unfold recordRead
  split
  · rfl
  · split <;> rfl

theorem recordReads_keeps (s : Session) (spans : List ReadSpan) :
    (spans.foldl recordRead s).toTxn = s.toTxn ∧
      (spans.foldl recordRead s).savepoints = s.savepoints := by
  induction spans generalizing s with
  | nil => exact ⟨rfl, rfl⟩
  | cons sp rest ih =>
    obtain ⟨htxn, hsp⟩ := ih (s.recordRead sp)
    exact ⟨htxn.trans (recordRead_toTxn s sp), hsp.trans (recordRead_savepoints s sp)⟩

theorem recordWrites_anchored (t : Txn) (kys : List Key) :
    (t.recordWrites kys).anchored = (t.anchored || kys.contains t.txn.key) := by
  unfold Txn.recordWrites
  induction kys generalizing t with
  | nil => simp
  | cons k ks ih =>
    rw [foldl_cons, ih, contains_cons]
    simp only [Txn.recordWrite, Bool.or_assoc]

theorem mem_recordWrites (t : Txn) (kys : List Key) (k : Key) :
    k ∈ (t.recordWrites kys).writes ↔ k ∈ t.writes ∨ k ∈ kys := by
  unfold Txn.recordWrites
  induction kys generalizing t with
  | nil => simp
  | cons a as ih =>
    rw [foldl_cons, ih]
    unfold Txn.recordWrite
    split
    · rename_i ha
      rw [mem_cons]
      constructor
      · rintro (h | h)
        · exact .inl h
        · exact .inr (.inr h)
      · rintro (h | rfl | h)
        · exact .inl h
        · exact .inl ha
        · exact .inr h
    · rw [mem_append, mem_singleton, mem_cons, or_assoc]

theorem prepareWrite_fst (s : Session) (kys : List Key) : ∃ key : Key, (s.prepareWrite kys).1 =
      { s with txn := { s.txn with sequence := s.txn.sequence + 1, key := key } } := by
  unfold prepareWrite
  dsimp only
  split
  · exact ⟨s.txn.key, rfl⟩
  split
  · exact ⟨_, rfl⟩
  · exact ⟨s.txn.key, rfl⟩

theorem runOp_some {o : Op} {ret : Returned} {st : Ranges} {p : Session × Ranges}
    (hkeys : o.keys ≠ []) (h : runOp o attempts ret s st = some p) :
    (∀ a ∈ attempts, ∀ q ∈ a.parts, o.shares q = true) ∧ ∃ create t acks,
      create = (s.prepareWrite o.keys).2 ∧
      sendAttempts create attempts (s.prepareWrite o.keys).1 st = (t, p.2, acks) ∧
      (ret = .ok ∧ o.record t acks = some p.1 ∨ ret ≠ .ok ∧
        ∃ finished, p.1 = { t with finished := finished }) := by
  unfold runOp at h
  rw [if_neg hkeys] at h
  rcases hsent : sendAttempts (s.prepareWrite o.keys).2 attempts (s.prepareWrite o.keys).1 st with
    ⟨t, st', acks⟩
  simp only [hsent] at h
  split_ifs at h with hshares
  refine ⟨by simpa using hshares, _, t, acks, rfl, ?_⟩
  cases ret with
  | ok =>
    obtain ⟨t', ht', rfl⟩ := Option.map_eq_some_iff.mp h
    exact ⟨hsent, .inl ⟨rfl, ht'⟩⟩
  | error =>
    cases h
    exact ⟨hsent, .inr ⟨by simp, t.finished, rfl⟩⟩
  | aborted =>
    cases h
    exact ⟨hsent, .inr ⟨by simp, true, rfl⟩⟩

end Bookkeeping

def RecordOpen (rec : Option Transaction) : Prop :=
  ∀ r ∈ rec, r.status = .pending ∨ r.status = .aborted

def RecordKept (rec rec' : Option Transaction) : Prop :=
  (rec.isSome = true → rec'.isSome = true) ∧ (RecordOpen rec → RecordOpen rec')

theorem RecordKept.refl (rec : Option Transaction) : RecordKept rec rec := ⟨id, id⟩

theorem RecordKept.trans {r r' r'' : Option Transaction} (h : RecordKept r r')
    (h' : RecordKept r' r'') : RecordKept r r'' :=
  ⟨fun hr => h'.1 (h.1 hr), fun hr => h'.2 (h.2 hr)⟩

theorem RecordKept.of_pending (rec : Option Transaction) {r : Transaction}
    (h : r.status = .pending) :
    RecordKept rec (some r) := by
  refine ⟨fun _ => rfl, fun _ => ?_⟩
  rintro _ ⟨⟩
  exact .inl h

section Sends
variable {st : Ranges} {txn : Transaction} {create : Bool}

theorem sendParts_kept (ps : List Part) (st : Ranges) :
    RecordKept st.record (sendParts txn create ps st).1.record := by
  induction ps generalizing st with
  | nil => exact RecordKept.refl _
  | cons p ps ih =>
    rcases sendParts_cons txn create p ps st with hsame | ⟨st', resps, _, hev, happ⟩
    · rw [hsame]
      exact ih st
    rw [happ]
    refine RecordKept.trans ?_ (ih st')
    rcases evalTxnWrites_record hev with ⟨_, hrec⟩ | ⟨_, r, hr, hp⟩
    · rw [hrec]
      exact RecordKept.refl _
    · rw [hr]
      exact RecordKept.of_pending _ hp

theorem sendParts_creates {ps : List Part} (ha : a ∈ (sendParts txn true ps st).2)
    (hcov : a.part.requests.any (IntentRequest.covers txn.key) = true) :
    (sendParts txn true ps st).1.record.isSome = true := by
  induction ps generalizing st with
  | nil => cases ha
  | cons p ps ih =>
    rcases sendParts_cons txn true p ps st with hsame | ⟨st', resps, _, hev, happ⟩
    · rw [hsame] at ha ⊢
      exact ih ha
    rw [happ] at ha ⊢
    rcases mem_cons.mp ha with rfl | ha
    · rcases evalTxnWrites_record hev with ⟨hno, _⟩ | ⟨_, r, hr, _⟩
      · simp [Part.header, hcov] at hno
      · exact (sendParts_kept ps st').1 (by simp [hr])
    · exact ih ha

theorem sendAttempts_kept (create : Bool) (attempts : List Attempt) (s : Session) (st : Ranges) :
    RecordKept st.record (sendAttempts create attempts s st).2.1.record := by
  induction attempts generalizing s st with
  | nil => exact RecordKept.refl _
  | cons a rest ih =>
    unfold sendAttempts
    split
    · exact sendParts_kept a.parts st
    · exact (sendParts_kept a.parts st).trans (ih _ _)

theorem sendAttempts_creates {s : Session} (ha : a ∈ (sendAttempts true attempts s st).2.2)
    (hcov : a.part.requests.any (IntentRequest.covers s.txn.key) = true) :
    (sendAttempts true attempts s st).2.1.record.isSome = true := by
  induction attempts generalizing s st with
  | nil => cases ha
  | cons b rest ih =>
    obtain ⟨read, write, _, hmoved⟩ := b.refreshed_moved s
    have hkey : (b.refreshed s).txn.key = s.txn.key := by rw [hmoved]
    unfold sendAttempts at ha ⊢
    split
    · rename_i hlast
      rw [if_pos hlast] at ha
      exact sendParts_creates ha (hkey ▸ hcov)
    · rename_i hmore
      rw [if_neg hmore] at ha
      exact ih ha (hkey ▸ hcov)

end Sends

end Datax
