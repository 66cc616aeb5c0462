import Datax.Kvserver.WriteBatch

/-!
# The transaction coordinator

A client transaction through `parallelCommit`, as a machine that sends batches and reads
answers. A batch may be evaluated late, more than once, in parts by the ranges that hold its
keys, or never. `Txn.send` returns some answer to its current attempt or gives up at any moment;
a refresh starts a new attempt.
-/

namespace Datax

open Option

structure Reply where
  attempt : Nat
  group : List Key
  answer : Except KVError BatchResponse

inductive Sending where
  | unsent
  | waiting (attempt : Nat)
  | done (ts : Timestamp)
  | failed

structure Committing where
  txn : Transaction
  intentKeys : List Key
  requests : List Request
  createRecord : Bool
  wb : Sending
  et : Sending

inductive Phase where
  | idle
  | flushing (attempt : Nat) (requests : List Request) (createRecord : Bool)
  | committing (c : Committing)
  | refreshing (c : Committing) (writesTS : Timestamp)
  | aborting (attempt : Nat) (txn : Transaction)
  | finalizing (attempt : Nat) (key : Key) (intentKeys : List Key)
  | finalizingAsync (attempt : Nat) (stagedTS : Timestamp)
  | finished

structure Txn where
  txn : Transaction
  writes : List Key
  anchored : Bool
  phase : Phase

/-- Two and a half seconds, in nanoseconds. -/
def txnPoisonGuardAge : Nat := 2500000000

def Txn.recordWrite (t : Txn) (key : Key) : Txn :=
  { t with
    writes := if key ∈ t.writes then t.writes else t.writes ++ [key]
    anchored := t.anchored || t.txn.key == key }

def Txn.recordWrites (t : Txn) (keys : List Key) : Txn := keys.foldl Txn.recordWrite t

/-- The next write of the transaction: a new sequence, and the first key ever
written becomes the anchor. -/
def Txn.nextWrite (t : Txn) (requests : List Request) : Transaction :=
  { t.txn with
    sequence := t.txn.sequence + 1
    key := if t.txn.key = [] then (requests.head?.map Request.key).getD [] else t.txn.key }

def Txn.adopt (t : Txn) (ts : Timestamp) : Txn :=
  { t with txn := { t.txn with writeTimestamp := t.txn.writeTimestamp.forward ts } }

def Txn.refresh (t : Txn) (newTS : Timestamp) : Txn :=
  if newTS.lessEq t.txn.readTimestamp then t
  else { t with txn := { t.txn with
    readTimestamp := newTS
    writeTimestamp := t.txn.writeTimestamp.forward newTS } }

def Committing.wbBatch (c : Committing) (txn : Transaction) : BatchRequest :=
  ⟨{ txn := some txn }, c.requests⟩

def Committing.etBatch (c : Committing) (txn : Transaction) : BatchRequest :=
  ⟨{ txn := some txn, createTxnRecord := c.createRecord }, [.endTxn c.txn.key
      { commit := true, intentKeys := c.intentKeys, inFlight := c.requests.map Request.key }]⟩

def abortBatch (txn : Transaction) (key : Key) : BatchRequest :=
  ⟨{ txn := some txn }, [.endTxn key { commit := false }]⟩

def finalBatch (txn : Transaction) (key : Key) (intentKeys : List Key) : BatchRequest :=
  ⟨{ txn := some txn }, [.endTxn key { commit := true, intentKeys := intentKeys }]⟩

def Txn.resolveAll (t : Txn) (status : TxnStatus) (commitTS : Timestamp) : List BatchRequest :=
  if t.writes = [] then []
  else
    let ts := if commitTS.isEmpty then t.txn.writeTimestamp else commitTS
    [⟨{}, t.writes.map fun k => .resolveIntent k t.txn.id status ts⟩]

def Reply.okFor (r : Reply) (attempt : Nat) : Option BatchResponse :=
  if r.attempt = attempt then r.answer.toOption else none

/-- The answers that together acknowledge every request of an attempt, and the
highest write timestamp they report. -/
def gather (log : List Reply) (attempt : Nat) (requests : List Request) (replies : List Nat) :
    Option Timestamp :=
  let rs := replies.filterMap fun j => log[j]?
  if rs.all (fun r => (r.okFor attempt).isSome) &&
    requests.all (fun q => rs.any fun r => r.group.contains q.key) then
    some (rs.foldl (fun ts r =>
      ts.forward
      ((((r.okFor attempt).bind BatchResponse.txn).map fun t => t.writeTimestamp).getD ⊥)) ⊥)
  else none

def endTxnReply (log : List Reply) (attempt reply : Nat) :
    Option (BatchResponse × EndTxnResponse) :=
  (log[reply]?.bind fun r => r.okFor attempt).bind fun br =>
    match br.responses with
    | [.endTxn resp] => some (br, resp)
    | _ => none

def returned (log : List Reply) (attempt : Nat) : Option Nat → Bool
  | none => true
  | some reply => log[reply]?.any fun r => r.attempt == attempt

inductive CoordAction where
  | flush (requests : List Request)
  | flushRestamp (newTS : Timestamp)
  | flushed (replies : List Nat)
  | flushFailed
  | parallelCommit (requests : List Request) (now : Timestamp)
  | wbRestamp (newTS : Timestamp)
  | wbReplied (replies : List Nat)
  | wbFailed
  | etRestamp (newTS : Timestamp)
  | etReplied (reply : Nat)
  | etFailed
  -- both sends have returned
  | settle
  | refreshed (ok : Bool)
  -- the abort of a failed commit has returned, with an answer or with none
  | aborted (reply : Option Nat)
  | finalRestamp (newTS : Timestamp)
  | finalized (reply : Nat)
  | finalFailed
  | heartbeat (req : HeartbeatTxnRequest)

def flushable (requests : List Request) : Bool :=
  !requests.isEmpty && requests.all fun q => q.lays.isSome

def deferrable (requests : List Request) : Bool :=
  !requests.isEmpty && requests.all fun q =>
    match q with
    | .put _ _ => true
    | .delete _ => true
    | _ => false

/-- The start of `parallelCommit`. A transaction old enough to be poisoned stages
its record before it sends the writes. -/
def Txn.parallelCommit (t : Txn) (next : Nat) (requests : List Request) (now : Timestamp) :
    Txn × List BatchRequest :=
  let txn := t.nextWrite requests
  let kys := requests.map Request.key
  let c : Committing :=
    { txn := txn, intentKeys := t.writes ++ kys, requests := requests, createRecord := !t.anchored
      wb := .unsent, et := .unsent }
  let t := ({ t with txn := txn }).recordWrites kys
  if txn.minTimestamp.wallTime + txnPoisonGuardAge < now.wallTime then
    ({ t with phase := .committing { c with et := .waiting next } }, [c.etBatch txn])
  else
    ({ t with phase := .committing { c with wb := .waiting next, et := .waiting (next + 1) } },
      [c.wbBatch txn, c.etBatch txn])

/-- What follows when both sends of `parallelCommit` have returned. -/
def Txn.settle (t : Txn) (next : Nat) (c : Committing) : Option (Txn × List BatchRequest) :=
  match c.wb, c.et with
  | .done writes, .done stagedTS =>
    let writesTS := stagedTS.forward writes
    if stagedTS.less writesTS then some ({ t with phase := .refreshing c writesTS }, [])
    else
      some ({ t with phase := .finalizingAsync next stagedTS },
        [finalBatch c.txn c.txn.key c.intentKeys])
  | .waiting _, _ => none
  | _, .waiting _ => none
  | .unsent, .done _ => none
  | _, .unsent => none
  | _, _ => some ({ t with phase := .aborting next c.txn }, [abortBatch t.txn c.txn.key])

def coordStep (log : List Reply) (next : Nat) (t : Txn) :
    CoordAction → Option (Txn × List BatchRequest)
  | .flush requests =>
    match t.phase with
    | .idle =>
      if flushable requests then
        let txn := t.nextWrite requests
        let create := !t.anchored && requests.any fun q => txn.key == q.key
        some ({ t with txn := txn, phase := .flushing next requests create },
          [⟨{ txn := some txn, createTxnRecord := create }, requests⟩])
      else none
    | _ => none
  | .flushRestamp newTS =>
    match t.phase with
    | .flushing _ requests create =>
      let t := t.refresh newTS
      some ({ t with phase := .flushing next requests create },
        [⟨{ txn := some t.txn, createTxnRecord := create }, requests⟩])
    | _ => none
  | .flushed replies =>
    match t.phase with
    | .flushing attempt requests _ =>
      (gather log attempt requests replies).map fun ts =>
        ({ (t.adopt ts).recordWrites (requests.map Request.key) with phase := .idle }, [])
    | _ => none
  | .flushFailed =>
    match t.phase with
    | .flushing _ _ _ => some ({ t with phase := .idle }, [])
    | _ => none
  | .parallelCommit requests now =>
    match t.phase with
    | .idle => if deferrable requests then some (t.parallelCommit next requests now) else none
    | _ => none
  | .wbRestamp newTS =>
    match t.phase with
    | .committing c =>
      match c.wb with
      | .waiting _ =>
        let t := t.refresh newTS
        some ({ t with phase := .committing { c with wb := .waiting next } }, [c.wbBatch t.txn])
      | _ => none
    | _ => none
  | .wbReplied replies =>
    match t.phase with
    | .committing c =>
      match c.wb with
      | .waiting attempt =>
        (gather log attempt c.requests replies).map fun ts =>
          ({ t.adopt ts with phase := .committing { c with wb := .done ts } }, [])
      | _ => none
    | _ => none
  | .wbFailed =>
    match t.phase with
    | .committing c =>
      match c.wb with
      | .waiting _ => some ({ t with phase := .committing { c with wb := .failed } }, [])
      | _ => none
    | _ => none
  | .etRestamp newTS =>
    match t.phase with
    | .committing c =>
      match c.et with
      | .waiting _ =>
        let t := t.refresh newTS
        some ({ t with phase := .committing { c with et := .waiting next } }, [c.etBatch t.txn])
      | _ => none
    | _ => none
  | .etReplied reply =>
    match t.phase with
    | .committing c =>
      match c.et with
      | .waiting attempt =>
        (endTxnReply log attempt reply).map fun p =>
          let t := t.adopt ((p.1.txn.map fun x => x.writeTimestamp).getD ⊥)
          let c := { c with et := .done p.2.commitTimestamp }
          match c.wb with
          | .unsent =>
            ({ t with phase := .committing { c with wb := .waiting next } }, [c.wbBatch c.txn])
          | _ => ({ t with phase := .committing c }, [])
      | _ => none
    | _ => none
  | .etFailed =>
    match t.phase with
    | .committing c =>
      match c.et with
      | .waiting _ => some ({ t with phase := .committing { c with et := .failed } }, [])
      | _ => none
    | _ => none
  | .settle =>
    match t.phase with
    | .committing c => t.settle next c
    | _ => none
  | .refreshed ok =>
    match t.phase with
    | .refreshing c writesTS =>
      if ok then
        let t := t.refresh writesTS
        some ({ t with phase := .finalizing next c.txn.key c.intentKeys },
          [finalBatch t.txn c.txn.key c.intentKeys])
      else if writesTS.lessEq t.txn.readTimestamp then none
      else some ({ t with phase := .aborting next c.txn }, [abortBatch t.txn c.txn.key])
    | _ => none
  | .aborted reply =>
    match t.phase with
    | .aborting attempt txn =>
      if returned log attempt reply then
        some ({ t with phase := .finished }, t.resolveAll .aborted txn.writeTimestamp)
      else none
    | _ => none
  | .finalRestamp newTS =>
    match t.phase with
    | .finalizing _ key intentKeys =>
      let t := t.refresh newTS
      some ({ t with phase := .finalizing next key intentKeys }, [finalBatch t.txn key intentKeys])
    | _ => none
  | .finalized reply =>
    match t.phase with
    | .finalizing attempt _ _ =>
      (endTxnReply log attempt reply).map fun p =>
        ({ t with phase := .finished }, t.resolveAll .committed p.2.commitTimestamp)
    | .finalizingAsync attempt stagedTS =>
      (endTxnReply log attempt reply).map fun _ =>
        ({ t with phase := .finished }, t.resolveAll .committed stagedTS)
    | _ => none
  | .finalFailed =>
    match t.phase with
    | .finalizing _ _ _ => some ({ t with phase := .finished }, [])
    | .finalizingAsync _ _ => some ({ t with phase := .finished }, [])
    | _ => none
  | .heartbeat req =>
    if t.anchored then some (t, [⟨{ txn := some t.txn }, [.heartbeatTxn t.txn.key req]⟩]) else none

def Writes (requests : List Request) : Prop := ∀ q ∈ requests, q.lays.isSome = true

variable {requests : List Request}

theorem writes_of_flushable (h : flushable requests = true) : Writes requests := by
  simp only [flushable, Bool.and_eq_true, List.all_eq_true] at h
  exact h.2

theorem writes_of_deferrable (h : deferrable requests = true) : Writes requests := by
  simp only [deferrable, Bool.and_eq_true, List.all_eq_true] at h
  intro q hq
  have hq := h.2 q hq
  cases q <;> simp_all [Request.lays]

theorem refresh_sequence (t : Txn) (newTS : Timestamp) :
    (t.refresh newTS).txn.sequence = t.txn.sequence := by
  unfold Txn.refresh
  split <;> rfl

theorem recordWrites_txn (t : Txn) (keys : List Key) : (t.recordWrites keys).txn = t.txn := by
  induction keys generalizing t with
  | nil => rfl
  | cons k ks ih => exact ih (t.recordWrite k)

inductive CoordMove (log : List Reply) (next : Nat) (t : Txn) :
    CoordAction → Txn → List BatchRequest → Prop where
  | flush {a : CoordAction} {t' : Txn} {requests : List Request} {create : Bool}
      (hfrom : t.phase = .idle ∧ Writes requests ∨ ∃ i, t.phase = .flushing i requests create)
      (hphase : t'.phase = .flushing next requests create)
      (ha : ∀ rs now, a ≠ .parallelCommit rs now) :
      CoordMove log next t a t' [⟨{ txn := some t'.txn, createTxnRecord := create }, requests⟩]
  | reopen {a : CoordAction} {t' : Txn} {i : Nat} {requests : List Request} {create : Bool}
      (hfrom : t.phase = .flushing i requests create) (hphase : t'.phase = .idle)
      (ha : ∀ rs now, a ≠ .parallelCommit rs now) : CoordMove log next t a t' []
  | commit {requests : List Request} {now : Timestamp} {t' : Txn} {bs : List BatchRequest}
      (hfrom : t.phase = .idle) (hd : deferrable requests = true)
      (hpair : t.parallelCommit next requests now = (t', bs)) :
      CoordMove log next t (.parallelCommit requests now) t' bs
  | committing {a : CoordAction} {t' : Txn} {c c' : Committing} {bs : List BatchRequest}
      (hfrom : t.phase = .committing c) (hphase : t'.phase = .committing c')
      (hc : c'.txn = c.txn ∧ c'.requests = c.requests) (hseq : t'.txn.sequence = t.txn.sequence)
      (hbs : ∀ ba ∈ bs, ∃ txn : Transaction,
        (txn.sequence = t.txn.sequence ∨ txn.sequence = c.txn.sequence) ∧
          (ba = c.wbBatch txn ∨ ba = c.etBatch txn))
      (ha : ∀ rs now, a ≠ .parallelCommit rs now) : CoordMove log next t a t' bs
  | refreshing {a : CoordAction} {t' : Txn} {c : Committing} {ts : Timestamp}
      (hphase : t'.phase = .refreshing c ts) (ha : ∀ rs now, a ≠ .parallelCommit rs now) :
      CoordMove log next t a t' []
  | abort {a : CoordAction} {t' : Txn} {txn x : Transaction} {key : Key}
      (hphase : t'.phase = .aborting next txn) (ha : ∀ rs now, a ≠ .parallelCommit rs now) :
      CoordMove log next t a t' [abortBatch x key]
  | finalize {a : CoordAction} {t' : Txn} {x : Transaction} {key : Key} {intentKeys : List Key}
      (hphase : t'.phase = .finalizing next key intentKeys ∨
        ∃ ts, t'.phase = .finalizingAsync next ts)
      (ha : ∀ rs now, a ≠ .parallelCommit rs now) :
      CoordMove log next t a t' [finalBatch x key intentKeys]
  | resolveAborted {t' : Txn} {reply : Option Nat} {attempt : Nat} {txn : Transaction}
      (hfrom : t.phase = .aborting attempt txn) (hret : returned log attempt reply = true)
      (hphase : t'.phase = .finished) :
      CoordMove log next t (.aborted reply) t' (t.resolveAll .aborted txn.writeTimestamp)
  | resolveCommitted {a : CoordAction} {t' : Txn} {reply attempt : Nat} {ts : Timestamp}
      {p : BatchResponse × EndTxnResponse}
      (hfrom : (∃ key ks, t.phase = .finalizing attempt key ks) ∨
        ∃ ts, t.phase = .finalizingAsync attempt ts)
      (hreply : endTxnReply log attempt reply = some p) (hphase : t'.phase = .finished)
      (ha : ∀ rs now, a ≠ .parallelCommit rs now) :
      CoordMove log next t a t' (t.resolveAll .committed ts)
  | stop {a : CoordAction} {t' : Txn} (hphase : t'.phase = .finished)
      (ha : ∀ rs now, a ≠ .parallelCommit rs now) : CoordMove log next t a t' []
  | heartbeat {a : CoordAction} {req : HeartbeatTxnRequest}
    (ha : ∀ rs now, a ≠ .parallelCommit rs now) :
      CoordMove log next t a t [⟨{ txn := some t.txn }, [.heartbeatTxn t.txn.key req]⟩]

variable {c : Committing} {a : CoordAction}

section Moves
variable {log : List Reply} {next : Nat} {t t' : Txn} {bs : List BatchRequest}

theorem settle_move (h : t.settle next c = some (t', bs)) : CoordMove log next t .settle t' bs := by
  unfold Txn.settle at h
  split at h
  · dsimp only at h
    split at h
    · cases h
      exact .refreshing rfl (by simp)
    · cases h
      exact .finalize (.inr ⟨_, rfl⟩) (by simp)
  · cases h
  · cases h
  · cases h
  · cases h
  · cases h
    exact .abort rfl (by simp)

theorem heartbeat_move {req : HeartbeatTxnRequest}
    (h : coordStep log next t (.heartbeat req) = some (t', bs)) :
    CoordMove log next t (.heartbeat req) t' bs := by
  simp only [coordStep] at h
  split_ifs at h
  cases h
  exact .heartbeat (by simp)

theorem forall_mem_sent {ba : BatchRequest} {txn : Transaction}
    (hseq : txn.sequence = t.txn.sequence ∨ txn.sequence = c.txn.sequence)
    (hba : ba = c.wbBatch txn ∨ ba = c.etBatch txn) : ∀ b ∈ [ba], ∃ txn : Transaction,
      (txn.sequence = t.txn.sequence ∨ txn.sequence = c.txn.sequence) ∧
      (b = c.wbBatch txn ∨ b = c.etBatch txn) := by
  intro b hb
  rw [List.mem_singleton.mp hb]
  exact ⟨txn, hseq, hba⟩

theorem coordStep_move (h : coordStep log next t a = some (t', bs)) :
    CoordMove log next t a t' bs := by
  -- A heartbeat may be sent in every phase; any other action belongs to one or two of them.
  cases hp : t.phase <;> cases a <;>
    first | exact heartbeat_move h | simp only [coordStep, hp, reduceCtorEq] at h
  case idle.flush requests =>
    split_ifs at h with hf
    cases h
    exact .flush (.inl ⟨hp, writes_of_flushable hf⟩) rfl (by simp)
  case idle.parallelCommit requests now =>
    split_ifs at h with hd
    exact .commit hp hd (Option.some.inj h)
  case flushing.flushRestamp attempt requests create newTS =>
    cases h
    exact .flush (.inr ⟨attempt, hp⟩) rfl (by simp)
  case flushing.flushed attempt requests create replies =>
    obtain ⟨ts, _, heq⟩ := map_eq_some_iff.mp h
    cases heq
    exact .reopen hp rfl (by simp)
  case flushing.flushFailed attempt requests create =>
    cases h
    exact .reopen hp rfl (by simp)
  case committing.wbRestamp c newTS =>
    split at h <;> cases h
    exact .committing hp rfl ⟨rfl, rfl⟩ (refresh_sequence t newTS)
      (forall_mem_sent (.inl (refresh_sequence t newTS)) (.inl rfl)) (by simp)
  case committing.wbReplied c replies =>
    split at h
    · obtain ⟨ts, _, heq⟩ := map_eq_some_iff.mp h
      cases heq
      exact .committing hp rfl ⟨rfl, rfl⟩ rfl (by simp) (by simp)
    · cases h
  case committing.wbFailed c | committing.etFailed c =>
    split at h <;> cases h
    exact .committing hp rfl ⟨rfl, rfl⟩ rfl (by simp) (by simp)
  case committing.etRestamp c newTS =>
    split at h <;> cases h
    exact .committing hp rfl ⟨rfl, rfl⟩ (refresh_sequence t newTS)
      (forall_mem_sent (.inl (refresh_sequence t newTS)) (.inr rfl)) (by simp)
  case committing.etReplied c reply =>
    split at h
    · obtain ⟨p, _, heq⟩ := map_eq_some_iff.mp h
      split at heq <;> cases heq
      · exact .committing hp rfl ⟨rfl, rfl⟩ rfl (forall_mem_sent (.inr rfl) (.inl rfl)) (by simp)
      · exact .committing hp rfl ⟨rfl, rfl⟩ rfl (by simp) (by simp)
    · cases h
  case committing.settle c => exact settle_move h
  case refreshing.refreshed c writesTS ok =>
    split_ifs at h <;> cases h
    · exact .finalize (.inl rfl) (by simp)
    · exact .abort rfl (by simp)
  case aborting.aborted attempt txn reply =>
    split_ifs at h with hret
    cases h
    exact .resolveAborted hp hret rfl
  case finalizing.finalRestamp attempt key intentKeys newTS =>
    cases h
    exact .finalize (.inl rfl) (by simp)
  case finalizing.finalized attempt key intentKeys reply =>
    obtain ⟨p, hreply, heq⟩ := map_eq_some_iff.mp h
    cases heq
    exact .resolveCommitted (.inl ⟨key, intentKeys, hp⟩) hreply rfl (by simp)
  case finalizingAsync.finalized attempt stagedTS reply =>
    obtain ⟨p, hreply, heq⟩ := map_eq_some_iff.mp h
    cases heq
    exact .resolveCommitted (.inr ⟨stagedTS, hp⟩) hreply rfl (by simp)
  case finalizing.finalFailed | finalizingAsync.finalFailed =>
    cases h
    exact .stop rfl (by simp)

end Moves

end Datax
