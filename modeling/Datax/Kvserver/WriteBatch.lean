import Datax.Kvserver.TxnRecord
import Datax.Shared.Fallible

/-!
# Write batches

A range evaluates a batch in order into one engine batch. A write-intent conflict is collected,
any other error ends the evaluation; either way the engine batch is discarded, so a batch applies
as a whole or not at all. The state is what the ranges hold of one transaction: its record and
the histories of the keys.
-/

namespace Datax

open List Fallible

structure BatchHeader where
  txn : Option Transaction := none
  timestamp : Timestamp := ⊥
  createTxnRecord : Bool := false

inductive Request where
  | put (key : Key) (value : Bytes)
  | delete (key : Key)
  | getForUpdate (key : Key)
  | endTxn (key : Key) (req : EndTxnRequest)
  | heartbeatTxn (key : Key) (req : HeartbeatTxnRequest)
  | pushTxn (req : PushTxnRequest)
  | resolveIntent (key : Key) (txnID : UUID) (status : TxnStatus) (commitTS : Timestamp)
  | recoverTxn (req : RecoverTxnRequest)

inductive Response where
  | put
  | delete
  | get (value : Option Bytes)
  | endTxn (resp : EndTxnResponse)
  | heartbeatTxn (status : TxnStatus)
  | pushTxn (resp : PushTxnResponse)
  | resolveIntent
  | recoverTxn (status : TxnStatus)

structure BatchRequest where
  header : BatchHeader
  requests : List Request

structure BatchResponse where
  txn : Option Transaction
  responses : List Response

structure Ranges where
  record : Option Transaction
  data : Key → KeyHistory

namespace Request

def key : Request → Key
  | put key _ => key
  | delete key => key
  | getForUpdate key => key
  | endTxn key _ => key
  | heartbeatTxn key _ => key
  | pushTxn req => req.pusheeTxn.key
  | resolveIntent key _ _ _ => key
  | recoverTxn req => req.key

def lays : Request → Option Key
  | put key _ => some key
  | delete key => some key
  | getForUpdate key => some key
  | _ => none

def resolves : Request → Option TxnStatus
  | resolveIntent _ _ status _ => some status
  | _ => none

end Request

def writeTimestamp (h : BatchHeader) : Timestamp :=
  match h.txn with
  | some txn => txn.writeTimestamp
  | none => h.timestamp

def readTimestamp (h : BatchHeader) : Timestamp :=
  match h.txn with
  | some txn => txn.readTimestamp
  | none => h.timestamp

def BatchHeader.meta? (h : BatchHeader) : Option TxnMeta := h.txn.map Transaction.toTxnMeta

def Ranges.setHistory (st : Ranges) (key : Key) (h : KeyHistory) : Ranges :=
  { st with data := Function.update st.data key h }

def mvccPut (st : Ranges) (key : Key) (ts : Timestamp) (value : Option Bytes)
    (txn : Option TxnMeta) : Except KVError Ranges :=
  match mvccWrite (st.data key) key ts value txn with
  | .ok h => .ok (st.setHistory key h)
  | .error err => .error (.storage err)

def mvccLock (st : Ranges) (key : Key) (readTS : Timestamp) (value : Option Bytes) (txn : TxnMeta) :
    Except KVError Ranges :=
  mvccPut st key readTS.next value (some txn)

def evalGetForUpdate (st : Ranges) (h : BatchHeader) (key : Key) :
    Except KVError (Ranges × Response) :=
  match mvccGet (st.data key) key (readTimestamp h) { txn := h.meta? } with
  | .error err => .error (.storage err)
  | .ok value =>
    match h.meta? with
    | none => .error (.plain "locking read outside a transaction")
    | some txn => (mvccLock st key (readTimestamp h) value txn).map fun st => (st, .get value)

def evalRequest (h : BatchHeader) (st : Ranges) : Request → Except KVError (Ranges × Response)
  | .put key value =>
    (mvccPut st key (writeTimestamp h) (some value) h.meta?).map fun st => (st, .put)
  | .delete key => (mvccPut st key (writeTimestamp h) none h.meta?).map fun st => (st, .delete)
  | .getForUpdate key => evalGetForUpdate st h key
  | .endTxn _ req =>
    match h.txn with
    | none => .error (.plain "EndTxn without a transaction")
    | some txn =>
      (evalEndTxn st.record txn req).map fun p => ({ st with record := p.1 }, .endTxn p.2)
  | .heartbeatTxn _ req =>
    match h.txn with
    | none => .error (.plain "HeartbeatTxn without a transaction")
    | some txn =>
      (evalHeartbeatTxn st.record txn req).map fun p =>
        ({ st with record := p.1 }, .heartbeatTxn p.2)
  | .pushTxn req =>
    let p := evalPushTxn st.record req
    .ok ({ st with record := p.1 }, .pushTxn p.2)
  | .resolveIntent key txnID status commitTS =>
    match mvccResolveIntent (st.data key) key txnID status commitTS with
    | .ok h => .ok (st.setHistory key h, .resolveIntent)
    | .error err => .error (.storage err)
  | .recoverTxn req =>
    let p := evalRecoverTxn st.record req
    .ok ({ st with record := p.1 }, .recoverTxn p.2)

def evalRequests (h : BatchHeader) :
    List Request → Ranges → List Intent → Except KVError (Ranges × List Response)
  | [], st, [] => .ok (st, [])
  | [], _, conflicts => .error (.storage (.writeIntent conflicts))
  | q :: qs, st, conflicts =>
    match evalRequest h st q with
    | .ok (st', resp) => (evalRequests h qs st' conflicts).map fun p => (p.1, resp :: p.2)
    | .error (.storage (.writeIntent intents)) =>
      evalRequests h qs st (collectIntents conflicts intents)
    | .error err => .error err

def evalCreate (gcThreshold : Timestamp) (st : Ranges) (h : BatchHeader) : Except KVError Ranges :=
  if h.createTxnRecord then
    match h.txn with
    | none => .error (.plain "CreateTxnRecord without a transaction")
    | some txn =>
      (createTxnRecord gcThreshold st.record txn).map fun r => { st with record := some r }
  else .ok st

def evalWriteBatch (gcThreshold : Timestamp) (st : Ranges) (ba : BatchRequest) :
    Except KVError (Ranges × BatchResponse) :=
  match evalCreate gcThreshold st ba.header with
  | .error err => .error err
  | .ok st =>
    (evalRequests ba.header ba.requests st []).map fun p => (p.1, ⟨ba.header.txn, p.2⟩)

def verdict (rec : Option Transaction) : Option Bool :=
  rec.bind fun r =>
    match r.status with
    | .committed => some true
    | .aborted => some false
    | _ => none

/-- The record still holds every verdict it held. -/
def VerdictKept (rec rec' : Option Transaction) : Prop :=
  ∀ v, verdict rec = some v → verdict rec' = some v

theorem VerdictKept.refl (rec : Option Transaction) : VerdictKept rec rec := fun _ h => h

theorem VerdictKept.trans {r r' r'' : Option Transaction} (h : VerdictKept r r')
    (h' : VerdictKept r' r'') : VerdictKept r r'' := fun v hv => h' v (h v hv)

variable {req : EndTxnRequest}

section Verdict
variable {rec rec' : Option Transaction} {txn r : Transaction}

theorem verdict_eq_some_iff {v : Bool} :
    verdict rec = some v ↔ ∃ e ∈ rec, e.status = if v then .committed else .aborted := by
  rcases rec with _ | e
  · simp [verdict]
  · cases v <;> cases he : e.status <;> simp [verdict, he]

theorem verdict_create {gcThreshold : Timestamp} (h : createTxnRecord gcThreshold rec txn = .ok r) :
    verdict rec = none := by
  obtain ⟨_, hopen, _⟩ := createTxnRecord_ok_iff.mp h
  rcases rec with _ | e
  · rfl
  · rcases hopen e rfl with he | he <;> simp [verdict, he]

theorem verdict_finalRecord (txn : Transaction) (h : req.commit = true → req.inFlight = []) :
    verdict (some (finalRecord txn req)) = some req.commit := by
  unfold finalRecord
  cases hc : req.commit with
  | false => simp [verdict]
  | true => simp [verdict, h hc]

section
variable {resp : EndTxnResponse} (h : evalEndTxn rec txn req = .ok (rec', resp))
include h

theorem endTxn_keeps : VerdictKept rec rec' := by
  intro v hv
  obtain ⟨_, ⟨e, rfl, _, _, _, rfl, _⟩ | ⟨hopen, _⟩⟩ := evalEndTxn_ok_iff.mp h
  · exact hv
  obtain ⟨e, he, hs⟩ := verdict_eq_some_iff.mp hv
  have := (hopen e he).1
  cases v <;> simp [hs] at this

theorem endTxn_settles (hf : req.commit = true → req.inFlight = []) :
    verdict rec' = some req.commit := by
  obtain ⟨_, ⟨e, rfl, hs, hc, _, rfl, _⟩ | ⟨_, _, rfl, _⟩⟩ := evalEndTxn_ok_iff.mp h
  · simp [verdict, hs, hc]
  · exact verdict_finalRecord txn hf

end

theorem evalEndTxn_ne_storage (rec : Option Transaction) (txn : Transaction) (req : EndTxnRequest)
    (err : StorageError) : evalEndTxn rec txn req ≠ .error (.storage err) := by
  have hflip : evalEndTxn.flip txn req ≠ .error (.storage err) := by
    unfold evalEndTxn.flip
    split <;> simp
  unfold evalEndTxn
  split
  · simp
  split
  · exact hflip
  split
  · simp
  · split <;> simp
  split
  · simp
  · exact hflip

theorem endTxn_txnAborted {m : String}
    (h : evalEndTxn rec txn req = .error (.txnAborted m)) : verdict rec = some false := by
  have hflip : evalEndTxn.flip txn req ≠ .error (.txnAborted m) := by
    unfold evalEndTxn.flip
    split <;> simp
  unfold evalEndTxn at h
  split at h
  · cases h
  rcases rec with _ | e
  · exact absurd h hflip
  cases he : e.status with
  | aborted => simp [verdict, he]
  | committed =>
    simp only [he] at h
    split at h <;> cases h
  | pending | staging =>
    simp only [he] at h
    split at h
    · cases h
    · exact absurd h hflip

theorem heartbeat_keeps {req : HeartbeatTxnRequest} {status : TxnStatus}
    (h : evalHeartbeatTxn rec txn req = .ok (rec', status)) : VerdictKept rec rec' := by
  intro v hv
  obtain ⟨⟨e, he, hs⟩, e', he', hs'⟩ := evalHeartbeatTxn_ok h
  obtain ⟨d, hd, hds⟩ := verdict_eq_some_iff.mp hv
  obtain rfl : e = d := Option.mem_unique he hd
  exact verdict_eq_some_iff.mpr ⟨e', he', by rw [hs', ← hs, hds]⟩

section
variable (rec)

theorem push_keeps (req : PushTxnRequest) : VerdictKept rec (evalPushTxn rec req).1 := by
  intro v hv
  obtain ⟨e, rfl, hs⟩ := verdict_eq_some_iff.mp hv
  cases v <;> simp_all [evalPushTxn, verdict]

theorem recover_keeps (req : RecoverTxnRequest) : VerdictKept rec (evalRecoverTxn rec req).1 := by
  intro v hv
  obtain ⟨e, rfl, hs⟩ := verdict_eq_some_iff.mp hv
  cases v <;> simp_all [evalRecoverTxn, verdict]

end

theorem push_reports {req : PushTxnRequest} {v : Bool}
    (h : (evalPushTxn rec req).2.status = if v then .committed else .aborted) :
    verdict (evalPushTxn rec req).1 = some v := by
  cases v with
  | false =>
    obtain ⟨e, he, hs⟩ := evalPushTxn_aborted h
    exact verdict_eq_some_iff.mpr ⟨e, he, hs⟩
  | true =>
    obtain ⟨e, he, hs⟩ := evalPushTxn_committed h
    exact push_keeps rec req true (verdict_eq_some_iff.mpr ⟨e, he, hs⟩)

end Verdict

structure Honest (rec : Option Transaction) (q : Request) (resp : Response) : Prop where
  push : ∀ p, resp = .pushTxn p → ∀ v : Bool, (p.status = if v then .committed else .aborted) →
    verdict rec = some v
  ended : ∀ key req, q = .endTxn key req → (req.commit = true → req.inFlight = []) →
    verdict rec = some req.commit

theorem Honest.mono {rec rec' : Option Transaction} {q : Request} {resp : Response}
    (hk : VerdictKept rec rec') (h : Honest rec q resp) : Honest rec' q resp where
  push p hp v hv := hk v (h.push p hp v hv)
  ended key req hq hf := hk req.commit (h.ended key req hq hf)

variable {intents seen found : List Intent}

section Batch
variable {h : BatchHeader} {st st' : Ranges} {q : Request} {resp : Response} {ts : Timestamp}
  {value : Option Bytes}

@[simp] theorem mvccPut_record {key : Key}
    {txn : Option TxnMeta} (hp : mvccPut st key ts value txn = .ok st') :
    st'.record = st.record := by
  unfold mvccPut at hp
  split at hp <;> cases hp
  rfl

theorem except_map_error {ε α β : Type} {x : Except ε α} {f : α → β} {e : ε}
    (h : x.map f = .error e) :
    x = .error e := by
  cases x with
  | error e' => simpa [Except.map] using h
  | ok a => cases h

inductive Evaluated (h : BatchHeader) (st : Ranges) : Request → Ranges → Response → Prop
  | laid {q key ts value st' resp} (hl : q.lays = some key) (hresp : ∀ p, resp ≠ .pushTxn p)
      (hput : mvccPut st key ts value h.meta? = .ok st') : Evaluated h st q st' resp
  | ended {key req txn p} (hend : evalEndTxn st.record txn req = .ok p) :
      Evaluated h st (.endTxn key req) { st with record := p.1 } (.endTxn p.2)
  | beaten {key req txn p} (hbeat : evalHeartbeatTxn st.record txn req = .ok p) :
      Evaluated h st (.heartbeatTxn key req) { st with record := p.1 } (.heartbeatTxn p.2)
  | pushed (req : PushTxnRequest) : Evaluated h st (.pushTxn req)
      { st with record := (evalPushTxn st.record req).1 } (.pushTxn (evalPushTxn st.record req).2)
  | resolved {key id status commitTS kh}
    (hres : mvccResolveIntent (st.data key) key id status commitTS = .ok kh) :
      Evaluated h st (.resolveIntent key id status commitTS) (st.setHistory key kh) .resolveIntent
  | recovered (req : RecoverTxnRequest) : Evaluated h st (.recoverTxn req)
      { st with record := (evalRecoverTxn st.record req).1 }
        (.recoverTxn (evalRecoverTxn st.record req).2)

theorem evaluated_of_ok (hq : evalRequest h st q = .ok (st', resp)) :
    Evaluated h st q st' resp := by
  cases q with
  | put key value | delete key =>
    obtain ⟨st₁, h₁, heq⟩ := map_eq_ok.mp hq
    cases heq
    exact .laid rfl (by simp) h₁
  | getForUpdate key =>
    simp only [evalRequest, evalGetForUpdate] at hq
    split at hq
    · cases hq
    split at hq
    · cases hq
    rename_i txn htxn
    obtain ⟨st₁, h₁, heq⟩ := map_eq_ok.mp hq
    cases heq
    rw [mvccLock, ← htxn] at h₁
    exact .laid rfl (by simp) h₁
  | endTxn key req =>
    simp only [evalRequest] at hq
    split at hq
    · cases hq
    obtain ⟨p, h₁, heq⟩ := map_eq_ok.mp hq
    cases heq
    exact .ended h₁
  | heartbeatTxn key req =>
    simp only [evalRequest] at hq
    split at hq
    · cases hq
    obtain ⟨p, h₁, heq⟩ := map_eq_ok.mp hq
    cases heq
    exact .beaten h₁
  | pushTxn req =>
    cases hq
    exact .pushed req
  | resolveIntent key txnID status commitTS =>
    simp only [evalRequest] at hq
    split at hq
    · rename_i kh hr
      cases hq
      exact .resolved hr
    · cases hq
  | recoverTxn req =>
    cases hq
    exact .recovered req

theorem evalRequest_honest (hq : evalRequest h st q = .ok (st', resp)) :
    VerdictKept st.record st'.record ∧ Honest st'.record q resp := by
  cases evaluated_of_ok hq with
  | laid hl hresp hput =>
    rw [mvccPut_record hput]
    refine ⟨VerdictKept.refl _, fun p hp => absurd hp (hresp p), ?_⟩
    rintro key req rfl
    cases hl
  | @ended key req txn p hend =>
    refine ⟨endTxn_keeps hend, by simp, ?_⟩
    intro key' req' heq hf
    cases heq
    exact endTxn_settles hend hf
  | beaten hbeat => exact ⟨heartbeat_keeps hbeat, by simp, by simp⟩
  | pushed req =>
    refine ⟨push_keeps st.record req, ?_, by simp⟩
    intro p hp v hv
    cases hp
    exact push_reports hv
  | resolved hres => exact ⟨VerdictKept.refl _, by simp, by simp⟩
  | recovered req => exact ⟨recover_keeps st.record req, by simp, by simp⟩

theorem mvccPut_conflict {key : Key} {txn : Option TxnMeta}
    (hp : mvccPut st key ts value txn = .error (.storage (.writeIntent intents))) :
    intents ≠ [] := by
  unfold mvccPut at hp
  split at hp
  · cases hp
  rename_i err hw
  cases hp
  exact mvccWrite_writeIntent hw

theorem evalRequest_conflict (hq : evalRequest h st q = .error (.storage (.writeIntent intents))) :
    intents ≠ [] := by
  cases q with
  | put key value | delete key => exact mvccPut_conflict (except_map_error hq)
  | getForUpdate key =>
    simp only [evalRequest, evalGetForUpdate] at hq
    split at hq
    · rename_i err hg
      cases hq
      obtain ⟨intent, _, rfl, _⟩ := mvccGet_writeIntent hg
      simp
    · split at hq
      · cases hq
      · exact mvccPut_conflict (except_map_error hq)
  | endTxn key req =>
    simp only [evalRequest] at hq
    split at hq
    · cases hq
    · exact absurd (except_map_error hq) (evalEndTxn_ne_storage _ _ _ _)
  | heartbeatTxn key req =>
    simp only [evalRequest] at hq
    split at hq
    · cases hq
    simp only [evalHeartbeatTxn] at hq
    split at hq
    · cases hq
    · split at hq <;> cases hq
  | pushTxn req | recoverTxn req => cases hq
  | resolveIntent key txnID status commitTS =>
    simp only [evalRequest] at hq
    split at hq
    · cases hq
    rename_i err hr
    cases hq
    exact absurd hr mvccResolveIntent_ne_writeIntent

theorem collectIntents_of_ne_nil (h : seen ≠ []) : collectIntents seen found ≠ [] := by
  induction found generalizing seen with
  | nil => exact h
  | cons i found ih =>
    apply ih
    dsimp only
    split
    · exact h
    · simp

theorem collectIntents_ne_nil (h : found ≠ []) : collectIntents seen found ≠ [] := by
  obtain ⟨i, rest, rfl⟩ := exists_cons_of_ne_nil h
  change collectIntents _ rest ≠ []
  apply collectIntents_of_ne_nil
  dsimp only
  split
  · rename_i hany
    rintro rfl
    simp at hany
  · simp

variable {qs : List Request}

theorem evalRequests_conflict {conflicts : List Intent} {p : Ranges × List Response}
    (hc : conflicts ≠ []) : evalRequests h qs st conflicts ≠ .ok p := by
  induction qs generalizing st conflicts p with
  | nil =>
    simp [evalRequests]
  | cons q qs ih =>
    intro hqs
    simp only [evalRequests] at hqs
    split at hqs
    · obtain ⟨p', hrest, _⟩ := map_eq_ok.mp hqs
      exact ih hc hrest
    · exact ih (collectIntents_of_ne_nil hc) hqs
    · cases hqs

variable {resps : List Response}

theorem evalRequests_cons_ok (hqs : evalRequests h (q :: qs) st [] = .ok (st', resps)) :
    ∃ st₁ resp resps₁, evalRequest h st q = .ok (st₁, resp) ∧
      evalRequests h qs st₁ [] = .ok (st', resps₁) ∧ resps = resp :: resps₁ := by
  simp only [evalRequests] at hqs
  split at hqs
  · rename_i st₁ resp hq
    obtain ⟨⟨st₂, rs⟩, hrest, heq⟩ := map_eq_ok.mp hqs
    cases heq
    exact ⟨st₁, resp, rs, hq, hrest, rfl⟩
  · rename_i hq
    exact absurd hqs (evalRequests_conflict (collectIntents_ne_nil (evalRequest_conflict hq)))
  · cases hqs

theorem evalRequests_honest (hqs : evalRequests h qs st [] = .ok (st', resps)) :
    VerdictKept st.record st'.record ∧ List.Forall₂ (Honest st'.record) qs resps := by
  induction qs generalizing st resps with
  | nil =>
    cases hqs
    exact ⟨VerdictKept.refl _, List.Forall₂.nil⟩
  | cons q qs ih =>
    obtain ⟨st₁, resp, resps₁, hq, hrest, rfl⟩ := evalRequests_cons_ok hqs
    obtain ⟨hkeep, hhon⟩ := evalRequest_honest hq
    obtain ⟨hkeep', hall⟩ := ih hrest
    exact ⟨hkeep.trans hkeep', List.Forall₂.cons (hhon.mono hkeep') hall⟩

/-- Every intent after a request was there before, or is the one the request lays. -/
def LaidBy (h : BatchHeader) (qs : List Request) (st st' : Ranges) : Prop :=
  ∀ k i, (st'.data k).intent = some i → (st.data k).intent = some i ∨
    (∃ q ∈ qs, q.lays = some k) ∧ ∃ t, h.meta? = some t ∧ i.txn = t ∧ i.timestamp = t.writeTimestamp

theorem setHistory_laidBy {key : Key} {kh : KeyHistory}
    (hi : kh.intent = (st.data key).intent ∨ kh.intent = none ∨
      q.lays = some key ∧ ∃ t history, h.meta? = some t ∧
      kh.intent = some ⟨t, t.writeTimestamp, history⟩) :
    LaidBy h [q] st (st.setHistory key kh) := by
  intro k i hk
  by_cases hkey : k = key
  · subst hkey
    simp only [Ranges.setHistory, Function.update_self] at hk
    rcases hi with hi | hi | ⟨hlays, t, history, ht, hi⟩
    · exact .inl (hi ▸ hk)
    · simp [hi] at hk
    rw [hi] at hk
    cases hk
    exact .inr ⟨⟨q, mem_singleton_self q, hlays⟩, t, ht, rfl, rfl⟩
  · simp only [Ranges.setHistory, Function.update_of_ne hkey] at hk
    exact .inl hk

theorem mvccPut_laidBy {key : Key} (hp : mvccPut st key ts value h.meta? = .ok st')
    (hl : q.lays = some key) :
    LaidBy h [q] st st' := by
  unfold mvccPut at hp
  split at hp
  · rename_i kh hw
    cases hp
    apply setHistory_laidBy
    rcases mvccWrite_ok hw with hi | ⟨t, history, ht, hi⟩
    · exact .inl hi
    · exact .inr (.inr ⟨hl, t, history, ht, hi⟩)
  · cases hp

theorem evalRequest_laidBy (hq : evalRequest h st q = .ok (st', resp)) : LaidBy h [q] st st' := by
  cases evaluated_of_ok hq with
  | laid hl hresp hput => exact mvccPut_laidBy hput hl
  | resolved hres =>
    apply setHistory_laidBy
    rcases mvccResolveIntent_ok hres with hi | ⟨hi, _⟩
    · exact .inl hi
    · exact .inr (.inl hi)
  | _ => exact fun k i hk => .inl hk

theorem evalRequests_laidBy (hqs : evalRequests h qs st [] = .ok (st', resps)) :
    LaidBy h qs st st' := by
  induction qs generalizing st resps with
  | nil =>
    cases hqs
    exact fun k i hk => .inl hk
  | cons q qs ih =>
    obtain ⟨st₁, resp, resps₁, hq, hrest, rfl⟩ := evalRequests_cons_ok hqs
    intro k i hk
    rcases ih hrest k i hk with hk | ⟨⟨q', hq', hlays⟩, ht⟩
    · rcases evalRequest_laidBy hq k i hk with hk | ⟨⟨q', hq', hlays⟩, ht⟩
      · exact .inl hk
      · rw [mem_singleton] at hq'
        exact .inr ⟨⟨q, mem_cons_self, hq' ▸ hlays⟩, ht⟩
    · exact .inr ⟨⟨q', mem_cons_of_mem q hq', hlays⟩, ht⟩

end Batch

section WriteBatch
variable {gcThreshold : Timestamp} {st st' : Ranges} {ba : BatchRequest} {br : BatchResponse}

section
variable {h : BatchHeader} (hc : evalCreate gcThreshold st h = .ok st')
include hc

theorem evalCreate_cases :
    h.createTxnRecord = false ∧ st' = st ∨ h.createTxnRecord = true ∧ ∃ txn, h.txn = some txn ∧
      createTxnRecord gcThreshold st.record txn = .ok { txn with status := .pending } ∧
      st' = { st with record := some { txn with status := .pending } } := by
  unfold evalCreate at hc
  split at hc
  · rename_i hcreate
    split at hc
    · cases hc
    rename_i txn htxn
    obtain ⟨r, hr, rfl⟩ := map_eq_ok.mp hc
    obtain ⟨_, _, rfl⟩ := createTxnRecord_ok_iff.mp hr
    exact .inr ⟨hcreate, txn, htxn, hr, rfl⟩
  · rename_i hcreate
    cases hc
    exact .inl ⟨Bool.not_eq_true _ ▸ hcreate, rfl⟩

theorem evalCreate_ok : st'.data = st.data ∧ VerdictKept st.record st'.record := by
  rcases evalCreate_cases hc with ⟨_, rfl⟩ | ⟨_, txn, _, hr, rfl⟩
  · exact ⟨rfl, VerdictKept.refl _⟩
  · refine ⟨rfl, ?_⟩
    intro v hv
    simp [verdict_create hr] at hv

end

theorem evalWriteBatch_ok (hb : evalWriteBatch gcThreshold st ba = .ok (st', br)) :
    VerdictKept st.record st'.record ∧
      List.Forall₂ (Honest st'.record) ba.requests br.responses ∧
      LaidBy ba.header ba.requests st st' := by
  unfold evalWriteBatch at hb
  split at hb
  · cases hb
  rename_i st₁ hc
  obtain ⟨hdata, hkeep⟩ := evalCreate_ok hc
  obtain ⟨⟨st₂, resps⟩, hr, heq⟩ := map_eq_ok.mp hb
  cases heq
  obtain ⟨hkeep', hhon⟩ := evalRequests_honest hr
  refine ⟨hkeep.trans hkeep', hhon, ?_⟩
  intro k i hk
  rw [← hdata]
  exact evalRequests_laidBy hr k i hk

theorem evalWriteBatch_endTxn_aborted {h : BatchHeader} {key : Key} {m : String}
    (hcreate : h.createTxnRecord = false)
    (hb : evalWriteBatch gcThreshold st ⟨h, [.endTxn key req]⟩ = .error (.txnAborted m)) :
    verdict st.record = some false := by
  simp only [evalWriteBatch, evalCreate, hcreate, Bool.false_eq_true, if_false] at hb
  have hb := except_map_error hb
  simp only [evalRequests] at hb
  split at hb
  · cases hb
  · rename_i intents _
    cases hcol : collectIntents [] intents <;> simp [hcol, evalRequests] at hb
  rename_i err _ hq
  cases hb
  simp only [evalRequest] at hq
  split at hq
  · cases hq
  · exact endTxn_txnAborted (except_map_error hq)

end WriteBatch

end Datax
