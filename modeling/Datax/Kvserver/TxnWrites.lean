import Datax.Kvserver.WriteBatch
import Datax.Storage.MvccScan

/-!
# The writing requests of a client transaction

Increments and locking reads lay intents too. A locking scan reads its span and pins every row it
returns; the keys the range stores are an argument of the request, a history being a function of all
keys. A batch follows the write path: the record, then the requests in order, conflicts collected.
-/

namespace Datax

open Fallible

/-- The keys at which a range stores anything, in order. -/
structure StoredKeys where
  keys : List Key
  sorted : keys.Pairwise (· < ·)
deriving DecidableEq

inductive IntentRequest where
  | put (key : Key) (value : Bytes)
  | delete (key : Key)
  | increment (key : Key) (amount : Int)
  | getForUpdate (key : Key)
  | scanForUpdate (start stop : Key) (maxRows : Nat) (stored : StoredKeys)
deriving DecidableEq

inductive IntentResponse where
  | put
  | delete
  | increment (newValue : Int)
  | get (value : Option Bytes)
  | scan (result : ScanResult)
deriving DecidableEq

def IntentRequest.key : IntentRequest → Key
  | put key _ => key
  | delete key => key
  | increment key _ => key
  | getForUpdate key => key
  | scanForUpdate start _ _ _ => start

def IntentRequest.covers (key : Key) : IntentRequest → Bool
  | put k _ => k == key
  | delete k => k == key
  | increment k _ => k == key
  | getForUpdate k => k == key
  | scanForUpdate start stop _ _ => start ≤ key && key < stop

def Ranges.engine (st : Ranges) (stored : StoredKeys) : Engine where
  entries := stored.keys.map fun k => (k, st.data k)
  sorted := List.pairwise_map.mpr stored.sorted

def maxTimestamp : Timestamp := ⟨2 ^ 63 - 1, ⟨2 ^ 31 - 1, by decide⟩⟩

/-- Eight mebibytes. -/
def scanTargetBytes : Nat := 8388608

def parseDigits : Bytes → Option Nat
  | [] => none
  | ds =>
    ds.foldlM
      (fun n d => if 48 ≤ d.val ∧ d.val ≤ 57 then some (10 * n + (d.val - 48)) else none) 0

def parseInt (s : Bytes) : Option Int :=
  match s with
  | 45 :: ds => (parseDigits ds).bind fun n => if n ≤ 2 ^ 63 then some (-n) else none
  | 43 :: ds => (parseDigits ds).bind fun n => if n < 2 ^ 63 then some n else none
  | ds => (parseDigits ds).bind fun n => if n < 2 ^ 63 then some n else none

theorem parseInt_range {s : Bytes} {v : Int} (h : parseInt s = some v) :
    -2 ^ 63 ≤ v ∧ v < 2 ^ 63 := by
  unfold parseInt at h
  split at h
  · obtain ⟨n, _, hn⟩ := Option.bind_eq_some_iff.mp h
    split_ifs at hn with hle
    cases hn
    omega
  · obtain ⟨n, _, hn⟩ := Option.bind_eq_some_iff.mp h
    split_ifs at hn with hlt
    cases hn
    omega
  · obtain ⟨n, _, hn⟩ := Option.bind_eq_some_iff.mp h
    split_ifs at hn with hlt
    cases hn
    omega

def formatInt (v : Int) : Bytes := (toString v).toList.map fun c => Fin.ofNat 256 c.toNat

def wrapInt64 (v : Int) : Int := (v + 2 ^ 63) % 2 ^ 64 - 2 ^ 63

def evalIncrement (st : Ranges) (h : BatchHeader) (key : Key) (amount : Int) :
    Except KVError (Ranges × IntentResponse) :=
  -- the latest value, not a snapshot
  match mvccGet (st.data key) key maxTimestamp { txn := h.meta? } with
  | .error err => .error (.storage err)
  | .ok cur =>
    match cur.elim (some 0) parseInt with
    | none => .error (.plain ("increment on non-numeric value at " ++ toString key))
    | some v =>
      let v := wrapInt64 (v + amount)
      (mvccPut st key (writeTimestamp h) (some (formatInt v)) h.meta?).map fun st =>
        (st, .increment v)

def lockRows (readTS : Timestamp) (txn : TxnMeta) :
    List KeyValue → Ranges → List Intent → Except KVError Ranges
  | [], st, [] => .ok st
  | [], _, conflicts => .error (.storage (.writeIntent conflicts))
  | kv :: rest, st, conflicts =>
    match mvccLock st kv.key readTS (some kv.value) txn with
    | .ok st' => lockRows readTS txn rest st' conflicts
    | .error (.storage (.writeIntent intents)) =>
      lockRows readTS txn rest st (collectIntents conflicts intents)
    | .error err => .error err

def evalScanForUpdate (st : Ranges) (h : BatchHeader) (start stop : Key) (maxRows : Nat)
    (stored : StoredKeys) : Except KVError (Ranges × IntentResponse) :=
  match MVCCScan (st.engine stored) start stop (readTimestamp h) maxRows
      { txn := h.meta?, targetBytes := scanTargetBytes } with
  | .error err => .error (.storage err)
  | .ok res =>
    match h.meta? with
    | none => .error (.plain "locking scan outside a transaction")
    | some txn => (lockRows (readTimestamp h) txn res.kvs st []).map fun st => (st, .scan res)

def evalIntentRequest (h : BatchHeader) (st : Ranges) :
    IntentRequest → Except KVError (Ranges × IntentResponse)
  | .put key value =>
    (mvccPut st key (writeTimestamp h) (some value) h.meta?).map fun st => (st, .put)
  | .delete key => (mvccPut st key (writeTimestamp h) none h.meta?).map fun st => (st, .delete)
  | .increment key amount => evalIncrement st h key amount
  | .getForUpdate key =>
    match mvccGet (st.data key) key (readTimestamp h) { txn := h.meta? } with
    | .error err => .error (.storage err)
    | .ok value =>
      match h.meta? with
      | none => .error (.plain "locking read outside a transaction")
      | some txn => (mvccLock st key (readTimestamp h) value txn).map fun st => (st, .get value)
  | .scanForUpdate start stop maxRows stored => evalScanForUpdate st h start stop maxRows stored

def evalIntentRequests (h : BatchHeader) :
    List IntentRequest → Ranges → List Intent → Except KVError (Ranges × List IntentResponse)
  | [], st, [] => .ok (st, [])
  | [], _, conflicts => .error (.storage (.writeIntent conflicts))
  | q :: qs, st, conflicts =>
    match evalIntentRequest h st q with
    | .ok (st', resp) => (evalIntentRequests h qs st' conflicts).map fun p => (p.1, resp :: p.2)
    | .error (.storage (.writeIntent intents)) =>
      evalIntentRequests h qs st (collectIntents conflicts intents)
    | .error err => .error err

def evalTxnWrites (gcThreshold : Timestamp) (st : Ranges) (h : BatchHeader)
    (qs : List IntentRequest) :
    Except KVError (Ranges × List IntentResponse) :=
  match evalCreate gcThreshold st h with
  | .error err => .error err
  | .ok st => evalIntentRequests h qs st []

variable {conflicts : List Intent} {q : IntentRequest} {qs : List IntentRequest}
  {resps : List IntentResponse} {readTS : Timestamp} {txn : TxnMeta} {kvs : List KeyValue}

section Record
variable {h : BatchHeader} {st st' : Ranges}

theorem lockRows_record (hl : lockRows readTS txn kvs st conflicts = .ok st') :
    st'.record = st.record := by
  induction kvs generalizing st conflicts with
  | nil =>
    cases conflicts with
    | nil =>
      cases hl
      rfl
    | cons i is => cases hl
  | cons kv rest ih =>
    unfold lockRows at hl
    split at hl
    · rename_i st₁ hst₁
      rw [ih hl]
      exact mvccPut_record hst₁
    · exact ih hl
    · cases hl

theorem evalIntentRequest_record {resp : IntentResponse}
    (hq : evalIntentRequest h st q = .ok (st', resp)) : st'.record = st.record := by
  have hput : ∀ {key ts value resp'},
      (mvccPut st key ts value h.meta?).map (fun st => (st, resp')) =
      .ok (st', resp) → st'.record = st.record := by
    intro key ts value resp' hp
    obtain ⟨st₁, hst₁, heq⟩ := map_eq_ok.mp hp
    cases heq
    exact mvccPut_record hst₁
  cases q with
  | put key value | delete key => exact hput hq
  | increment key amount =>
    rw [evalIntentRequest, evalIncrement] at hq
    split at hq
    · cases hq
    split at hq
    · cases hq
    · exact hput hq
  | getForUpdate key =>
    rw [evalIntentRequest] at hq
    split at hq
    · cases hq
    split at hq
    · cases hq
    obtain ⟨st₁, hst₁, heq⟩ := map_eq_ok.mp hq
    cases heq
    exact mvccPut_record hst₁
  | scanForUpdate start stop maxRows stored =>
    rw [evalIntentRequest, evalScanForUpdate] at hq
    split at hq
    · cases hq
    split at hq
    · cases hq
    obtain ⟨st₁, hst₁, heq⟩ := map_eq_ok.mp hq
    cases heq
    exact lockRows_record hst₁

theorem evalIntentRequests_record (hq : evalIntentRequests h qs st conflicts = .ok (st', resps)) :
    st'.record = st.record := by
  induction qs generalizing st conflicts resps with
  | nil =>
    cases conflicts with
    | nil =>
      cases hq
      rfl
    | cons i is => cases hq
  | cons q qs ih =>
    unfold evalIntentRequests at hq
    split at hq
    · rename_i st₁ resp hst₁
      obtain ⟨p, hp, heq⟩ := map_eq_ok.mp hq
      cases heq
      rw [ih hp]
      exact evalIntentRequest_record hst₁
    · exact ih hq
    · cases hq

theorem evalTxnWrites_record {gcThreshold : Timestamp}
    (hq : evalTxnWrites gcThreshold st h qs = .ok (st', resps)) :
    (h.createTxnRecord = false ∧ st'.record = st.record) ∨
      h.createTxnRecord = true ∧ ∃ r, st'.record = some r ∧ r.status = .pending := by
  unfold evalTxnWrites at hq
  split at hq
  · cases hq
  rename_i st₁ hst₁
  rw [evalIntentRequests_record hq]
  rcases evalCreate_cases hst₁ with ⟨hc, rfl⟩ | ⟨hc, txn, _, _, rfl⟩
  · exact .inl ⟨hc, rfl⟩
  · exact .inr ⟨hc, _, rfl, rfl⟩

end Record

section Conflicts
variable {h : BatchHeader} {st st' : Ranges}

theorem evalIntentRequests_conflict {p : Ranges × List IntentResponse} (hc : conflicts ≠ []) :
    evalIntentRequests h qs st conflicts ≠ .ok p := by
  intro hq
  induction qs generalizing st conflicts p with
  | nil =>
    obtain ⟨c, cs, rfl⟩ := List.exists_cons_of_ne_nil hc
    cases hq
  | cons q qs ih =>
    unfold evalIntentRequests at hq
    split at hq
    · obtain ⟨r, hr, _⟩ := map_eq_ok.mp hq
      exact ih hc hr
    · exact ih (collectIntents_of_ne_nil hc) hq
    · cases hq

variable {intents : List Intent}

theorem scanLoop_conflict {ts : Timestamp} {max : Nat} {opts : MVCCGetOptions}
    {es : List (Key × KeyHistory)} {state : ScanState}
    (hscan : scanLoop ts max opts es state = .error (.writeIntent intents)) : intents ≠ [] := by
  induction es generalizing state with
  | nil =>
    unfold scanLoop at hscan
    split_ifs at hscan with hne
    cases hscan
    exact hne
  | cons p es ih =>
    unfold scanLoop at hscan
    split at hscan
    · rename_i e he
      cases hscan
      exact mvccScanKey_conflict he
    · dsimp only at hscan
      split_ifs at hscan
      exact ih hscan
    · exact ih hscan

theorem lockRows_conflict
    (hl : lockRows readTS txn kvs st conflicts = .error (.storage (.writeIntent intents))) :
    intents ≠ [] := by
  induction kvs generalizing st conflicts with
  | nil =>
    cases conflicts with
    | nil => cases hl
    | cons i is =>
      cases hl
      exact List.cons_ne_nil _ _
  | cons kv rest ih =>
    unfold lockRows at hl
    split at hl
    · exact ih hl
    · exact ih hl
    rename_i err hne hlock
    cases hl
    exact absurd rfl (hne intents)

theorem evalIntentRequest_conflict
    (hq : evalIntentRequest h st q = .error (.storage (.writeIntent intents))) : intents ≠ [] := by
  have hput : ∀ {key ts value txn resp}, (mvccPut st key ts value txn).map (fun st => (st, resp)) =
      (.error (.storage (.writeIntent intents)) : Except KVError (Ranges × IntentResponse)) →
        intents ≠ [] := by
    intro key ts value txn resp hp
    cases hw : mvccPut st key ts value txn with
    | ok st₁ =>
      rw [hw] at hp
      cases hp
    | error err =>
      rw [hw] at hp
      cases hp
      exact mvccPut_conflict hw
  have hget : ∀ {key ts opts}, mvccGet (st.data key) key ts opts = .error (.writeIntent intents) →
      intents ≠ [] := by
    intro key ts opts hg
    obtain ⟨i, _, rfl, _⟩ := mvccGet_writeIntent hg
    exact List.cons_ne_nil _ _
  cases q with
  | put key value | delete key => exact hput hq
  | increment key amount =>
    rw [evalIntentRequest, evalIncrement] at hq
    split at hq
    · rename_i err hg
      cases hq
      exact hget hg
    · split at hq
      · cases hq
      · exact hput hq
  | getForUpdate key =>
    rw [evalIntentRequest] at hq
    split at hq
    · rename_i err hg
      cases hq
      exact hget hg
    · split at hq
      · cases hq
      · exact hput hq
  | scanForUpdate start stop maxRows stored =>
    rw [evalIntentRequest, evalScanForUpdate] at hq
    split at hq
    · rename_i err hs
      cases hq
      exact scanLoop_conflict hs
    · split at hq
      · cases hq
      rename_i res _ _ txn _
      cases hl : lockRows (readTimestamp h) txn res.kvs st [] with
      | ok st₁ =>
        rw [hl] at hq
        cases hq
      | error err =>
        rw [hl] at hq
        cases hq
        exact lockRows_conflict hl

theorem evalIntentRequests_cons_iff : evalIntentRequests h (q :: qs) st [] = .ok (st', resps) ↔
      ∃ st₁ resp resps₁, evalIntentRequest h st q = .ok (st₁, resp) ∧
        evalIntentRequests h qs st₁ [] = .ok (st', resps₁) ∧ resps = resp :: resps₁ := by
  constructor
  · intro hqs
    unfold evalIntentRequests at hqs
    split at hqs
    · rename_i st₁ resp hq
      obtain ⟨p, hp, heq⟩ := map_eq_ok.mp hqs
      cases heq
      exact ⟨st₁, resp, p.2, hq, hp, rfl⟩
    · rename_i intents hq
      exact absurd hqs
        (evalIntentRequests_conflict (collectIntents_ne_nil (evalIntentRequest_conflict hq)))
    · cases hqs
  · rintro ⟨st₁, resp, resps₁, hq, hqs, rfl⟩
    unfold evalIntentRequests
    rw [hq]
    dsimp only
    rw [hqs]
    rfl

end Conflicts

end Datax
