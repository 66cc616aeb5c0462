import Datax.Kvclient.TxnOps

/-!
# Tracked writes and the transaction record

A transaction is anchored on the first key it tries to write: the batch that writes it creates the
record, and `Commit` without an anchor has nothing to do. The run takes one transaction through its
operations, which may fail at any point.
-/

namespace Datax.Anchoring

open IntentRequest

inductive CommitPath where
  | readOnly | endTxn | failed
deriving DecidableEq

structure Running where
  session : Session
  ranges : Ranges
  -- how `Commit` ended
  outcome : Option CommitPath := none

inductive Action where
  | op (o : Op) (attempts : List Attempt) (ret : Returned)
  | savepoint (name : String)
  | release (name : String)
  -- the keys whose `RollbackIntent` was applied
  | rollbackTo (name : String) (applied : List Key)
  | commit (refreshes : List (Timestamp × (ReadSpan → Bool)))
  | heartbeat (req : HeartbeatTxnRequest)
  | other (h : BatchHeader) (q : Request)

/-- A request of someone else: it is in no batch of the transaction and finalizes
nothing. -/
def foreign (id : UUID) (h : BatchHeader) (q : Request) : Bool :=
  h.txn.all (fun t => t.id != id) && match q with
    | .put _ _ | .delete _ | .getForUpdate _ | .pushTxn _ | .resolveIntent _ _ _ _ => true
    | _ => false

def commit (refreshes : List (Timestamp × (ReadSpan → Bool))) (s : Running) : Option Running :=
  if s.session.finished then none
  else if !s.session.anchored then
    some { s with session := { s.session with finished := true }, outcome := some .readOnly }
  else
    let t := s.session.refreshAll refreshes
    match evalEndTxn s.ranges.record t.txn { commit := true, intentKeys := t.writes } with
    | .ok (rec, _) =>
      some { session := { t with finished := true }
             ranges := { s.ranges with record := rec }
             outcome := some .endTxn }
    | .error _ => some { s with session := { t with finished := true }, outcome := some .failed }

def step (s : Running) : Action → Option Running
  | .op o attempts ret =>
    if s.outcome.isSome then none
    else (runOp o attempts ret s.session s.ranges).map fun p =>
      { s with session := p.1, ranges := p.2 }
  | .savepoint name =>
    if s.outcome.isSome then none
    else (s.session.savepoint name).toOption.map fun t => { s with session := t }
  | .release name =>
    if s.outcome.isSome then none
    else (s.session.releaseSavepoint name).toOption.map fun t => { s with session := t }
  | .rollbackTo name applied =>
    match s.session.find name with
    | none => none
    | some sp =>
      if s.outcome.isSome || s.session.finished || !(applied.all fun k =>
        s.session.writes.contains k) then none
      else
        let sent : Except String Unit :=
          if s.session.writes.all fun k => applied.contains k then .ok ()
          else .error "not all applied"
        let ranges := rollbackIntents s.session.txn.id sp.seq applied s.ranges
        match s.session.rollbackToSavepoint name sent with
        | .ok t => some { s with session := t, ranges := ranges }
        | .error _ => some { s with ranges := ranges }
  | .commit refreshes => if s.outcome.isSome then none else commit refreshes s
  | .heartbeat req =>
    (evalHeartbeatTxn s.ranges.record s.session.txn req).toOption.map fun p =>
      { s with ranges := { s.ranges with record := p.1 } }
  | .other h q =>
    if foreign s.session.txn.id h q then
      (evalRequest h s.ranges q).toOption.map fun p => { s with ranges := p.1 }
    else none

def Tracks (s : Running) : Prop :=
  s.session.writes ≠ [] → s.session.anchored = true ∧ s.ranges.record.isSome = true

def Untouched (id : UUID) (st : Ranges) : Prop :=
  ∀ k intent, (st.data k).intent = some intent → intent.txn.id ≠ id

/-- A `Commit` that went through committed the whole write set, and one that had
nothing to do left no intent behind. -/
def CommitsAll (s : Running) : Prop :=
  (s.outcome = some .endTxn → ∃ r, s.ranges.record = some r ∧ r.status = .committed ∧
    ∀ k ∈ s.session.writes, k ∈ r.intentKeys) ∧
  (s.outcome = some .readOnly → Untouched s.session.txn.id s.ranges)

def Op.spans : Op → Bool
  | .scanForUpdate start stop _ => start < stop
  | _ => true

/-- Until the transaction is anchored, every write includes the first key it tried
to write, and `Commit` waits. -/
def anchorsFirst (s : Running) : Action → Bool
  | .op o _ _ =>
    s.session.anchored || o.keys == [] ||
      (if s.session.txn.key = [] then o.keys.head? != some []
        else o.keys.contains s.session.txn.key) && Op.spans o
  | .commit _ => s.session.anchored || s.session.txn.key == []
  | _ => true

section Records
variable {o : Op} {s s' : Session} {acks : List Ack}

/-- A successful operation records at least its own keys and changes nothing else of
the write set, the anchor and the savepoints. -/
structure Recorded (o : Op) (s s' : Session) : Prop where
  txn : ∃ t : Session, Session.Moved s t ∧
    ∃ kys : List Key, s'.toTxn = t.toTxn.recordWrites kys ∧ ∀ k ∈ o.keys, k ∈ kys
  savepoints : s'.savepoints = s.savepoints

theorem Recorded.of_moved {t u : Session} {kys : List Key} (hu : Session.Moved s u)
    (ht : t.toTxn = u.toTxn) (hsp : t.savepoints = s.savepoints) (hkys : ∀ k ∈ o.keys, k ∈ kys) :
    Recorded o s (t.recordWrites kys) where
  txn := by
    refine ⟨u, hu, kys, ?_, hkys⟩
    change t.toTxn.recordWrites kys = _
    rw [ht]
  savepoints := hsp

theorem recorded_of_record (h : o.record s acks = some s') : Recorded o s s' := by
  have hpoint : ∀ {key q}, Op.record.point acks s key q = some s' → o.keys = [key] →
      Recorded o s s' := by
    intro key q hp hkeys
    unfold Op.record.point at hp
    split_ifs at hp
    cases hp
    exact Recorded.of_moved (s.adopt_moved acks) rfl rfl (by simp [hkeys])
  have hlocked : ∀ {kys}, Op.record.locked acks s kys = some s' → o.keys = kys →
      Recorded o s s' := by
    intro kys hp hkeys
    unfold Op.record.locked at hp
    split_ifs at hp
    cases hp
    obtain ⟨htxn, hsp⟩ := recordReads_keeps (s.adopt acks) (kys.map fun k => ⟨k, none⟩)
    exact Recorded.of_moved (s.adopt_moved acks) htxn hsp (by simp [hkeys])
  cases o with
  | put key value | delete key | increment key amount => exact hpoint h rfl
  | getForUpdate key | getBatchForUpdate keys => exact hlocked h rfl
  | runBatch writes =>
    rw [Op.record] at h
    split_ifs at h
    cases h
    exact Recorded.of_moved (s.adopt_moved acks) rfl rfl fun k hk => hk
  | scanForUpdate start stop maxRows =>
    obtain ⟨p, _, rfl⟩ := Option.map_eq_some_iff.mp h
    refine Recorded.of_moved (Session.Moved.refl s) (recordRead_toTxn _ _)
      (Session.recordRead_savepoints _ _) ?_
    intro k hk
    exact List.mem_cons.mpr (.inl (List.mem_singleton.mp hk))

theorem exists_ack {requests : List IntentRequest} {q : IntentRequest} {key : Key}
    (h : answered requests acks = true) (hq : q ∈ requests) (hcov : q.covers key = true) :
    ∃ a ∈ acks, a.part.requests.any (covers key) = true := by
  have hall := List.all_eq_true.mp h q hq
  obtain ⟨a, ha, hin⟩ := List.any_eq_true.mp hall
  refine ⟨a, ha, List.any_eq_true.mpr ⟨q, ?_, hcov⟩⟩
  simpa using hin

theorem covered_of_record {key : Key} (h : o.record s acks = some s') (hkey : key ∈ o.keys)
    (hspan : Op.spans o = true) : ∃ a ∈ acks, a.part.requests.any (covers key) = true := by
  have hpoint : ∀ {k q}, Op.record.point acks s k q = some s' → q.covers key = true →
      ∃ a ∈ acks, a.part.requests.any (covers key) = true := by
    intro k q hp hcov
    unfold Op.record.point at hp
    split_ifs at hp with hans
    exact exists_ack hans (List.mem_singleton.mpr rfl) hcov
  have hlocked : ∀ {kys}, Op.record.locked acks s kys = some s' → key ∈ kys →
      ∃ a ∈ acks, a.part.requests.any (covers key) = true := by
    intro kys hp hk
    unfold Op.record.locked at hp
    split_ifs at hp with hans
    exact exists_ack hans (List.mem_map_of_mem hk) (by simp [covers])
  cases o with
  | put k value | delete k | increment k amount =>
    exact hpoint h (beq_iff_eq.mpr (List.mem_singleton.mp hkey).symm)
  | getForUpdate k | getBatchForUpdate keys => exact hlocked h hkey
  | runBatch writes =>
    rw [Op.record] at h
    split_ifs at h with hans
    obtain ⟨w, hw, rfl⟩ := List.mem_map.mp hkey
    refine exists_ack hans (List.mem_map_of_mem hw) ?_
    unfold intentRequest
    cases w.2 <;> simp [covers]
  | scanForUpdate start stop maxRows =>
    obtain rfl : key = start := List.mem_singleton.mp hkey
    have hlt : key < stop := by simpa [Op.spans] using hspan
    obtain ⟨p, hp, _⟩ := Option.map_eq_some_iff.mp h
    cases acks with
    | nil => simp [stitch, hlt] at hp
    | cons a rest =>
      refine ⟨a, List.mem_cons_self, ?_⟩
      unfold stitch at hp
      split at hp
      · rename_i start segEnd maxRows' stored res hreq _
        split at hp
        · rename_i hseg
          obtain ⟨rfl, hend, _⟩ := hseg
          simp [hreq, covers, hend]
        · cases hp
      · cases hp

end Records

end Datax.Anchoring
