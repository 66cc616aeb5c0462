import Datax.Kvserver.WriteBatch

/-!
# One-phase commits

A batch that ends in a committing `EndTxn` and declares all the writes is evaluated in one proposal:
the writes land as committed versions, without record and intents. The classic commit creates the
record with the intents, flips it and resolves them. Both refuse a foreign intent or a version at or
above the timestamp; each has a refusal of its own.
-/

namespace Datax

open Function Request
open Shared (Chain)

def Request.written : Request → Option (Key × Option Bytes)
  | put key value => some (key, some value)
  | delete key => some (key, none)
  | _ => none

def is1PC (ba : BatchRequest) : Bool :=
  ba.header.txn.isSome && decide (2 ≤ ba.requests.length) && (match ba.requests.getLast? with
      | some (.endTxn _ last) => last.commit && last.all
      | _ => false) &&
    ba.requests.dropLast.all fun q => q.written.isSome

def BatchRequest.writes (ba : BatchRequest) : List (Key × Option Bytes) :=
  ba.requests.filterMap written

def BatchRequest.onePhase (ba : BatchRequest) (txn : Transaction) : OnePhaseBatch :=
  ⟨txn, ba.writes⟩

def Request.ofWrite : Key × Option Bytes → Request
  | (key, some value) => .put key value
  | (key, none) => .delete key

/-- The commit of the same writes with a record and intents: the batch that writes
them, the `EndTxn`, and the resolution of every intent. -/
def classicCommit (gcThreshold : Timestamp) (st : Ranges) (ba : BatchRequest) (txn : Transaction) :
    Except KVError (Ranges × EndTxnResponse) :=
  let kys := ba.requests.dropLast.map key
  match evalWriteBatch gcThreshold st
      ⟨{ ba.header with createTxnRecord := true }, ba.requests.dropLast⟩ with
  | .error err => .error err
  | .ok (st, _) =>
    match evalEndTxn st.record txn { commit := true, intentKeys := kys } with
    | .error err => .error err
    | .ok (rec, resp) =>
      match evalWriteBatch gcThreshold { st with record := rec }
          ⟨{}, kys.map fun k => .resolveIntent k txn.id .committed resp.commitTimestamp⟩ with
      | .error err => .error err
      | .ok (st, _) => .ok (st, resp)

/-- Both paths refuse, or both commit at one timestamp and leave the same histories,
read alike by everyone at every timestamp. -/
def SameCommit (one : Except KVError ((Key → KeyHistory) × EndTxnResponse))
    (classic : Except KVError (Ranges × EndTxnResponse)) : Prop :=
  match one, classic with
  | .ok (data, resp), .ok (st, resp') =>
    (∀ key, (data key).versions = (st.data key).versions) ∧
      resp.commitTimestamp = resp'.commitTimestamp ∧
      ∀ key ts opts, mvccGet (data key) key ts opts = mvccGet (st.data key) key ts opts
  | .error _, .error _ => True
  | _, _ => False

/-- The transaction may lay an intent: it holds the key's intent already, or there
is none and no version at or above its timestamp. -/
def KeyHistory.Writable (h : KeyHistory) (txn : TxnMeta) : Prop :=
  match h.intent with
  | some intent => intent.txn.id = txn.id
  | none => h.Below txn.writeTimestamp

structure Admissible (rec : Option Transaction) (data : Key → KeyHistory) (ba : OnePhaseBatch) :
    Prop where
  equal : ba.txn.readTimestamp = ba.txn.writeTimestamp
  open_ : ∀ r ∈ rec, r.status ≠ .aborted
  writable : ∀ w ∈ ba.writes, (data w.1).Writable ba.txn.toTxnMeta

/-- What only the one-phase path asks: no key twice, and no intent of the
transaction's own. -/
structure Single (data : Key → KeyHistory) (ba : OnePhaseBatch) : Prop where
  nodup : (ba.writes.map Prod.fst).Nodup
  bare : ∀ w ∈ ba.writes, (data w.1).intent = none

/-- What only the classic path asks: the record may be created. -/
structure Creatable (gcThreshold : Timestamp) (rec : Option Transaction) (txn : Transaction) :
    Prop where
  young : ¬ Predates gcThreshold txn.minTimestamp
  unsettled : ∀ r ∈ rec, r.status ≠ .committed

variable {w : Key × Option Bytes}

section Shape
variable {ba : BatchRequest}

theorem ofWrite_written {q : Request} (h : q.written = some w) : ofWrite w = q := by
  cases q with
  | put key value | delete key =>
    cases h
    rfl
  | _ => cases h

theorem key_ofWrite (w : Key × Option Bytes) : (ofWrite w).key = w.1 := by
  obtain ⟨key, value⟩ := w
  cases value <;> rfl

theorem map_ofWrite_filterMap {qs : List Request} (h : ∀ q ∈ qs, q.written.isSome = true) :
    (qs.filterMap written).map ofWrite = qs := by
  induction qs with
  | nil => rfl
  | cons q qs ih =>
    obtain ⟨w, hw⟩ := Option.isSome_iff_exists.mp (h q List.mem_cons_self)
    rw [List.filterMap_cons_some hw, List.map_cons, ofWrite_written hw,
      ih fun p hp => h p (List.mem_cons_of_mem q hp)]

theorem dropLast_of_is1PC (h : is1PC ba = true) : ba.requests.dropLast = ba.writes.map ofWrite := by
  simp only [is1PC, Bool.and_eq_true, decide_eq_true_eq] at h
  obtain ⟨⟨⟨_, _⟩, hlast⟩, hwrites⟩ := h
  cases hl : ba.requests.getLast? with
  | none =>
    simp [hl] at hlast
  | some q =>
    rw [hl] at hlast
    cases q with
    | endTxn key req =>
      have hsplit : ba.requests = ba.requests.dropLast ++ [.endTxn key req] :=
        (List.dropLast_append_getLast? _ hl).symm
      have hw : ba.writes = ba.requests.dropLast.filterMap written := by
        rw [BatchRequest.writes, hsplit, List.filterMap_append, List.dropLast_concat]
        simp [written]
      rw [hw, map_ofWrite_filterMap (List.all_eq_true.mp hwrites)]
    | _ => cases hlast

end Shape

section Histories
variable {h h' : KeyHistory} {key : Key} {value : Option Bytes} {txn : TxnMeta} {ts : Timestamp}

section
variable (h) (key)

theorem mvccWrite_cases (value : Option Bytes) (txn : TxnMeta) :
    (h.Writable txn ∧ ∃ h', mvccWrite h key txn.writeTimestamp value (some txn) = .ok h' ∧
      h'.Writable txn) ∨ ¬ h.Writable txn ∧
    ∃ err, mvccWrite h key txn.writeTimestamp value (some txn) = .error err := by
  cases hi : h.intent with
  | some intent =>
    have hw : h.Writable txn ↔ intent.txn.id = txn.id := by simp only [KeyHistory.Writable, hi]
    by_cases hid : intent.txn.id = txn.id
    · left
      refine ⟨hw.mpr hid, ?_⟩
      cases hm : mvccWrite h key txn.writeTimestamp value (some txn) with
      | ok h' =>
        obtain ⟨⟨history, hi'⟩, _⟩ := mvccWrite_txn_ok hm
        exact ⟨h', rfl, by simp only [KeyHistory.Writable, hi']⟩
      | error err =>
        simp only [mvccWrite, hi, if_pos hid] at hm
        cases hm
    · right
      refine ⟨fun h => hid (hw.mp h), .writeIntent [⟨key, intent.txn⟩], ?_⟩
      simp only [mvccWrite, hi, if_neg hid]
  | none =>
    have hw : h.Writable txn ↔ h.Below txn.writeTimestamp := by simp only [KeyHistory.Writable, hi]
    by_cases hb : h.Below txn.writeTimestamp
    · left
      refine ⟨hw.mpr hb, _, mvccWrite_of_below hi hb, ?_⟩
      simp only [KeyHistory.Writable, layIntent]
    · right
      obtain ⟨v, hv, hle⟩ := tooOld_of_not_below hb
      refine ⟨fun h => hb (hw.mp h), .writeTooOld txn.writeTimestamp v.1.next, ?_⟩
      simp [mvccWrite, hi, hv, hle]

theorem mvccWriteCommitted_cases (ts : Timestamp) (value : Option Bytes) :
    ((h.intent = none ∧ h.Below ts) ∧
      mvccWriteCommitted h key ts value = .ok { h with versions := h.versions.put ts value }) ∨
      ¬ (h.intent = none ∧ h.Below ts) ∧ ∃ err, mvccWriteCommitted h key ts value = .error err := by
  cases hi : h.intent with
  | some intent =>
    right
    refine ⟨by simp, .writeIntent [⟨key, intent.txn⟩], ?_⟩
    simp only [mvccWriteCommitted, hi]
  | none =>
    by_cases hb : h.Below ts
    · exact .inl ⟨⟨rfl, hb⟩, hi ▸ mvccWriteCommitted_of_below hi hb⟩
    right
    obtain ⟨v, hv, hle⟩ := tooOld_of_not_below hb
    refine ⟨fun h => hb h.2, .writeTooOld ts v.1.next, ?_⟩
    simp [mvccWriteCommitted, hi, hv, hle]

end

end Histories

/-- The histories with every write in place as a committed version. -/
def committed (ts : Timestamp) : List (Key × Option Bytes) → (Key → KeyHistory) → Key → KeyHistory
  | [], data => data
  | w :: writes, data =>
    committed ts writes
      (Function.update data w.1 { data w.1 with versions := (data w.1).versions.put ts w.2 })

section Committed
variable {ts : Timestamp} {writes : List (Key × Option Bytes)}
  {data data' : Key → KeyHistory} {k : Key}

theorem committed_of_notMem (h : k ∉ writes.map Prod.fst) :
    committed ts writes data k = data k := by
  induction writes generalizing data with
  | nil => rfl
  | cons w writes ih =>
    simp only [List.map_cons, List.mem_cons, not_or] at h
    rw [committed, ih h.2, update_of_ne h.1]

theorem committed_intent : (committed ts writes data k).intent = (data k).intent := by
  induction writes generalizing data with
  | nil => rfl
  | cons w writes ih =>
    rw [committed, ih]
    by_cases hk : k = w.1
    · subst hk
      rw [update_self]
    · rw [update_of_ne hk]

theorem committed_versions_congr (h : ∀ k, (data k).versions = (data' k).versions) :
    (committed ts writes data k).versions = (committed ts writes data' k).versions := by
  induction writes generalizing data data' with
  | nil => exact h k
  | cons w writes ih =>
    apply ih
    intro q
    by_cases hq : q = w.1
    · subst hq
      rw [update_self, update_self, h]
    · rw [update_of_ne hq, update_of_ne hq, h]

theorem le_head_put (c : Chain Timestamp (Option Bytes)) (t : Timestamp) (v : Option Bytes) :
    ∃ e, (c.put t v).entries.head? = some e ∧ t ≤ e.1 := by
  change ∃ e, (Chain.insertEntry t v c.entries).head? = some e ∧ _
  cases hes : c.entries with
  | nil => exact ⟨(t, v), rfl, le_refl t⟩
  | cons e es =>
    simp only [Chain.insertEntry]
    split
    · exact ⟨(t, v), rfl, le_refl t⟩
    rename_i hlt
    split
    · exact ⟨(t, v), rfl, le_refl t⟩
    · exact ⟨e, rfl, not_lt.mp hlt⟩

theorem not_below_put (h : KeyHistory) (ts : Timestamp) (v : Option Bytes) :
    ¬ ({ h with versions := h.versions.put ts v } : KeyHistory).Below ts := by
  obtain ⟨e, he, hle⟩ := le_head_put h.versions ts v
  intro hb
  exact absurd (hb e he) (not_lt.mpr hle)

end Committed

def Bare (ts : Timestamp) (writes : List (Key × Option Bytes)) (data : Key → KeyHistory) : Prop :=
  (writes.map Prod.fst).Nodup ∧ ∀ w ∈ writes, (data w.1).intent = none ∧ (data w.1).Below ts

theorem bare_cons {ts : Timestamp} {writes : List (Key × Option Bytes)} {data : Key → KeyHistory}
    (v : Chain Timestamp (Option Bytes)) (hw : (data w.1).intent = none ∧ (data w.1).Below ts)
    (hv : ¬ ({ data w.1 with versions := v } : KeyHistory).Below ts) : Bare ts (w :: writes) data ↔
      Bare ts writes (Function.update data w.1 { data w.1 with versions := v }) := by
  have hoff : ∀ q : Key × Option Bytes, q.1 ≠ w.1 →
      Function.update data w.1 { data w.1 with versions := v } q.1 = data q.1 :=
    fun q hq => update_of_ne hq _ _
  constructor
  · rintro ⟨hnodup, hall⟩
    rw [List.map_cons, List.nodup_cons] at hnodup
    refine ⟨hnodup.2, ?_⟩
    intro q hq
    rw [hoff q fun heq => hnodup.1 (heq ▸ List.mem_map_of_mem hq)]
    exact hall q (List.mem_cons_of_mem w hq)
  · rintro ⟨hnodup, hall⟩
    have hne : ∀ q ∈ writes, q.1 ≠ w.1 := by
      intro q hq heq
      have hq' := (hall q hq).2
      rw [heq, update_self] at hq'
      exact hv hq'
    refine ⟨?_, ?_⟩
    · rw [List.map_cons, List.nodup_cons]
      refine ⟨?_, hnodup⟩
      intro hmem
      obtain ⟨q, hq, heq⟩ := List.mem_map.mp hmem
      exact hne q hq heq
    · intro q hq
      rcases List.mem_cons.mp hq with rfl | hq
      · exact hw
      · rw [← hoff q (hne q hq)]
        exact hall q hq

section OnePhase
variable {ts : Timestamp} {writes : List (Key × Option Bytes)} {data : Key → KeyHistory}

theorem onePhaseWrites_conflict {conflicts : List Intent} (hc : conflicts ≠ []) :
    ∃ err, onePhaseWrites ts writes data conflicts = .error err := by
  induction writes generalizing data conflicts with
  | nil =>
    obtain ⟨c, cs, rfl⟩ := List.exists_cons_of_ne_nil hc
    exact ⟨_, rfl⟩
  | cons w writes ih =>
    simp only [onePhaseWrites]
    split
    · exact ih hc
    · exact ih (collectIntents_of_ne_nil hc)
    · exact ⟨_, rfl⟩

theorem mvccWriteCommitted_writeIntent {h : KeyHistory} {key : Key} {value : Option Bytes}
    {intents : List Intent}
    (hw : mvccWriteCommitted h key ts value = .error (.writeIntent intents)) : intents ≠ [] := by
  unfold mvccWriteCommitted at hw
  split at hw
  · cases hw
    simp
  · split at hw
    · split at hw <;> cases hw
    · cases hw

theorem onePhaseWrites_cases (ts : Timestamp) (writes : List (Key × Option Bytes))
    (data : Key → KeyHistory) :
    (Bare ts writes data ∧ onePhaseWrites ts writes data [] = .ok (committed ts writes data)) ∨
      ¬ Bare ts writes data ∧ ∃ err, onePhaseWrites ts writes data [] = .error err := by
  induction writes generalizing data with
  | nil => exact .inl ⟨⟨List.nodup_nil, by simp⟩, rfl⟩
  | cons w writes ih =>
    rcases mvccWriteCommitted_cases (data w.1) w.1 ts w.2 with ⟨hw, hok⟩ | ⟨hw, err, herr⟩
    · have hstep : onePhaseWrites ts (w :: writes) data [] = onePhaseWrites ts writes
          (Function.update data w.1 { data w.1 with versions := (data w.1).versions.put ts w.2 })
            [] := by
        simp only [onePhaseWrites, hok]
      rw [hstep, bare_cons _ hw (not_below_put _ _ w.2)]
      exact ih _
    · right
      refine ⟨fun hb => hw (hb.2 w List.mem_cons_self), ?_⟩
      simp only [onePhaseWrites, herr]
      split
      · rename_i heq
        cases heq
      · rename_i heq
        cases heq
        exact onePhaseWrites_conflict (collectIntents_ne_nil (mvccWriteCommitted_writeIntent herr))
      · exact ⟨_, rfl⟩

theorem evalOnePhase_cases (rec : Option Transaction) (data : Key → KeyHistory)
    (ba : OnePhaseBatch) :
    ((Admissible rec data ba ∧ Single data ba) ∧ evalOnePhase rec data ba =
        .ok (committed ba.txn.writeTimestamp ba.writes data, ⟨ba.txn.writeTimestamp, true⟩)) ∨
      ¬ (Admissible rec data ba ∧ Single data ba) ∧
      ∃ err, evalOnePhase rec data ba = .error err := by
  unfold evalOnePhase
  by_cases heq : ba.txn.readTimestamp = ba.txn.writeTimestamp
  · rw [if_neg (not_not.mpr heq)]
    by_cases hab : rec.any (fun r => r.status == .aborted) = true
    · right
      rw [if_pos hab]
      refine ⟨?_, _, rfl⟩
      rintro ⟨hadm, _⟩
      obtain ⟨r, hr, hst⟩ := (Option.any_eq_true _ _).mp hab
      exact hadm.open_ r hr (by simpa using hst)
    · rw [if_neg hab]
      have hopen : ∀ r ∈ rec, r.status ≠ .aborted := by
        intro r hr hst
        exact hab ((Option.any_eq_true _ _).mpr ⟨r, hr, by simp [hst]⟩)
      have hbare : Bare ba.txn.writeTimestamp ba.writes data ↔
          Admissible rec data ba ∧ Single data ba := by
        constructor
        · rintro ⟨hnodup, hall⟩
          refine ⟨⟨heq, hopen, ?_⟩, hnodup, fun w hw => (hall w hw).1⟩
          intro w hw
          simp only [KeyHistory.Writable, (hall w hw).1]
          exact (hall w hw).2
        · rintro ⟨hadm, hsingle⟩
          refine ⟨hsingle.nodup, ?_⟩
          intro w hw
          have hi := hsingle.bare w hw
          have hwr := hadm.writable w hw
          simp only [KeyHistory.Writable, hi] at hwr
          exact ⟨hi, hwr⟩
      rw [← hbare]
      rcases onePhaseWrites_cases ba.txn.writeTimestamp ba.writes data with ⟨hb, hok⟩
        | ⟨hb, err, herr⟩
      · exact .inl ⟨hb, by rw [hok]⟩
      · exact .inr ⟨hb, .storage err, by rw [herr]⟩
  · right
    rw [if_pos heq]
    exact ⟨fun h => heq h.1.equal, _, rfl⟩

end OnePhase

end Datax
