import Datax.Kvclient.Scopes

/-!
# What the writes of a batch leave on the keys

A batch of puts and deletes lays the transaction's intent on its keys with the last value of
each, leaves other keys alone and keeps what the transaction had written by any sequence a
live savepoint can ask for.
-/

namespace Datax.Scopes

open Function List

section Lists
variable {ws : List (Key × Option Bytes)} {k : Key}

theorem lastWrite_eq_none_iff : lastWrite ws k = none ↔ k ∉ ws.map Prod.fst := by
  induction ws with
  | nil => simp [lastWrite]
  | cons w ws ih =>
    by_cases hw : w.1 = k
    · simp [lastWrite, hw]
    · simp [lastWrite, hw, ih, Ne.symm hw]

theorem lastWrite_append (ws ws' : List (Key × Option Bytes)) (k : Key) :
    lastWrite (ws ++ ws') k = (lastWrite ws' k).or (lastWrite ws k) := by
  induction ws with
  | nil => simp [lastWrite]
  | cons w ws ih => rw [cons_append, lastWrite, ih, lastWrite, Option.or_assoc]

theorem lastWrite_filter {p : Key → Bool} (hk : p k = true) :
    lastWrite (ws.filter fun w => p w.1) k = lastWrite ws k := by
  induction ws with
  | nil => rfl
  | cons w ws ih =>
    by_cases hw : p w.1 = true
    · rw [filter_cons_of_pos (by simpa using hw), lastWrite, lastWrite, ih]
    have hne : w.1 ≠ k := by
      rintro rfl
      exact hw hk
    rw [filter_cons_of_neg (by simpa using hw), ih, lastWrite, if_neg hne, Option.or_none]

theorem intentRequest_key (w : Key × Option Bytes) : (intentRequest w).key = w.1 := by
  obtain ⟨key, value⟩ := w
  cases value <;> rfl

end Lists

structure Wrote (txn : TxnMeta) (ws : List (Key × Option Bytes)) (base : Key → KeyHistory)
    (data data' : Key → KeyHistory) : Prop where
  off : ∀ k, k ∉ ws.map Prod.fst → data' k = data k
  overlaid : ∀ k, Overlaid txn (base k) (data' k)
  past : ∀ k seq, 0 ≤ txn.historyFloor → txn.historyFloor - 1 ≤ seq → seq < txn.sequence →
    stateAt txn.id seq (data' k) = stateAt txn.id seq (data k)

def Holds (id : UUID) (ws : List (Key × Option Bytes)) (T : Timestamp → Prop) (kys : Key → Prop)
    (data : Key → KeyHistory) : Prop :=
  ∀ k, kys k → ownValue id (data k) = lastWrite ws k ∧ ∀ i ∈ (data k).intent, T i.timestamp

variable {t : Session} {w : Key × Option Bytes}

section Wrote
variable {txn : TxnMeta} {ws : List (Key × Option Bytes)}
  {base data data' data'' : Key → KeyHistory}

theorem Wrote.refl (h : ∀ k, Overlaid txn (base k) (data k)) : Wrote txn ws base data data where
  off _ _ := rfl
  overlaid := h
  past _ _ _ _ _ := rfl

theorem Wrote.trans (h : Wrote txn ws base data data') (h' : Wrote txn ws base data' data'') :
    Wrote txn ws base data data'' where
  off k hk := (h'.off k hk).trans (h.off k hk)
  overlaid := h'.overlaid
  past k seq h0 h1 h2 := (h'.past k seq h0 h1 h2).trans (h.past k seq h0 h1 h2)

theorem Wrote.mono {ws' : List (Key × Option Bytes)} (h : Wrote txn ws base data data')
    (hsub : ∀ k, k ∈ ws.map Prod.fst → k ∈ ws'.map Prod.fst) :
    Wrote txn ws' base data data' := { h with
  off k hk := h.off k fun hmem => hk (hsub k hmem) }

theorem Wrote.of_moved {s : Session} (hm : Session.Moved s t)
    (h : Wrote t.txn.toTxnMeta ws base data data') : Wrote s.txn.toTxnMeta ws base data data' := by
  obtain ⟨read, write, _, rfl⟩ := hm
  exact ⟨h.off, fun k => (h.overlaid k).mono rfl rfl le_rfl, h.past⟩

theorem wrote_single {h' : KeyHistory} (ho : ∀ k, Overlaid txn (base k) (data k))
    (hts : ∀ i ∈ (data w.1).intent, i.txn.id = txn.id → i.timestamp ≤ txn.writeTimestamp)
    (hw : mvccWrite (data w.1) w.1 txn.writeTimestamp w.2 (some txn) = .ok h') :
    Wrote txn [w] base data (Function.update data w.1 h') ∧
      ownValue txn.id h' = some w.2 ∧ ∀ i ∈ h'.intent, i.timestamp = txn.writeTimestamp := by
  obtain ⟨hover, hval, hstamp, hpast⟩ := (ho w.1).write hts hw
  refine ⟨⟨?_, ?_, ?_⟩, hval, hstamp⟩
  · intro k hk
    exact update_of_ne (by simpa using hk) _ _
  · intro k
    by_cases hk : k = w.1
    · subst hk
      rw [update_self]
      exact hover
    · rw [update_of_ne hk]
      exact ho k
  · intro k seq h0 h1 h2
    by_cases hk : k = w.1
    · subst hk
      rw [update_self]
      exact hpast seq h0 h1 h2
    · rw [update_of_ne hk]

end Wrote

variable {resps : List IntentResponse}

variable {ws : List (Key × Option Bytes)}

section Requests
variable {h : BatchHeader} {txn : Transaction} {st st' : Ranges}

theorem evalIntentRequest_write (hh : h.txn = some txn) (st : Ranges) (w : Key × Option Bytes) :
    ∃ resp, evalIntentRequest h st (intentRequest w) =
      (mvccPut st w.1 txn.writeTimestamp w.2 (some txn.toTxnMeta)).map fun st => (st, resp) := by
  have hmeta : h.meta? = some txn.toTxnMeta := by simp [BatchHeader.meta?, hh]
  have hts : writeTimestamp h = txn.writeTimestamp := by simp [writeTimestamp, hh]
  obtain ⟨key, value⟩ := w
  cases value with
  | none =>
    refine ⟨.delete, ?_⟩
    change (mvccPut st key (writeTimestamp h) none h.meta?).map _ = _
    rw [hmeta, hts]
  | some v =>
    refine ⟨.put, ?_⟩
    change (mvccPut st key (writeTimestamp h) (some v) h.meta?).map _ = _
    rw [hmeta, hts]

theorem evalIntentRequests_cons {qs : List IntentRequest} (hh : h.txn = some txn)
    (hq : evalIntentRequests h (intentRequest w :: qs) st [] = .ok (st', resps)) :
    ∃ kh resps', mvccWrite (st.data w.1) w.1 txn.writeTimestamp w.2 (some txn.toTxnMeta) = .ok kh ∧
      evalIntentRequests h qs (st.setHistory w.1 kh) [] = .ok (st', resps') := by
  obtain ⟨resp, heval⟩ := evalIntentRequest_write hh st w
  unfold evalIntentRequests at hq
  rw [heval] at hq
  cases hw : mvccWrite (st.data w.1) w.1 txn.writeTimestamp w.2 (some txn.toTxnMeta) with
  | ok kh =>
    have hput : mvccPut st w.1 txn.writeTimestamp w.2 (some txn.toTxnMeta) =
        .ok (st.setHistory w.1 kh) := by rw [mvccPut, hw]
    rw [hput] at hq
    obtain ⟨r, hr, heq⟩ := Fallible.map_eq_ok.mp hq
    cases heq
    exact ⟨kh, r.2, rfl, hr⟩
  | error err =>
    have hput : mvccPut st w.1 txn.writeTimestamp w.2 (some txn.toTxnMeta) =
        .error (.storage err) := by rw [mvccPut, hw]
    rw [hput] at hq
    split at hq
    · rename_i heq
      cases heq
    · rename_i intents heq
      cases heq
      exact absurd hq
        (evalIntentRequests_conflict (collectIntents_ne_nil (mvccWrite_writeIntent hw)))
    · cases hq

theorem evalIntentRequests_wrote {base : Key → KeyHistory} (hh : h.txn = some txn)
    (ho : ∀ k, Overlaid txn.toTxnMeta (base k) (st.data k))
    (hts : ∀ k ∈ ws.map Prod.fst, ∀ i ∈ (st.data k).intent, i.txn.id = txn.id →
      i.timestamp ≤ txn.writeTimestamp)
    (hq : evalIntentRequests h (ws.map intentRequest) st [] = .ok (st', resps)) :
    Wrote txn.toTxnMeta ws base st.data st'.data ∧
      Holds txn.id ws (· = txn.writeTimestamp) (· ∈ ws.map Prod.fst) st'.data := by
  induction ws generalizing st resps with
  | nil =>
    cases hq
    exact ⟨Wrote.refl ho, fun k hk => by cases hk⟩
  | cons w ws ih =>
    obtain ⟨kh, resps', hw, hrest⟩ := evalIntentRequests_cons hh hq
    obtain ⟨hone, hval, hstamp⟩ := wrote_single ho (hts w.1 mem_cons_self) hw
    have hts' : ∀ k ∈ ws.map Prod.fst, ∀ i ∈ ((st.setHistory w.1 kh).data k).intent,
        i.txn.id = txn.id →
        i.timestamp ≤ txn.writeTimestamp := by
      intro k hk i hi hid
      by_cases hkw : k = w.1
      · subst hkw
        simp only [Ranges.setHistory, update_self] at hi
        exact (hstamp i hi).le
      · simp only [Ranges.setHistory, update_of_ne hkw] at hi
        exact hts k (mem_cons_of_mem _ hk) i hi hid
    obtain ⟨hmore, hholds⟩ := ih hone.overlaid hts' hrest
    refine ⟨?_, ?_⟩
    · apply (hone.mono _).trans (hmore.mono _)
      · intro k hk
        simp only [map_cons, map_nil, mem_singleton] at hk
        exact mem_cons.mpr (.inl hk)
      · intro k hk
        exact mem_cons_of_mem _ hk
    · intro k hk
      by_cases hin : k ∈ ws.map Prod.fst
      · obtain ⟨hv, ht⟩ := hholds k hin
        refine ⟨?_, ht⟩
        obtain ⟨v, hlast⟩ :=
          Option.ne_none_iff_exists'.mp (mt lastWrite_eq_none_iff.mp (not_not.mpr hin))
        rw [hv, lastWrite, hlast, Option.some_or]
      · have hkw : k = w.1 := (mem_cons.mp hk).resolve_right hin
        subst hkw
        rw [hmore.off _ hin]
        simp only [Ranges.setHistory, update_self]
        refine ⟨?_, hstamp⟩
        rw [hval, lastWrite, lastWrite_eq_none_iff.mpr hin, if_pos rfl, Option.none_or]

end Requests

def Acked (acks : List Ack) (k : Key) : Prop := ∃ a ∈ acks, ∃ q ∈ a.part.requests, q.key = k

variable {acks : List Ack} {st st' : Ranges}

section Parts
variable {o : Op} {ws : List (Key × Option Bytes)} {base : Key → KeyHistory} {txn : Transaction}
  {create : Bool}

structure Writes (o : Op) (ws : List (Key × Option Bytes)) : Prop where
  requests : o.requests = ws.map intentRequest
  keys : o.keys = ws.map Prod.fst
  shares : ∀ p,
    o.shares p = (p.requests == o.requests.filter fun q => p.requests.any fun r => r.key == q.key)
  record : ∀ t acks t', o.record t acks = some t' →
    answered (ws.map intentRequest) acks = true ∧ t' = (t.adopt acks).recordWrites (ws.map Prod.fst)

theorem writes_runBatch (ws : List (Key × Option Bytes)) : Writes (.runBatch ws) ws where
  requests := rfl
  keys := rfl
  shares _ := rfl
  record t acks t' h := by
    rw [Op.record] at h
    split_ifs at h with hans
    cases h
    exact ⟨hans, rfl⟩

theorem point_record {t' : Session} {key : Key} {q : IntentRequest}
    (h : Op.record.point acks t key q = some t') :
    answered [q] acks = true ∧ t' = (t.adopt acks).recordWrites [key] := by
  unfold Op.record.point at h
  split_ifs at h with hans
  cases h
  exact ⟨hans, rfl⟩

theorem writes_writeOp (w : Key × Option Bytes) : Writes (writeOp w) [w] := by
  obtain ⟨key, value⟩ := w
  cases value with
  | none | some v => exact ⟨rfl, rfl, fun _ => rfl, fun _ _ _ h => point_record h⟩

section
variable (hw : Writes o ws) {p : Part} (hp : o.shares p = true)
include hw hp

theorem part_requests : ∃ ws', p.requests = ws'.map intentRequest ∧
      ∀ k, k ∈ ws'.map Prod.fst → k ∈ ws.map Prod.fst ∧ lastWrite ws' k = lastWrite ws k := by
  rw [hw.shares, beq_iff_eq, hw.requests, filter_map] at hp
  refine ⟨ws.filter fun w => p.requests.any fun r => r.key == w.1, ?_, ?_⟩
  · conv_lhs => rw [hp]
    congr 2
    funext w
    simp [intentRequest_key]
  · intro k hk
    obtain ⟨w, hmem, rfl⟩ := mem_map.mp hk
    obtain ⟨hin, hany⟩ := mem_filter.mp hmem
    refine ⟨mem_map_of_mem hin, ?_⟩
    exact lastWrite_filter (p := fun k => p.requests.any fun r => r.key == k) hany

theorem evalPart_wrote (ho : ∀ k, Overlaid txn.toTxnMeta (base k) (st.data k))
    (hadmits : p.admits txn st = true)
    (hev : evalTxnWrites p.gcThreshold st (p.header txn create) p.requests = .ok (st', resps)) :
    Wrote txn.toTxnMeta ws base st.data st'.data ∧
      Holds txn.id ws (· = txn.writeTimestamp.forward p.pushed)
        (fun k => ∃ q ∈ p.requests, q.key = k) st'.data ∧
      ∀ k, (¬ ∃ q ∈ p.requests, q.key = k) → st'.data k = st.data k := by
  obtain ⟨ws', hreq, hsub⟩ := part_requests hw hp
  unfold evalTxnWrites at hev
  split at hev
  · cases hev
  rename_i st₁ hcreate
  have hdata := (evalCreate_ok hcreate).1
  rw [hreq] at hev
  have hts : ∀ k ∈ ws'.map Prod.fst, ∀ i ∈ (st₁.data k).intent, i.txn.id = txn.id →
      i.timestamp ≤ txn.writeTimestamp.forward p.pushed := by
    intro k hk i hi hid
    obtain ⟨w, hmem, rfl⟩ := mem_map.mp hk
    have hall := all_eq_true.mp hadmits (intentRequest w) (by rw [hreq]; exact mem_map_of_mem hmem)
    rw [intentRequest_key, ← hdata, hi] at hall
    simpa [hid] using hall
  have hover : ∀ k, Overlaid ({ txn with writeTimestamp := txn.writeTimestamp.forward p.pushed } :
      Transaction).toTxnMeta (base k) (st₁.data k) := by
    intro k
    rw [hdata]
    exact (ho k).mono rfl rfl le_rfl
  obtain ⟨hwrote, hholds⟩ := evalIntentRequests_wrote rfl hover hts hev
  refine ⟨⟨?_, ?_, ?_⟩, ?_, ?_⟩
  · intro k hk
    rw [hwrote.off k fun hmem => hk (hsub k hmem).1, hdata]
  · intro k
    exact (hwrote.overlaid k).mono rfl rfl le_rfl
  · intro k seq h0 h1 h2
    have hpast := hwrote.past k seq h0 h1 h2
    rwa [hdata] at hpast
  · rintro k ⟨q, hq, rfl⟩
    rw [hreq] at hq
    obtain ⟨w, hmem, rfl⟩ := mem_map.mp hq
    have hk : w.1 ∈ ws'.map Prod.fst := mem_map_of_mem hmem
    rw [intentRequest_key]
    obtain ⟨hv, ht⟩ := hholds w.1 hk
    exact ⟨hv.trans (hsub w.1 hk).2, ht⟩
  · intro k hk
    rw [hwrote.off k, hdata]
    intro hmem
    obtain ⟨w, hw', rfl⟩ := mem_map.mp hmem
    apply hk
    rw [hreq]
    exact ⟨intentRequest w, mem_map_of_mem hw', intentRequest_key w⟩

end

/-- What an attempt leaves: the acknowledged keys hold the batch's values at the
timestamps reported, the others are as they were. -/
structure Sent (txn : TxnMeta) (ws : List (Key × Option Bytes)) (base : Key → KeyHistory)
    (st : Ranges) (r : Ranges × List Ack) : Prop where
  wrote : Wrote txn ws base st.data r.1.data
  holds : Holds txn.id ws (fun t => ∃ a ∈ r.2, t = a.writeTimestamp) (Acked r.2) r.1.data
  same : ∀ k, ¬ Acked r.2 k → r.1.data k = st.data k

theorem acked_cons {a : Ack} {k : Key} :
    Acked (a :: acks) k ↔ (∃ q ∈ a.part.requests, q.key = k) ∨ Acked acks k := by
  simp [Acked]

theorem sendParts_sent (create : Bool) (hw : Writes o ws) {ps : List Part}
    (hps : ∀ p ∈ ps, o.shares p = true) (ho : ∀ k, Overlaid txn.toTxnMeta (base k) (st.data k)) :
    Sent txn.toTxnMeta ws base st (sendParts txn create ps st) := by
  induction ps generalizing st with
  | nil =>
    refine ⟨Wrote.refl ho, ?_, fun _ _ => rfl⟩
    rintro k ⟨a, ha, _⟩
    cases ha
  | cons p ps ih =>
    have hrest := fun q hq => hps q (mem_cons_of_mem p hq)
    rcases sendParts_cons txn create p ps st with hsame | ⟨st', resps, hadmits, hev, happ⟩
    · rw [hsame]
      exact ih hrest ho
    obtain ⟨hone, hholds, hoff⟩ := evalPart_wrote hw (hps p mem_cons_self) ho hadmits hev
    have htail := ih hrest hone.overlaid
    rw [happ]
    refine ⟨hone.trans htail.wrote, ?_, ?_⟩
    · intro k hk
      by_cases hlater : Acked (sendParts txn create ps st').2 k
      · obtain ⟨hv, ht⟩ := htail.holds k hlater
        refine ⟨hv, fun i hi => ?_⟩
        obtain ⟨a, ha, hts⟩ := ht i hi
        exact ⟨a, mem_cons_of_mem _ ha, hts⟩
      · obtain ⟨hv, ht⟩ := hholds k ((acked_cons.mp hk).resolve_right hlater)
        rw [htail.same k hlater]
        exact ⟨hv, fun i hi => ⟨_, mem_cons_self, ht i hi⟩⟩
    · intro k hk
      rw [acked_cons, not_or] at hk
      exact (htail.same k hk.2).trans (hoff k hk.1)

end Parts

theorem acked_of_answered {k : Key} (h : answered (ws.map intentRequest) acks = true)
    (hk : k ∈ ws.map Prod.fst) :
    Acked acks k := by
  obtain ⟨w, hw, rfl⟩ := mem_map.mp hk
  have hall := all_eq_true.mp h (intentRequest w) (mem_map_of_mem hw)
  obtain ⟨a, ha, hin⟩ := any_eq_true.mp hall
  exact ⟨a, ha, intentRequest w, by simpa using hin, intentRequest_key w⟩

section Attempts
variable {o : Op} {ws : List (Key × Option Bytes)} {base : Key → KeyHistory} {create : Bool}

theorem sendAttempts_wrote (hw : Writes o ws) {attempts : List Attempt}
    (hshares : ∀ a ∈ attempts, ∀ p ∈ a.parts, o.shares p = true) {s : Session}
    (ho : ∀ k, Overlaid s.txn.toTxnMeta (base k) (st.data k))
    (hsent : sendAttempts create attempts s st = (t, st', acks)) :
    Wrote s.txn.toTxnMeta ws base st.data st'.data ∧
      Holds s.txn.id ws (fun ts => ∃ a ∈ acks, ts = a.writeTimestamp) (Acked acks) st'.data ∧
      (applied create attempts s st = false → st'.data = st.data) := by
  induction attempts generalizing s st with
  | nil =>
    cases hsent
    refine ⟨Wrote.refl ho, ?_, fun _ => rfl⟩
    rintro k ⟨a, ha, _⟩
    cases ha
  | cons a rest ih =>
    have hm := a.refreshed_moved s
    have hid : (a.refreshed s).txn.id = s.txn.id := by
      obtain ⟨read, write, _, hmoved⟩ := hm
      rw [hmoved]
    have ho' : ∀ k, Overlaid (a.refreshed s).txn.toTxnMeta (base k) (st.data k) := by
      intro k
      obtain ⟨read, write, _, hmoved⟩ := hm
      rw [hmoved]
      exact (ho k).mono rfl rfl le_rfl
    have hone := sendParts_sent create hw (hshares a mem_cons_self) ho'
    have hwrote := hone.wrote.of_moved hm
    have hnone : (!(sendParts (a.refreshed s).txn create a.parts st).2.isEmpty) = false →
        (sendParts (a.refreshed s).txn create a.parts st).1.data = st.data := by
      intro hempty
      have hacks : (sendParts (a.refreshed s).txn create a.parts st).2 = [] := by simpa using hempty
      funext k
      apply hone.same
      rw [hacks]
      rintro ⟨b, hb, _⟩
      cases hb
    unfold sendAttempts at hsent
    unfold applied
    rw [Bool.or_eq_false_iff, ← hid]
    split at hsent
    · obtain ⟨rfl, hr⟩ := Prod.mk.inj hsent
      rw [hr] at hone hwrote hnone
      rw [hr]
      exact ⟨hwrote, hone.holds, fun happ => hnone happ.1⟩
    · obtain ⟨hmore, hholds, hquiet⟩ :=
        ih (fun b hb => hshares b (mem_cons_of_mem a hb)) hone.wrote.overlaid hsent
      exact ⟨hwrote.trans (hmore.of_moved hm), hholds, fun happ =>
        (hquiet happ.2).trans (hnone happ.1)⟩

end Attempts

end Datax.Scopes
