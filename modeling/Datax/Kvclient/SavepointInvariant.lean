import Datax.Kvclient.ScopedSends

/-!
# The effects of a transaction and its intents

A key is its base history, or the base under the transaction's intent with the value of its effect.
For every live savepoint the intents and their histories still know what the transaction had written
by its sequence, and that is the effects of its scene.
-/

namespace Datax.Scopes

open Option List Session

def readOver (base : KeyHistory) (txn : TxnMeta) (key : Key) (ts limit : Timestamp) :
    Option (Option Bytes) → Except StorageError (Option Bytes)
  | some v => .ok (v.bind copyBytes)
  | none => mvccGet base key ts { txn := some txn, uncertaintyLimit := limit }

section
variable {t t' : TxnMeta} (hid : t.id = t'.id) (hepoch : t.epoch = t'.epoch)
include hid hepoch

theorem mvccGet_txn_congr (h : KeyHistory)
    (key : Key) (ts limit : Timestamp) :
    mvccGet h key ts { txn := some t, uncertaintyLimit := limit } =
      mvccGet h key ts { txn := some t', uncertaintyLimit := limit } := by
  simp only [mvccGet, viewIntent, viewIntent.foreign, readBeneath, uncertainVersion, hid, hepoch]

theorem readOver_congr (base : KeyHistory) (key : Key) (ts limit : Timestamp)
    (e : Option (Option Bytes)) :
    readOver base t key ts limit e = readOver base t' key ts limit e := by
  cases e with
  | none => exact mvccGet_txn_congr hid hepoch base key ts limit
  | some v => rfl

end

structure Saved (base : Key → KeyHistory) (txn : TxnMeta) (data : Key → KeyHistory) (sp : Savepoint)
    (m : Scene) : Prop where
  id : m.txn.id = txn.id
  epoch : m.txn.epoch = txn.epoch
  read : ∀ key ts limit,
    m.read key ts limit = readOver (base key) m.txn key ts limit (m.effects key)
  state : ∀ k, stateAt txn.id sp.seq (data k) = m.effects k
  tracked : ∀ k, m.effects k ≠ none → k ∈ sp.writes

structure Kept (base : Key → KeyHistory) (t : Session) (data : Key → KeyHistory) : Prop where
  overlaid : ∀ k, Overlaid t.txn.toTxnMeta (base k) (data k)
  stamped : ∀ k, ∀ i ∈ (data k).intent, i.txn.id = t.txn.id → i.timestamp ≤ t.txn.writeTimestamp
  tracked : ∀ k, ownValue t.txn.id (data k) ≠ none → k ∈ t.writes

structure Stacked (t : Session) : Prop where
  sequence : 0 ≤ t.txn.sequence
  orders : ∀ p ∈ t.savepoints, p.2.order ≤ t.spOrder
  seqs : ∀ p ∈ t.savepoints, 0 ≤ p.2.seq ∧ p.2.seq ≤ t.txn.sequence
  floor : t.txn.historyFloor = historyFloor t.savepoints
  nested : ∀ p ∈ t.savepoints, ∀ q ∈ t.savepoints, p.2.order ≤ q.2.order → p.2.seq ≤ q.2.seq

structure Inv (base : Key → KeyHistory) (s : Scoped) : Prop where
  kept : Kept base s.session s.ranges.data
  stacked : Stacked s.session
  running : RecordOpen s.ranges.record
  effects : ∀ k,
    s.effects k = (lastWrite s.pending k).or (ownValue s.session.txn.id (s.ranges.data k))
  saved : ∀ p ∈ s.session.savepoints, ∃ m, s.marks p.2.order = some m ∧
    Saved base s.session.txn.toTxnMeta s.ranges.data p.2 m
  restored : RollbackExact s
  commits : CommitExact base s

variable {p : String × Savepoint} {t : Session}

section Floor
variable {l : List (String × Savepoint)}

theorem lowerFloor_spec (floor : Int) (hp : 0 ≤ p.2.seq) :
    0 ≤ lowerFloor floor p ∧ lowerFloor floor p - 1 ≤ p.2.seq ∧
      (0 ≤ floor → lowerFloor floor p ≤ floor) := by
  unfold lowerFloor
  split
  · rename_i hlow
    simp only [Bool.or_eq_true, decide_eq_true_eq] at hlow
    omega
  · rename_i hhigh
    simp only [Bool.or_eq_true, decide_eq_true_eq, not_or, not_lt] at hhigh
    omega

theorem foldl_lowerFloor (h : ∀ p ∈ l, 0 ≤ p.2.seq) (floor : Int) :
    (0 ≤ floor → 0 ≤ l.foldl lowerFloor floor ∧ l.foldl lowerFloor floor ≤ floor) ∧
      ∀ q ∈ l, 0 ≤ l.foldl lowerFloor floor ∧ l.foldl lowerFloor floor - 1 ≤ q.2.seq := by
  induction l generalizing floor with
  | nil => exact ⟨fun h0 => ⟨h0, le_rfl⟩, fun q hq => by cases hq⟩
  | cons p l ih =>
    obtain ⟨h0, hp, hle⟩ := lowerFloor_spec floor (h p mem_cons_self)
    obtain ⟨hfold, hrest⟩ := ih (fun q hq => h q (mem_cons_of_mem p hq)) (lowerFloor floor p)
    obtain ⟨hnonneg, hbelow⟩ := hfold h0
    rw [foldl_cons]
    refine ⟨fun hf => ⟨hnonneg, hbelow.trans (hle hf)⟩, ?_⟩
    exact forall_mem_cons.mpr ⟨⟨hnonneg, by omega⟩, hrest⟩

theorem Stacked.floored (h : Stacked t) (hp : p ∈ t.savepoints) :
    0 ≤ t.txn.historyFloor ∧ t.txn.historyFloor - 1 ≤ p.2.seq := by
  rw [h.floor]
  exact (foldl_lowerFloor (fun q hq => (h.seqs q hq).1) (-1)).2 p hp

end Floor

section Reads
variable {base : Key → KeyHistory} {s : Scoped}

theorem Scoped.read (hkept : Kept base s.session s.ranges.data)
    (heffects : ∀ k,
      s.effects k = (lastWrite s.pending k).or (ownValue s.session.txn.id (s.ranges.data k)))
    (key : Key) (ts limit : Timestamp) :
    s.scene.read key ts limit =
      readOver (base key) s.session.txn.toTxnMeta key ts limit (s.effects key) := by
  rw [heffects key]
  unfold Scene.read Scoped.scene
  cases hd : lastWrite s.pending key with
  | some v => rfl
  | none =>
    rw [none_or, (hkept.overlaid key).read rfl rfl]
    cases ownValue s.session.txn.id (s.ranges.data key) with
    | some v | none => rfl

end Reads

section Operations
variable {base : Key → KeyHistory} {s : Scoped} {t : Session} {data' : Key → KeyHistory}

structure Advanced (t t' : Session) : Prop where
  id : t'.txn.id = t.txn.id
  epoch : t'.txn.epoch = t.txn.epoch
  sequence : t.txn.sequence ≤ t'.txn.sequence
  stamp : t.txn.writeTimestamp ≤ t'.txn.writeTimestamp
  floor : t'.txn.historyFloor = t.txn.historyFloor
  savepoints : t'.savepoints = t.savepoints
  spOrder : t'.spOrder = t.spOrder
  writes : ∀ k ∈ t.writes, k ∈ t'.writes

theorem Advanced.refl (t : Session) : Advanced t t :=
  ⟨rfl, rfl, le_rfl, le_rfl, rfl, rfl, rfl, fun _ h => h⟩

variable {t' : Session}

theorem Advanced.trans {t'' : Session} (h : Advanced t t') (h' : Advanced t' t'') :
    Advanced t t'' where
  id := h'.id.trans h.id
  epoch := h'.epoch.trans h.epoch
  sequence := h.sequence.trans h'.sequence
  stamp := h.stamp.trans h'.stamp
  floor := h'.floor.trans h.floor
  savepoints := h'.savepoints.trans h.savepoints
  spOrder := h'.spOrder.trans h.spOrder
  writes k hk := h'.writes k (h.writes k hk)

theorem Advanced.of_moved (h : Session.Moved t t') : Advanced t t' := by
  obtain ⟨read, write, hle, rfl⟩ := h
  exact ⟨rfl, rfl, le_rfl, hle, rfl, rfl, rfl, fun _ hk => hk⟩

theorem advanced_recordWrites (t : Session) (kys : List Key) : Advanced t (t.recordWrites kys) := by
  have htxn : (t.recordWrites kys).txn = t.txn := recordWrites_txn t.toTxn kys
  refine ⟨by rw [htxn], by rw [htxn], by rw [htxn], by rw [htxn], by rw [htxn], rfl, rfl, ?_⟩
  intro k hk
  exact (mem_recordWrites t.toTxn kys k).mpr (.inl hk)

theorem advanced_prepareWrite (t : Session) (kys : List Key) :
    Advanced t (t.prepareWrite kys).1 := by
  obtain ⟨key, h⟩ := prepareWrite_fst t kys
  rw [h]
  exact ⟨rfl, rfl, (by dsimp only; omega), le_rfl, rfl, rfl, rfl, fun _ hk => hk⟩

theorem Stacked.advanced (h : Stacked t) (ha : Advanced t t') : Stacked t' where
  sequence := h.sequence.trans ha.sequence
  orders p hp := by
    rw [ha.savepoints] at hp
    rw [ha.spOrder]
    exact h.orders p hp
  seqs p hp := by
    rw [ha.savepoints] at hp
    exact ⟨(h.seqs p hp).1, (h.seqs p hp).2.trans ha.sequence⟩
  floor := by rw [ha.floor, ha.savepoints, h.floor]
  nested := by
    rw [ha.savepoints]
    exact h.nested

theorem Inv.ran (h : Inv base s) (hc : s.committed = none) {st : Ranges} {e : Effects}
    (ha : Advanced s.session t) (hrun : RecordOpen st.record) (hkept : Kept base t st.data)
    (heffects : ∀ k, e k = (lastWrite (t.deferred.getD []) k).or (ownValue t.txn.id (st.data k)))
    (hpast : ∀ p ∈ s.session.savepoints, ∀ k, stateAt s.session.txn.id p.2.seq (st.data k) =
      stateAt s.session.txn.id p.2.seq (s.ranges.data k)) : Inv base (s.ran (t, st) e) where
  kept := hkept
  stacked := h.stacked.advanced ha
  running := hrun
  effects := heffects
  saved p hp := by
    have hp' : p ∈ s.session.savepoints := by
      rw [← ha.savepoints]
      exact hp
    obtain ⟨m, hm, hs⟩ := h.saved p hp'
    refine ⟨m, hm, hs.id.trans ha.id.symm, hs.epoch.trans ha.epoch.symm, hs.read, ?_, hs.tracked⟩
    intro k
    change stateAt t.txn.id p.2.seq (st.data k) = _
    rw [ha.id, hpast p hp' k]
    exact hs.state k
  restored m hm := by cases hm
  commits p hp := by
    change p ∈ s.committed at hp
    simp [hc] at hp

theorem Kept.advanced (h : Kept base s.session s.ranges.data) (ha : Advanced s.session t) :
    Kept base t s.ranges.data where
  overlaid k := (h.overlaid k).mono ha.id ha.epoch ha.sequence
  stamped k i hi hid := (h.stamped k i hi (hid.trans ha.id)).trans ha.stamp
  tracked k hk := ha.writes k (h.tracked k (by rwa [ha.id] at hk))

theorem advanced_deferred (t : Session) (d : Option (List (Key × Option Bytes))) :
    Advanced t { t with deferred := d } :=
  ⟨rfl, rfl, le_rfl, le_rfl, rfl, rfl, rfl, fun _ hk => hk⟩

theorem Inv.prepared (h : Inv base s) (ha : Advanced s.session t) (kys : List Key) (k : Key) :
    Overlaid (t.prepareWrite kys).1.txn.toTxnMeta (base k) (s.ranges.data k) := by
  have hadv := ha.trans (advanced_prepareWrite t kys)
  exact (h.kept.overlaid k).mono hadv.id hadv.epoch hadv.sequence

variable {ws : List (Key × Option Bytes)}

section
variable (h : Inv base s) (ha : Advanced s.session t) {kys : List Key} {data' : Key → KeyHistory}
include h ha

theorem Inv.past
    (hw : Wrote (t.prepareWrite kys).1.txn.toTxnMeta ws base s.ranges.data data')
    (hp : p ∈ s.session.savepoints) (k : Key) : stateAt s.session.txn.id p.2.seq (data' k) =
      stateAt s.session.txn.id p.2.seq (s.ranges.data k) := by
  obtain ⟨h0, h1⟩ := h.stacked.floored hp
  obtain ⟨key, hprep⟩ := prepareWrite_fst t kys
  have hpast := hw.past k p.2.seq
  rw [hprep] at hpast
  have hlt : p.2.seq < t.txn.sequence + 1 := by
    have := (h.stacked.seqs p hp).2.trans ha.sequence
    omega
  have hpast := hpast (by rw [← ha.floor] at h0; exact h0) (by rw [← ha.floor] at h1; exact h1) hlt
  rw [← ha.id]
  exact hpast

theorem Kept.recorded {u : Session} {acks : List Ack} (hu : Advanced (t.prepareWrite kys).1 u)
    (hw : Wrote (t.prepareWrite kys).1.txn.toTxnMeta ws base s.ranges.data data')
    (hholds : Holds (t.prepareWrite kys).1.txn.id ws (fun ts => ∃ a ∈ acks, ts = a.writeTimestamp)
      (Acked acks) data') (hans : answered (ws.map intentRequest) acks = true)
    (hacks : ∀ a ∈ acks, a.writeTimestamp ≤ u.txn.writeTimestamp)
    (hkeys : ∀ k ∈ ws.map Prod.fst, k ∈ u.writes) :
    Kept base u data' ∧ ∀ k, (lastWrite ws k).or (ownValue s.session.txn.id (s.ranges.data k)) =
      ownValue u.txn.id (data' k) := by
  have hadv := (ha.trans (advanced_prepareWrite t kys)).trans hu
  refine ⟨⟨?_, ?_, ?_⟩, ?_⟩
  · intro k
    exact (hw.overlaid k).mono hu.id hu.epoch hu.sequence
  · intro k i hi hid
    by_cases hk : k ∈ ws.map Prod.fst
    · obtain ⟨a, hain, hts⟩ := (hholds k (acked_of_answered hans hk)).2 i hi
      rw [hts]
      exact hacks a hain
    · rw [hw.off k hk] at hi
      exact (h.kept.stamped k i hi (hid.trans hadv.id)).trans hadv.stamp
  · intro k hne
    by_cases hk : k ∈ ws.map Prod.fst
    · exact hkeys k hk
    · rw [hw.off k hk, hadv.id] at hne
      exact hadv.writes k (h.kept.tracked k hne)
  · intro k
    by_cases hk : k ∈ ws.map Prod.fst
    · obtain ⟨v, hlast⟩ := ne_none_iff_exists'.mp (mt lastWrite_eq_none_iff.mp (not_not.mpr hk))
      rw [hu.id, (hholds k (acked_of_answered hans hk)).1, hlast, some_or]
    · rw [hw.off k hk, lastWrite_eq_none_iff.mpr hk, none_or, hadv.id]

end

section
variable (h : Inv base s) (hc : s.committed = none) {o : Op} (hw : Writes o ws)
  {attempts : List Attempt} {p : Session × Ranges}
include h hc hw

theorem Inv.op_ok {d : Option (List (Key × Option Bytes))} (hd : d.getD [] = [])
    (hp : runOp o attempts .ok { s.session with deferred := d } s.ranges = some p) {e : Effects}
    (he : ∀ k, e k = (lastWrite ws k).or (ownValue s.session.txn.id (s.ranges.data k))) :
      Inv base (s.ran p e) := by
  have ha := advanced_deferred s.session d
  by_cases hkeys : o.keys = []
  · have hws : ws = [] := by
      rw [hw.keys] at hkeys
      exact map_eq_nil_iff.mp hkeys
    unfold runOp at hp
    rw [if_pos hkeys, if_pos rfl] at hp
    cases hp
    apply h.ran hc ha h.running (h.kept.advanced ha)
    · intro k
      rw [he, hws, hd]
    · intro q _ k
      rfl
  · obtain ⟨hshares, create, t, acks, _, hsent, hend⟩ := runOp_some hkeys hp
    have hrec := (hend.resolve_right fun hno => hno.1 rfl).2
    obtain ⟨hans, hout⟩ := hw.record t acks p.1 hrec
    obtain ⟨hwrote, hholds, _⟩ := sendAttempts_wrote hw hshares (h.prepared ha o.keys) hsent
    have hmoved := sendAttempts_moved create attempts
      (prepareWrite { s.session with deferred := d } o.keys).1 s.ranges
    rw [hsent] at hmoved
    have hadopt := t.adopt_moved acks
    have hu : Advanced (prepareWrite { s.session with deferred := d } o.keys).1 p.1 := by
      rw [hout]
      exact (Advanced.of_moved (hmoved.trans hadopt)).trans (advanced_recordWrites _ _)
    have hdeferred : p.1.deferred = d := by
      obtain ⟨key, hprep⟩ := prepareWrite_fst { s.session with deferred := d } o.keys
      obtain ⟨read, write, _, hall⟩ := hmoved.trans hadopt
      rw [hout]
      change (t.adopt acks).deferred = d
      rw [hall, hprep]
    have htxn : p.1.txn = (t.adopt acks).txn := by
      rw [hout]
      exact recordWrites_txn _ _
    obtain ⟨hkept, hown⟩ := Kept.recorded h ha hu hwrote hholds hans (fun a hain => by
        rw [htxn]
        exact t.le_adopt hain)
      (fun k hk => by
        rw [hout]
        exact (mem_recordWrites _ _ k).mpr (.inr hk))
    have hrun : RecordOpen p.2.record := by
      have hopen := (sendAttempts_kept create attempts
        (prepareWrite { s.session with deferred := d } o.keys).1 s.ranges).2 h.running
      rwa [hsent] at hopen
    apply h.ran hc ((ha.trans (advanced_prepareWrite _ _)).trans hu) hrun hkept
    · intro k
      rw [he, hown, hdeferred, hd, lastWrite, none_or]
    · intro q hq k
      exact h.past ha hwrote hq k

theorem Inv.op_failed
    {ret : Returned} (hret : ret ≠ .ok) (hwhole : failsWhole s.session s.ranges o attempts ret =
      true) (hp : runOp o attempts ret s.session s.ranges = some p) :
    Inv base (s.ran p s.effects) := by
  by_cases hkeys : o.keys = []
  · unfold runOp at hp
    simp [if_pos hkeys, if_neg hret] at hp
  obtain ⟨hshares, create, t, acks, hcreate, hsent, hend⟩ := runOp_some hkeys hp
  obtain ⟨_, finished, hfin⟩ := hend.resolve_left fun hok => hret hok.1
  have ha := Advanced.refl s.session
  have hquiet : applied create attempts (s.session.prepareWrite o.keys).1 s.ranges = false := by
    rw [hcreate]
    cases hr : ret with
    | ok => exact absurd hr hret
    | error | aborted => simpa [failsWhole, hr] using hwhole
  have hdata := (sendAttempts_wrote hw hshares (h.prepared ha o.keys) hsent).2.2 hquiet
  have hmoved := sendAttempts_moved create attempts (s.session.prepareWrite o.keys).1 s.ranges
  rw [hsent] at hmoved
  obtain ⟨read, write, hle, rfl⟩ := hmoved
  obtain ⟨key, hprep⟩ := prepareWrite_fst s.session o.keys
  have hadv : Advanced s.session p.1 := by
    rw [hfin, hprep]
    rw [hprep] at hle
    exact ⟨rfl, rfl, (by dsimp only; omega), hle, rfl, rfl, rfl, fun _ hk => hk⟩
  have hrun : RecordOpen p.2.record := by
    have hopen :=
      (sendAttempts_kept create attempts (s.session.prepareWrite o.keys).1 s.ranges).2 h.running
    rwa [hsent] at hopen
  apply h.ran hc hadv hrun
  · rw [hdata]
    exact h.kept.advanced hadv
  · intro k
    rw [hdata, h.effects k, hadv.id]
    congr 2
    rw [hfin, hprep]
    rfl
  · intro q _ k
    rw [hdata]

end

end Operations

end Datax.Scopes
