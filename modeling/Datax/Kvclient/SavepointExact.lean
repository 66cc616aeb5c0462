import Datax.Shared.Runs
import Datax.Kvclient.SavepointInvariant

/-!
# Savepoints are exact

Establishing, releasing and rolling back to a savepoint keep the invariant; the three
ways to commit turn the effects, and nothing else, into committed versions.
-/

namespace Datax.Scopes

open Option (map_eq_some_iff none_or or_none)

open Function List Runs

variable {name : String} {applied : List Key} {data : Key → KeyHistory}

section Savepoints
variable {base : Key → KeyHistory} {s : Scoped} {t : Session}

theorem Inv.defer (h : Inv base s) (hc : s.committed = none) (ws : List (Key × Option Bytes)) :
    Inv base (s.ran ({ s.session with deferred := some (s.pending ++ ws) }, s.ranges)
      (s.effects.overlay ws)) := by
  have ha := advanced_deferred s.session (some (s.pending ++ ws))
  apply h.ran hc ha h.running (h.kept.advanced ha)
  · intro k
    rw [Effects.overlay, h.effects k, Option.getD_some, lastWrite_append, Option.or_assoc]
  · intro q _ k
    rfl

theorem Kept.updateHistoryFloor (h : Kept base t data) :
    Kept base t.updateHistoryFloor data := { h with
  overlaid k := (h.overlaid k).mono rfl rfl le_rfl }

section
variable (h : Inv base s) (hc : s.committed = none)
include h hc

theorem Inv.savepoint (hpending : s.pending = []) (ht : s.session.savepoint name = .ok t) :
    Inv base { s with
      session := t, marks :=
        Function.update s.marks t.spOrder (some s.scene), restored := none } := by
  unfold Session.savepoint at ht
  split_ifs at ht
  cases ht
  have hold : ∀ p ∈ s.session.savepoints.filter fun p => p.1 != name, p ∈ s.session.savepoints :=
    fun p hp => mem_of_mem_filter hp
  constructor
  case kept => exact Kept.updateHistoryFloor ⟨h.kept.overlaid, h.kept.stamped, h.kept.tracked⟩
  case stacked =>
    constructor
    case sequence => exact h.stacked.sequence
    case orders =>
      intro p hp
      rcases mem_cons.mp hp with rfl | hp
      · exact le_rfl
      · exact Nat.le_succ_of_le (h.stacked.orders p (hold p hp))
    case seqs =>
      intro p hp
      rcases mem_cons.mp hp with rfl | hp
      · exact ⟨h.stacked.sequence, le_rfl⟩
      · exact h.stacked.seqs p (hold p hp)
    case floor => rfl
    case nested =>
      intro p hp q hq hpq
      rcases mem_cons.mp hp with rfl | hp <;> rcases mem_cons.mp hq with rfl | hq
      · exact le_rfl
      · have hle := h.stacked.orders q (hold q hq)
        dsimp only at hpq
        omega
      · exact (h.stacked.seqs p (hold p hp)).2
      · exact h.stacked.nested p (hold p hp) q (hold q hq) hpq
  case running => exact h.running
  case effects => exact h.effects
  case saved =>
    intro p hp
    rcases mem_cons.mp hp with rfl | hp
    · refine ⟨s.scene, update_self _ _ _, rfl, rfl, Scoped.read h.kept h.effects, ?_, ?_⟩
      · intro k
        refine ((h.kept.overlaid k).stateAt_now le_rfl).trans ?_
        have heff := h.effects k
        rw [hpending, lastWrite, none_or] at heff
        exact heff.symm
      · intro k hk
        apply h.kept.tracked
        have heff := h.effects k
        rw [hpending, lastWrite, none_or] at heff
        rw [← heff]
        exact hk
    · obtain ⟨m, hm, hs⟩ := h.saved p (hold p hp)
      have hle := h.stacked.orders p (hold p hp)
      refine ⟨m, ?_, hs.id, hs.epoch, hs.read, hs.state, hs.tracked⟩
      rw [← hm]
      refine update_of_ne ?_ _ _
      change p.2.order ≠ s.session.spOrder + 1
      omega
  case restored =>
    intro m hm
    cases hm
  case commits =>
    intro p hp
    simp [hc] at hp

theorem Inv.fewer {writes : List Key} {e : Effects} {m : Option Scene}
    {st : Ranges} (hst : st.data = data) (hrec : st.record = s.ranges.record)
    {readSpans : List ReadSpan} {unusable : Bool} {keep : String × Savepoint → Bool}
    (hsession : t = Session.updateHistoryFloor { s.session with
      writes := writes, readSpans := readSpans, refreshUnusable := unusable
      savepoints := s.session.savepoints.filter keep }) (hkept : Kept base t data)
    (heffects : ∀ k, e k = (lastWrite s.pending k).or (ownValue s.session.txn.id (data k)))
    (hpast : ∀ p ∈ s.session.savepoints, keep p = true → ∀ k,
      stateAt s.session.txn.id p.2.seq (data k) =
      stateAt s.session.txn.id p.2.seq (s.ranges.data k))
    (hrestored : RollbackExact { s with session := t, ranges := st, effects := e, restored := m }) :
    Inv base { s with session := t, ranges := st, effects := e, restored := m } := by
  subst hst hsession
  have hold : ∀ p ∈ s.session.savepoints.filter keep, p ∈ s.session.savepoints :=
    fun p hp => mem_of_mem_filter hp
  constructor
  case kept => exact hkept
  case stacked =>
    exact ⟨h.stacked.sequence, fun p hp => h.stacked.orders p (hold p hp),
      fun p hp => h.stacked.seqs p (hold p hp), rfl,
      fun p hp q hq => h.stacked.nested p (hold p hp) q (hold q hq)⟩
  case running =>
    rw [hrec]
    exact h.running
  case effects => exact heffects
  case saved =>
    intro p hp
    obtain ⟨m', hm, hs⟩ := h.saved p (hold p hp)
    refine ⟨m', hm, hs.id, hs.epoch, hs.read, ?_, hs.tracked⟩
    intro k
    rw [← hs.state k]
    exact hpast p (hold p hp) (mem_filter.mp hp).2 k
  case restored => exact hrestored
  case commits =>
    intro p hp
    simp [hc] at hp

theorem Inv.release
    (ht : s.session.releaseSavepoint name = .ok t) :
    Inv base { s with session := t, restored := none } := by
  unfold Session.releaseSavepoint at ht
  split at ht
  · cases ht
  cases ht
  refine h.fewer hc rfl rfl rfl ?_ h.effects (fun _ _ _ _ => rfl) ?_
  · exact Kept.updateHistoryFloor ⟨h.kept.overlaid, h.kept.stamped, h.kept.tracked⟩
  · intro m hm
    cases hm

end

theorem rollback_all (hkept : Kept base t s.ranges.data) (hall : ∀ k ∈ t.writes, k ∈ applied)
    (seq : Int) (k : Key) :
    (rollbackIntents t.txn.id seq applied s.ranges).data k =
      mvccRollbackIntent (s.ranges.data k) t.txn.id seq := by
  unfold rollbackIntents
  dsimp only
  split
  · rfl
  rename_i hno
  have hnone : ownValue t.txn.id (s.ranges.data k) = none := by
    by_contra hne
    exact hno (contains_iff_mem.mpr (hall k (hkept.tracked k hne)))
  exact ((hkept.overlaid k).rollback_of_bare hnone seq).symm

theorem Inv.rollback (h : Inv base s) (hc : s.committed = none) (hpending : s.pending = [])
    {sp : Savepoint} (hfind : s.session.find name = some sp)
    (hall : ∀ k ∈ s.session.writes, k ∈ applied) : Inv base { s with
      session := s.session.restore sp
      ranges := rollbackIntents s.session.txn.id sp.seq applied s.ranges
      effects := ((s.marks sp.order).map Scene.effects).getD s.effects
      restored := s.marks sp.order } := by
  obtain ⟨l₁, l₂, hl, _⟩ := lookup_eq_some_iff.mp hfind
  have hmem : (name, sp) ∈ s.session.savepoints := by simp [hl]
  obtain ⟨m, hm, hs⟩ := h.saved _ hmem
  have hdata := rollback_all h.kept hall sp.seq
  have hrolled := fun k => (h.kept.overlaid k).rollback sp.seq
  have hkept : Kept base (s.session.restore sp)
      (rollbackIntents s.session.txn.id sp.seq applied s.ranges).data := by
    constructor
    case overlaid =>
      intro k
      rw [hdata]
      exact (hrolled k).1.mono rfl rfl le_rfl
    case stamped =>
      intro k i hi hid
      rw [hdata] at hi
      obtain ⟨j, hj, hidj⟩ := mvccRollbackIntent_intent hi
      rw [(hrolled k).2.2.1 i hi j hj]
      exact h.kept.stamped k j hj (hidj.trans hid)
    case tracked =>
      intro k hne
      apply hs.tracked
      rw [hdata] at hne
      rw [← hs.state k]
      exact (hrolled k).2.1 ▸ hne
  have heffects : ∀ k, m.effects k = (lastWrite s.pending k).or (ownValue s.session.txn.id
      ((rollbackIntents s.session.txn.id sp.seq applied s.ranges).data k)) := by
    intro k
    rw [hpending, lastWrite, none_or, hdata]
    exact ((hrolled k).2.1.trans (hs.state k)).symm
  have heff : ((s.marks sp.order).map Scene.effects).getD s.effects = m.effects := by
    rw [hm]
    rfl
  rw [heff]
  refine h.fewer hc rfl rfl rfl hkept heffects ?_ ?_
  · intro p hp hkeep k
    have hle : p.2.order ≤ sp.order := by simpa using hkeep
    rw [hdata]
    exact (hrolled k).2.2.2 p.2.seq (h.stacked.nested p hp _ hmem hle)
  · intro m' hm' key ts limit
    obtain rfl : m = m' := Option.some.inj (hm.symm.trans hm')
    refine (Scoped.read hkept heffects key ts limit).trans ?_
    rw [hs.read]
    exact readOver_congr hs.id.symm hs.epoch.symm _ _ _ _ _

end Savepoints

variable {p : Timestamp × (Key → KeyHistory)} {gcThreshold : Timestamp}

section Commits
variable {base : Key → KeyHistory} {s : Scoped} {t : Session} {data : Key → KeyHistory}

theorem resolveAll_committed (h : Kept base t data) (k : Key) :
    resolveAll t.txn.id .committed t.txn.writeTimestamp data k =
        (base k).withVersion t.txn.writeTimestamp (ownValue t.txn.id (data k)) ∧
      (ownValue t.txn.id (data k) ≠ none → (base k).Below t.txn.writeTimestamp) := by
  obtain ⟨hres, hbelow⟩ := (h.overlaid k).resolve_committed k (h.stamped k)
  refine ⟨?_, hbelow⟩
  rw [resolveAll, hres]
  rfl

theorem commitTimestamp_of_open {rec rec' : Option Transaction} {txn : Transaction}
    {req : EndTxnRequest} {resp : EndTxnResponse} (hopen : RecordOpen rec)
    (h : evalEndTxn rec txn req = .ok (rec', resp)) :
    resp.commitTimestamp = txn.writeTimestamp := by
  obtain ⟨_, ⟨e, he, hst, _⟩ | ⟨_, _, _, rfl⟩⟩ := evalEndTxn_ok_iff.mp h
  · rcases hopen e he with hp | hp <;> rw [hp] at hst <;> cases hst
  · rfl

theorem evalCreate_open {st st' : Ranges} {hd : BatchHeader} (hopen : RecordOpen st.record)
    (h : evalCreate gcThreshold st hd = .ok st') : RecordOpen st'.record := by
  rcases evalCreate_cases h with ⟨_, rfl⟩ | ⟨_, txn, _, _, rfl⟩
  · exact hopen
  · exact (RecordKept.of_pending st.record rfl).2 hopen

theorem eq_base_of_bare {txn : TxnMeta} {b h : KeyHistory} (ho : Overlaid txn b h)
    (hown : ownValue txn.id h = none) : h = b ∧ ∀ i ∈ h.intent, i.txn.id ≠ txn.id := by
  cases ho with
  | bare hbase => exact ⟨rfl, hbase⟩
  | laid i v _ hid _ _ hb =>
    simp [ownValue_laid hid hb] at hown

theorem committed_eq {ts : Timestamp} {ws : List (Key × Option Bytes)}
    (hnodup : (ws.map Prod.fst).Nodup) (data : Key → KeyHistory) (k : Key) :
    Datax.committed ts ws data k = (data k).withVersion ts (lastWrite ws k) := by
  induction ws generalizing data with
  | nil => rfl
  | cons w ws ih =>
    rw [map_cons, nodup_cons] at hnodup
    rw [Datax.committed, lastWrite]
    by_cases hk : k = w.1
    · subst hk
      rw [committed_of_notMem hnodup.1, update_self, lastWrite_eq_none_iff.mpr hnodup.1,
        if_pos rfl]
      rfl
    · rw [ih hnodup.2, update_of_ne hk, if_neg (Ne.symm hk), or_none]

def Leaves (base : Key → KeyHistory) (effects : Effects) (p : Timestamp × (Key → KeyHistory)) :
    Prop :=
  ∀ k, p.2 k = (base k).withVersion p.1 (effects k) ∧ (effects k ≠ none → (base k).Below p.1)

variable {refreshes : List (Timestamp × (ReadSpan → Bool))}

theorem Inv.classic (h : Inv base s) (hguard : s.session.anchored = true ∨ s.session.writes = [])
    (hp : commitClassic s refreshes = some p) : Leaves base s.effects p := by
  unfold commitClassic at hp
  split at hp
  · cases hp
  rename_i hpend
  have hpending : s.pending = [] := not_not.mp hpend
  have heff : ∀ k, s.effects k = ownValue s.session.txn.id (s.ranges.data k) := by
    intro k
    rw [h.effects k, hpending, lastWrite, none_or]
  split at hp
  · rename_i hno
    cases hp
    have hwrites : s.session.writes = [] := hguard.resolve_left (by simpa using hno)
    intro k
    have hown : ownValue s.session.txn.id (s.ranges.data k) = none := by
      by_contra hne
      have hmem := h.kept.tracked k hne
      simp [hwrites] at hmem
    rw [heff k, hown]
    refine ⟨?_, fun hne => absurd rfl hne⟩
    dsimp only
    rw [resolveAll, (h.kept.overlaid k).resolve_aborted]
    rfl
  · dsimp only at hp
    split at hp
    · rename_i rec resp hend
      cases hp
      have hadv := Advanced.of_moved (s.session.refreshAll_moved refreshes)
      have hkept := h.kept.advanced hadv
      intro k
      obtain ⟨hres, hbelow⟩ := resolveAll_committed hkept k
      rw [commitTimestamp_of_open h.running hend, heff k, ← hadv.id]
      exact ⟨hres, hbelow⟩
    · cases hp

theorem Inv.onePhase (h : Inv base s) (hp : commit1PC s refreshes = some p) :
    Leaves base s.effects p := by
  unfold commit1PC at hp
  split_ifs at hp with hgo
  simp only [Bool.or_eq_true, decide_eq_true_eq, bne_iff_ne, not_or, not_not] at hgo
  have hwrites := hgo.2
  have hown : ∀ k, ownValue s.session.txn.id (s.ranges.data k) = none := by
    intro k
    by_contra hne
    have hmem := h.kept.tracked k hne
    simp [hwrites] at hmem
  have hbare := fun k => eq_base_of_bare (h.kept.overlaid k) (hown k)
  have heff : ∀ k, s.effects k = lastWrite s.pending k := by
    intro k
    rw [h.effects k, hown k, or_none]
  dsimp only at hp
  have hadv := (advanced_prepareWrite s.session (s.pending.map Prod.fst)).trans
    (Advanced.of_moved (Session.refreshAll_moved _ refreshes))
  generalize (s.session.prepareWrite (s.pending.map Prod.fst)).1.refreshAll refreshes = t at hp hadv
  split at hp
  · rename_i data' resp hone
    cases hp
    rcases evalOnePhase_cases s.ranges.record s.ranges.data ⟨t.txn, s.pending⟩ with
      ⟨⟨hadm, hsingle⟩, hok⟩ | ⟨_, err, herr⟩
    · rw [hone] at hok
      cases hok
      intro k
      rw [heff k, ← (hbare k).1]
      refine ⟨?_, ?_⟩
      · dsimp only
        -- nothing of the transaction's own is left to resolve
        have hself : Overlaid t.txn.toTxnMeta
            (Datax.committed t.txn.writeTimestamp s.pending s.ranges.data k)
            (Datax.committed t.txn.writeTimestamp s.pending s.ranges.data k) := by
          apply Overlaid.bare
          intro i hi
          rw [committed_intent] at hi
          rw [hadv.id]
          exact (hbare k).2 i hi
        rw [resolveAll, hself.resolve_aborted]
        exact committed_eq hsingle.nodup s.ranges.data k
      · intro hne
        have hk : k ∈ s.pending.map Prod.fst := by
          by_contra hno
          exact hne (lastWrite_eq_none_iff.mpr hno)
        obtain ⟨w, hw, rfl⟩ := mem_map.mp hk
        have hwr := hadm.writable w hw
        simp only [KeyHistory.Writable, hsingle.bare w hw] at hwr
        exact hwr
    · simp [hone] at herr
  · cases hp

theorem Inv.parallel (h : Inv base s) {attempts : List Attempt}
    (hp : parallelCommit s attempts refreshes gcThreshold = some p) : Leaves base s.effects p := by
  unfold parallelCommit at hp
  dsimp only at hp
  split at hp
  · cases hp
  rename_i hgo
  have hw := writes_runBatch s.pending
  have hshares : ∀ a ∈ attempts, ∀ q ∈ a.parts, (Op.runBatch s.pending).shares q = true := by
    simp only [Bool.or_eq_true, not_or] at hgo
    simpa using hgo.2
  generalize hkeys : (Op.runBatch s.pending).keys = kys at hp
  split_ifs at hp with hans
  have hself := Advanced.refl s.session
  have hrecorded := advanced_recordWrites (s.session.prepareWrite kys).1 kys
  have hover : ∀ k, Overlaid ((s.session.prepareWrite kys).1.recordWrites kys).txn.toTxnMeta
      (base k) (s.ranges.data k) := by
    intro k
    exact (h.prepared hself kys k).mono hrecorded.id hrecorded.epoch hrecorded.sequence
  rcases hsent :
    sendAttempts false attempts ((s.session.prepareWrite kys).1.recordWrites kys) s.ranges with
    ⟨t, st, acks⟩
  obtain ⟨hwrote, hholds, _⟩ := sendAttempts_wrote hw hshares hover hsent
  have hmoved :=
    sendAttempts_moved false attempts ((s.session.prepareWrite kys).1.recordWrites kys) s.ranges
  have hopen := (sendAttempts_kept false attempts
    ((s.session.prepareWrite kys).1.recordWrites kys) s.ranges).2 h.running
  rw [hsent] at hp hans hmoved hopen
  have hafter := ((t.adopt_moved acks).trans (Session.refreshAll_moved _ refreshes))
  have hu : Advanced (s.session.prepareWrite kys).1 ((t.adopt acks).refreshAll refreshes) :=
    hrecorded.trans (Advanced.of_moved (hmoved.trans hafter))
  have htxn : ((s.session.prepareWrite kys).1.recordWrites kys).txn =
      (s.session.prepareWrite kys).1.txn :=
    recordWrites_txn _ _
  rw [htxn] at hwrote hholds
  obtain ⟨hkept, hown⟩ := Kept.recorded h hself hu hwrote hholds hans
    (fun a ha =>
      (t.le_adopt ha).trans (Advanced.of_moved (Session.refreshAll_moved _ refreshes)).stamp)
    (fun k hk => (Advanced.of_moved (hmoved.trans hafter)).writes k
      ((mem_recordWrites _ _ k).mpr (.inr (hkeys ▸ hk))))
  split at hp
  · cases hp
  rename_i st' hcreate
  split at hp
  · rename_i rec resp hend
    cases hp
    intro k
    obtain ⟨hres, hbelow⟩ := resolveAll_committed hkept k
    rw [commitTimestamp_of_open (evalCreate_open hopen hcreate) hend, (evalCreate_ok hcreate).1,
      h.effects k, hown k]
    exact ⟨hres, hbelow⟩
  · cases hp

end Commits

variable {base : Key → KeyHistory} {s : Scoped}

theorem Inv.quiet (h : Inv base s) (hc : s.committed = none) :
    Inv base { s with restored := none } := by
  exact h.ran hc (Advanced.refl _) h.running h.kept h.effects fun _ _ _ => rfl

theorem Inv.commit (h : Inv base s) {via : Via} (hc : orderly s (.commit via) = true)
    (hp : Scopes.commit s via = some p) :
    Inv base { s with
      session := { s.session with finished := true }, restored := none, committed := some p } := by
  have hleaves : Leaves base s.effects p := by
    cases via with
    | classic refreshes => exact h.classic (by simpa [orderly] using hc) hp
    | onePhase refreshes => exact h.onePhase hp
    | parallel attempts refreshes gcThreshold => exact h.parallel hp
  constructor
  case kept => exact ⟨h.kept.overlaid, h.kept.stamped, h.kept.tracked⟩
  case stacked =>
    exact ⟨h.stacked.sequence, h.stacked.orders, h.stacked.seqs, h.stacked.floor, h.stacked.nested⟩
  case running => exact h.running
  case effects => exact h.effects
  case saved => exact h.saved
  case restored =>
    intro m hm
    cases hm
  case commits =>
    intro q hq
    cases hq
    exact hleaves

section
variable {s' : Scoped} (h : Inv base s) (hopen : s.committed = none)
include h hopen

theorem Inv.rollbackTo (hc : orderly s (.rollbackTo name applied) = true)
    (hs : advance s (.rollbackTo name applied) = some s') : Inv base s' := by
  simp only [advance] at hs
  split at hs
  · cases hs
  rename_i sp hfind
  split at hs
  · cases hs
  rename_i hgo
  simp only [Bool.or_eq_true, decide_eq_true_eq, not_or, not_not, ne_eq] at hgo
  obtain ⟨⟨hfin, hpending⟩, _⟩ := hgo
  split at hs
  · rename_i t ht
    cases hs
    rw [Session.rollbackToSavepoint_ok hfind ht]
    apply h.rollback hopen hpending hfind
    intro k hk
    have hne : s.session.writes ≠ [] := by
      rintro hnil
      simp [hnil] at hk
    by_contra hno
    have hmiss : ¬ (s.session.writes.all fun k => applied.contains k) = true := by
      simp only [all_eq_true, not_forall]
      exact ⟨k, hk, by simpa using hno⟩
    rw [if_neg hmiss] at ht
    simp [Session.rollbackToSavepoint, hfind, hfin, hne] at ht
  · rename_i err ht
    cases hs
    -- only a rollback that sent nothing can fail here
    have happlied : applied = [] := by
      simp only [orderly, Bool.or_eq_true, beq_iff_eq] at hc
      rcases hc with hnil | hall
      · exact hnil
      · rw [if_pos hall] at ht
        simp [Session.rollbackToSavepoint, hfind, hfin] at ht
    have hsame : rollbackIntents s.session.txn.id sp.seq applied s.ranges = s.ranges := by
      rw [happlied]
      simp [rollbackIntents]
    rw [hsame]
    exact h.quiet hopen

theorem Inv.op {o : Op} {ws : List (Key × Option Bytes)} (hw : Writes o ws)
    {attempts : List Attempt} {ret : Returned}
    (hwhole : failsWhole s.session s.ranges o attempts ret = true)
    (hs : (if s.pending ≠ [] then none else (runOp o attempts ret s.session s.ranges).map fun p =>
      s.ran p (if ret = .ok then s.effects.overlay ws else s.effects)) = some s') :
    Inv base s' := by
  split at hs
  · cases hs
  rename_i hpending
  have hpending := not_not.mp hpending
  obtain ⟨p, hp, rfl⟩ := map_eq_some_iff.mp hs
  by_cases hret : ret = .ok
  · subst hret
    rw [if_pos rfl]
    apply h.op_ok hopen hw (d := s.session.deferred) hpending hp
    intro k
    rw [Effects.overlay, h.effects k, hpending, lastWrite, none_or]
  · rw [if_neg hret]
    exact h.op_failed hopen hw hret hwhole hp

end

theorem inv_step (s : Scoped) (a : Action) (s' : Scoped) (h : Inv base s) (hc : orderly s a = true)
    (hs : step s a = some s') : Inv base s' := by
  unfold step at hs
  split_ifs at hs with hno
  have hopen : s.committed = none := by simpa using hno
  cases a with
  | rollbackTo name applied => exact h.rollbackTo hopen hc hs
  | write w attempts ret =>
    exact h.op hopen (writes_writeOp w) hc hs
  | runBatch writes attempts ret =>
    simp only [advance] at hs
    split at hs
    · split_ifs at hs
      cases hs
      exact h.defer hopen writes
    · rename_i hpipe
      exact h.op hopen (writes_runBatch writes) (by simpa [orderly, hpipe] using hc) hs
  | flush attempts ret =>
    obtain ⟨p, hp, rfl⟩ := map_eq_some_iff.mp hs
    have hret : ret = .ok := by simpa [orderly] using hc
    subst hret
    exact h.op_ok hopen (writes_runBatch s.pending) rfl hp h.effects
  | savepoint name =>
    obtain ⟨t, ht, rfl⟩ := map_eq_some_iff.mp hs
    exact h.savepoint hopen (by simpa [orderly] using hc) (Fallible.ok_of_toOption ht)
  | release name =>
    obtain ⟨t, ht, rfl⟩ := map_eq_some_iff.mp hs
    exact h.release hopen (Fallible.ok_of_toOption ht)
  | commit via =>
    simp only [advance] at hs
    split_ifs at hs
    obtain ⟨p, hp, rfl⟩ := map_eq_some_iff.mp hs
    exact h.commit hc hp

def begun (id : UUID) (priority : Int) (now : Timestamp) (pipelining : Bool)
    (base : Key → KeyHistory) : Scoped where
  session := { Session.newTxn id priority now with pipelining := pipelining }
  ranges := ⟨none, base⟩

theorem inv_begun {id : UUID} {priority : Int} {now : Timestamp} {pipelining : Bool}
    (hnew : ∀ k, ∀ i ∈ (base k).intent, i.txn.id ≠ id) :
    Inv base (begun id priority now pipelining base) := by
  have hover : ∀ k,
      Overlaid (begun id priority now pipelining base).session.txn.toTxnMeta (base k) (base k) :=
    fun k => Overlaid.bare (hnew k)
  have hown : ∀ k,
      ownValue (begun id priority now pipelining base).session.txn.id (base k) = none :=
    fun k => ownValue_base (hnew k)
  constructor
  case kept =>
    exact ⟨hover, fun k i hi hid => absurd hid (hnew k i hi), fun k hne => absurd (hown k) hne⟩
  case stacked =>
    refine ⟨le_rfl, ?_, ?_, rfl, ?_⟩
    · intro p hp
      cases hp
    · intro p hp
      cases hp
    · intro p hp
      cases hp
  case running =>
    intro r hr
    cases hr
  case effects => exact fun k => (hown k).symm
  case saved | commits =>
    intro p hp
    cases hp
  case restored =>
    intro m hm
    cases hm

def reaches (ws : List (Key × Option Bytes)) : Attempt :=
  { parts := [{ requests := ws.map intentRequest }] }

end Datax.Scopes
