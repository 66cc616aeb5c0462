import Datax.Kvserver.OnePhase
import Datax.Kvserver.TxnStaging

/-!
# One-phase and classic commits compared

On the keys where both paths succeed the versions it leaves are those of the one-phase path, so the
two differ only in what they refuse.
-/

namespace Datax

open Function List Ranges Request

def KeyHistory.HeldBy (h : KeyHistory) (txn : TxnMeta) : Prop :=
  ∃ history, h.intent = some ⟨txn, txn.writeTimestamp, history⟩

section Classic
variable {header : BatchHeader} {txn : Transaction} {st : Ranges} {w : Key × Option Bytes}

theorem evalRequest_ofWrite (hh : header.txn = some txn) (st : Ranges) (w : Key × Option Bytes) :
    ∃ resp, evalRequest header st (ofWrite w) =
      (mvccPut st w.1 txn.writeTimestamp w.2 (some txn.toTxnMeta)).map fun st => (st, resp) := by
  have hmeta : header.meta? = some txn.toTxnMeta := by rw [BatchHeader.meta?, hh, Option.map_some]
  have hts : writeTimestamp header = txn.writeTimestamp := by simp only [writeTimestamp, hh]
  obtain ⟨key, value⟩ := w
  cases value with
  | some value => exact ⟨.put, by simp only [ofWrite, evalRequest, hmeta, hts]⟩
  | none => exact ⟨.delete, by simp only [ofWrite, evalRequest, hmeta, hts]⟩

variable {key : Key} {kh : KeyHistory}

theorem setHistory_heldBy (hkh : kh.HeldBy txn.toTxnMeta) {k : Key}
    (hk : k = key ∨ (st.data k).HeldBy txn.toTxnMeta) :
    ((st.setHistory key kh).data k).HeldBy txn.toTxnMeta := by
  by_cases heq : k = key
  · subst heq
    simpa only [setHistory, update_self] using hkh
  · simp only [setHistory, update_of_ne heq]
    exact hk.resolve_left heq

theorem setHistory_writable (hw : (st.data key).Writable txn.toTxnMeta)
    (hkh : kh.Writable txn.toTxnMeta) (k : Key) :
    ((st.setHistory key kh).data k).Writable txn.toTxnMeta ↔
      (st.data k).Writable txn.toTxnMeta := by
  by_cases heq : k = key
  · subst heq
    simp only [setHistory, update_self]
    exact ⟨fun _ => hw, fun _ => hkh⟩
  · simp only [setHistory, update_of_ne heq]

/-- What a batch of intents leaves: an intent on each key it writes, nothing else
touched, and on bare keys the versions of the one-phase path. -/
structure Laid (txn : Transaction) (writes : List (Key × Option Bytes)) (st st' : Ranges) :
    Prop where
  record : st'.record = st.record
  held : ∀ k, k ∈ writes.map Prod.fst ∨ (st.data k).HeldBy txn.toTxnMeta →
    (st'.data k).HeldBy txn.toTxnMeta
  off : ∀ k, k ∉ writes.map Prod.fst → st'.data k = st.data k
  versions : Bare txn.writeTimestamp writes st.data → ∀ k,
    (st'.data k).versions = (committed txn.writeTimestamp writes st.data k).versions

theorem laid_nil (txn : Transaction) (st : Ranges) : Laid txn [] st st where
  record := rfl
  held _ hk := hk.resolve_left not_mem_nil
  off _ _ := rfl
  versions _ _ := rfl

theorem laid_cons {writes : List (Key × Option Bytes)} {st' : Ranges}
    (hm : mvccWrite (st.data w.1) w.1 txn.writeTimestamp w.2 (some txn.toTxnMeta) = .ok kh)
    (h : Laid txn writes (st.setHistory w.1 kh) st') : Laid txn (w :: writes) st st' where
  record := h.record
  held := by
    intro k hk
    apply h.held
    have hheld : kh.HeldBy txn.toTxnMeta := (mvccWrite_txn_ok hm).1
    rw [map_cons, mem_cons, or_assoc] at hk
    rcases hk with hk | hk | hk
    · exact .inr (setHistory_heldBy hheld (.inl hk))
    · exact .inl hk
    · exact .inr (setHistory_heldBy hheld (.inr hk))
  off := by
    intro k hk
    rw [map_cons, mem_cons, not_or] at hk
    rw [h.off k hk.2]
    exact update_of_ne hk.1 _ _
  versions := by
    intro hb k
    have hw := hb.2 w mem_cons_self
    rw [mvccWrite_of_below hw.1 hw.2] at hm
    cases hm
    have hbare : Bare txn.writeTimestamp writes
        (st.setHistory w.1 (layIntent (st.data w.1) txn.toTxnMeta w.2 [])).data := by
      obtain ⟨hnodup, hall⟩ := hb
      rw [map_cons, nodup_cons] at hnodup
      refine ⟨hnodup.2, ?_⟩
      intro q hq
      have hne : q.1 ≠ w.1 := fun heq => hnodup.1 (heq ▸ mem_map_of_mem hq)
      simp only [setHistory, update_of_ne hne]
      exact hall q (mem_cons_of_mem w hq)
    rw [h.versions hbare k, committed]
    apply committed_versions_congr
    intro q
    by_cases hq : q = w.1
    · subst hq
      simp only [setHistory, update_self, layIntent]
    · simp only [setHistory, update_of_ne hq]

theorem evalWrites_cases (header : BatchHeader) (hh : header.txn = some txn)
    (writes : List (Key × Option Bytes)) (st : Ranges) :
    ((∀ w ∈ writes, (st.data w.1).Writable txn.toTxnMeta) ∧
        ∃ st' resps, evalRequests header (writes.map ofWrite) st [] = .ok (st', resps) ∧
          Laid txn writes st st') ∨
      ¬ (∀ w ∈ writes, (st.data w.1).Writable txn.toTxnMeta) ∧
        ∃ err, evalRequests header (writes.map ofWrite) st [] = .error err := by
  induction writes generalizing st with
  | nil => exact .inl ⟨by simp, st, [], rfl, laid_nil txn st⟩
  | cons w writes ih =>
    obtain ⟨resp, hq⟩ := evalRequest_ofWrite hh st w
    rcases mvccWrite_cases (st.data w.1) w.1 w.2 txn.toTxnMeta with ⟨hw, kh, hm, hkh⟩
      | ⟨hw, err, hm⟩
    · have hstep : evalRequest header st (ofWrite w) = .ok (st.setHistory w.1 kh, resp) := by
        rw [hq, mvccPut, hm]
        rfl
      have hall : (∀ q ∈ w :: writes, (st.data q.1).Writable txn.toTxnMeta) ↔
          ∀ q ∈ writes, ((st.setHistory w.1 kh).data q.1).Writable txn.toTxnMeta := by
        simp only [forall_mem_cons, hw, true_and, setHistory_writable hw hkh]
      rw [hall, map_cons, evalRequests, hstep]
      rcases ih (st.setHistory w.1 kh) with ⟨hr, st', resps, hok, hlaid⟩ | ⟨hr, err, herr⟩
      · exact .inl ⟨hr, st', resp :: resps, by simp only [hok, Except.map], laid_cons hm hlaid⟩
      · exact .inr ⟨hr, err, by simp only [herr, Except.map]⟩
    · right
      refine ⟨fun h => hw (h w mem_cons_self), ?_⟩
      have hstep : evalRequest header st (ofWrite w) = .error (.storage err) := by
        rw [hq, mvccPut, hm]
        rfl
      cases hres : evalRequests header ((w :: writes).map ofWrite) st [] with
      | error e => exact ⟨e, rfl⟩
      | ok p =>
        obtain ⟨st₁, resp₁, _, h₁, _⟩ := evalRequests_cons_ok hres
        simp [hstep] at h₁

theorem mvccResolveIntent_held {h : KeyHistory} {txn : TxnMeta}
    (hh : h.intent = none ∨ h.HeldBy txn) :
    mvccResolveIntent h key txn.id .committed txn.writeTimestamp =
      .ok { h with intent := none } := by
  rcases hh with hi | ⟨history, hi⟩
  · simp only [mvccResolveIntent, hi, reduceCtorEq, if_false]
    rw [← hi]
  · simp [mvccResolveIntent, hi]

theorem evalResolves (header : BatchHeader) (txn : TxnMeta) {kys : List Key} (st : Ranges)
    (hh : ∀ k ∈ kys, (st.data k).intent = none ∨ (st.data k).HeldBy txn) :
    ∃ st' resps, evalRequests header
        (kys.map fun k => .resolveIntent k txn.id .committed txn.writeTimestamp) st [] =
          .ok (st', resps) ∧
      ∀ k, st'.data k = if k ∈ kys then { st.data k with intent := none } else st.data k := by
  induction kys generalizing st with
  | nil => exact ⟨st, [], rfl, fun k => by simp⟩
  | cons key kys ih =>
    have hq : evalRequest header st (.resolveIntent key txn.id .committed txn.writeTimestamp) =
        .ok (st.setHistory key { st.data key with intent := none }, .resolveIntent) := by
      simp only [evalRequest, mvccResolveIntent_held (hh key mem_cons_self)]
    have hrest : ∀ k ∈ kys,
        ((st.setHistory key { st.data key with intent := none }).data k).intent = none ∨
        ((st.setHistory key { st.data key with intent := none }).data k).HeldBy txn := by
      intro k hk
      by_cases heq : k = key
      · subst heq
        left
        simp only [setHistory, update_self]
      · simp only [setHistory, update_of_ne heq]
        exact hh k (mem_cons_of_mem key hk)
    obtain ⟨st', resps, hok, hdata⟩ := ih _ hrest
    refine ⟨st',
      .resolveIntent :: resps, by simp only [map_cons, evalRequests, hq, hok, Except.map], ?_⟩
    intro k
    rw [hdata k]
    by_cases heq : k = key
    · subst heq
      simp [setHistory]
    · simp [setHistory, heq]

end Classic

section Comparison
variable {gcThreshold : Timestamp} {st : Ranges} {ba : BatchRequest} {txn : Transaction}

theorem creatable_iff {rec : Option Transaction} (hopen : ∀ r ∈ rec, r.status ≠ .aborted) :
    createTxnRecord gcThreshold rec txn = .ok { txn with status := .pending } ↔
      Creatable gcThreshold rec txn := by
  rw [createTxnRecord_ok_iff]
  constructor
  · rintro ⟨hyoung, hrec, _⟩
    refine ⟨hyoung, ?_⟩
    intro r hr hst
    rcases hrec r hr with h | h <;> rw [hst] at h <;> cases h
  · rintro ⟨hyoung, hrec⟩
    refine ⟨hyoung, ?_, rfl⟩
    intro r hr
    have ha := hopen r hr
    have hc := hrec r hr
    cases hst : r.status with
    | pending => exact .inl rfl
    | staging => exact .inr rfl
    | committed => exact absurd hst hc
    | aborted => exact absurd hst ha

theorem evalWriteBatch_create (header : BatchHeader) {qs : List Request}
    {p : Ranges × BatchResponse} (hh : header.txn = some txn) (hc : header.createTxnRecord = true)
    (hb : evalWriteBatch gcThreshold st ⟨header, qs⟩ = .ok p) :
    createTxnRecord gcThreshold st.record txn = .ok { txn with status := .pending } ∧
      ∃ resps, evalRequests header qs
        { st with record := some { txn with status := .pending } } [] =
        .ok (p.1, resps) := by
  unfold evalWriteBatch at hb
  split at hb
  · cases hb
  rename_i st₁ hcreate
  obtain ⟨⟨st₂, resps⟩, hreqs, rfl⟩ := Fallible.map_eq_ok.mp hb
  rcases evalCreate_cases hcreate with ⟨hno, _⟩ | ⟨_, t, ht, hr, rfl⟩
  · simp [hc] at hno
  · cases hh.symm.trans ht
    exact ⟨hr, resps, hreqs⟩

section
variable (hshape : is1PC ba = true) (htxn : ba.header.txn = some txn)
include hshape htxn

/-- On an admissible batch whose record may be created the classic path commits; on
bare keys it leaves the versions of the one-phase path. -/
theorem classicCommit_ok
    (hadm : Admissible st.record st.data (ba.onePhase txn))
    (hcr : Creatable gcThreshold st.record txn) :
    ∃ st', classicCommit gcThreshold st ba txn = .ok (st', ⟨txn.writeTimestamp, false⟩) ∧
      (Bare txn.writeTimestamp ba.writes st.data →
        st'.data = committed txn.writeTimestamp ba.writes st.data) := by
  have hcreate := (creatable_iff hadm.open_).mpr hcr
  have hkys : ba.requests.dropLast.map key = ba.writes.map Prod.fst := by
    rw [dropLast_of_is1PC hshape, map_map]
    exact map_congr_left fun w _ => key_ofWrite w
  have hwrites := evalWrites_cases { ba.header with createTxnRecord := true } htxn ba.writes
    { st with record := some { txn with status := .pending } }
  rcases hwrites with ⟨_, st₂, resps, hok, hlaid⟩ | ⟨hno, _⟩
  · have hbatch : evalWriteBatch gcThreshold st
        ⟨{ ba.header with createTxnRecord := true }, ba.requests.dropLast⟩ =
          .ok (st₂, ⟨ba.header.txn, resps⟩) := by
      have hc : evalCreate gcThreshold st { ba.header with createTxnRecord := true } =
          .ok { st with record := some { txn with status := .pending } } := by
        simp only [evalCreate, if_true, htxn, hcreate, Except.map]
      simp only [evalWriteBatch, hc, dropLast_of_is1PC hshape, hok, Except.map]
    have hend : evalEndTxn st₂.record txn { commit := true, intentKeys := ba.writes.map Prod.fst } =
        .ok (some (finalRecord txn { commit := true, intentKeys := ba.writes.map Prod.fst }),
          ⟨txn.writeTimestamp, false⟩) := by
      apply evalEndTxn_ok_iff.mpr
      refine ⟨rfl, .inr ⟨?_, fun _ => hadm.equal, rfl, rfl⟩⟩
      rw [hlaid.record]
      rintro e ⟨⟩
      exact ⟨.inl rfl, le_refl _⟩
    obtain ⟨st₃, resps', hres, hdata⟩ := evalResolves {} txn.toTxnMeta
      { st₂ with
        record := some (finalRecord txn
          { commit := true, intentKeys := ba.writes.map Prod.fst }) }
      (fun k hk => .inr (hlaid.held k (.inl hk)))
    refine ⟨st₃, ?_, ?_⟩
    · have hresolve : evalWriteBatch gcThreshold
          { st₂ with
            record := some (finalRecord txn
              { commit := true, intentKeys := ba.writes.map Prod.fst }) }
          ⟨{}, (ba.writes.map Prod.fst).map fun k =>
            .resolveIntent k txn.id .committed txn.writeTimestamp⟩ = .ok (st₃, ⟨none, resps'⟩) := by
        simp only [evalWriteBatch, evalCreate, Bool.false_eq_true, if_false, hres, Except.map]
      simp only [classicCommit, hkys, hbatch, hend, hresolve]
    · intro hbare
      funext k
      rw [hdata k]
      split
      · rename_i hk
        obtain ⟨w, hw, rfl⟩ := mem_map.mp hk
        have hi : (committed txn.writeTimestamp ba.writes st.data w.1).intent = none := by
          rw [committed_intent]
          exact (hbare.2 w hw).1
        calc ({ st₂.data w.1 with intent := none } : KeyHistory)
            = ⟨none, (committed txn.writeTimestamp ba.writes st.data w.1).versions⟩ := by
              rw [← hlaid.versions hbare w.1]
          _ = committed txn.writeTimestamp ba.writes st.data w.1 := by rw [← hi]
      · rename_i hk
        exact (hlaid.off k hk).trans (committed_of_notMem hk).symm
  · exact absurd hadm.writable hno

theorem of_classicCommit_ok {p : Ranges × EndTxnResponse}
    (h : classicCommit gcThreshold st ba txn = .ok p) :
    Admissible st.record st.data (ba.onePhase txn) ∧ Creatable gcThreshold st.record txn := by
  unfold classicCommit at h
  simp only [dropLast_of_is1PC hshape] at h
  split at h
  · cases h
  rename_i st₁ br hb
  obtain ⟨hcreate, resps, hreqs⟩ :=
    evalWriteBatch_create { ba.header with createTxnRecord := true } htxn rfl hb
  have hopen : ∀ r ∈ st.record, r.status ≠ .aborted := by
    intro r hr hst
    rcases (createTxnRecord_ok_iff.mp hcreate).2.1 r hr with h | h <;> rw [hst] at h <;> cases h
  split at h
  · cases h
  rename_i rec resp hend
  have hwrites := evalWrites_cases { ba.header with createTxnRecord := true } htxn ba.writes
    { st with record := some { txn with status := .pending } }
  rcases hwrites with ⟨hwr, st₂, resps₂, hok, hlaid⟩ | ⟨_, err, herr⟩
  · rw [hok] at hreqs
    cases hreqs
    obtain ⟨_, ⟨e, he, hst, _⟩ | ⟨_, heq, _⟩⟩ := evalEndTxn_ok_iff.mp hend
    · rw [hlaid.record] at he
      cases he
      cases hst
    · exact ⟨⟨heq rfl, hopen, hwr⟩, (creatable_iff hopen).mp hcreate⟩
  · simp [herr] at hreqs

end

theorem except_cases {ε α : Type} (x : Except ε α) : (∃ a, x = .ok a) ∨ ∃ e, x = .error e := by
  cases x with
  | error e => exact .inr ⟨e, rfl⟩
  | ok a => exact .inl ⟨a, rfl⟩

end Comparison

/-- A one-phase batch and the classic commit of its writes agree exactly when the
batch is refused on both paths anyway, or the refusals of their own, a repeated key
or an intent of the transaction on the one side and a record that may not be
created on the other, are both absent or both present. -/
theorem onePhase_classic_agree_iff (gcThreshold : Timestamp) (st : Ranges) (ba : BatchRequest)
    (txn : Transaction) (hshape : is1PC ba = true) (htxn : ba.header.txn = some txn) :
    SameCommit (evalOnePhase st.record st.data (ba.onePhase txn))
      (classicCommit gcThreshold st ba txn) ↔
      (Admissible st.record st.data (ba.onePhase txn) →
        (Single st.data (ba.onePhase txn) ↔ Creatable gcThreshold st.record txn)) := by
  rcases evalOnePhase_cases st.record st.data (ba.onePhase txn) with ⟨⟨hadm, hsingle⟩, hone⟩
    | ⟨hone, err, herr⟩
  · by_cases hcr : Creatable gcThreshold st.record txn
    · obtain ⟨st', hclassic, hdata⟩ := classicCommit_ok hshape htxn hadm hcr
      have hbare : Bare txn.writeTimestamp ba.writes st.data := by
        refine ⟨hsingle.nodup, ?_⟩
        intro w hw
        have hi := hsingle.bare w hw
        have hwr := hadm.writable w hw
        simp only [KeyHistory.Writable, hi] at hwr
        exact ⟨hi, hwr⟩
      rw [hone, hclassic]
      simp only [SameCommit, hdata hbare]
      exact ⟨fun _ _ => ⟨fun _ => hcr, fun _ => hsingle⟩,
        fun _ => ⟨fun _ => rfl, rfl, fun _ _ _ => rfl⟩⟩
    · rcases except_cases (classicCommit gcThreshold st ba txn) with ⟨p, hp⟩ | ⟨err, herr⟩
      · exact absurd (of_classicCommit_ok hshape htxn hp).2 hcr
      rw [hone, herr]
      simp only [SameCommit, false_iff]
      exact fun h => hcr ((h hadm).mp hsingle)
  · rcases except_cases (classicCommit gcThreshold st ba txn) with ⟨p, hp⟩ | ⟨err', herr'⟩
    · obtain ⟨hadm, hcr⟩ := of_classicCommit_ok hshape htxn hp
      rw [herr, hp]
      simp only [SameCommit, false_iff]
      exact fun h => hone ⟨hadm, (h hadm).mpr hcr⟩
    · rw [herr, herr']
      simp only [SameCommit, true_iff]
      intro hadm
      constructor
      · exact fun hs => absurd ⟨hadm, hs⟩ hone
      intro hcr
      obtain ⟨st', hst', _⟩ := classicCommit_ok hshape htxn hadm hcr
      rw [hst'] at herr'
      cases herr'

def commitAll (writes : List Request) : BatchRequest :=
  ⟨{ txn := some sampleTxn, createTxnRecord := true },
    writes ++ [.endTxn [4] { commit := true, all := true }]⟩

def emptyRanges : Ranges := ⟨none, fun _ => KeyHistory.empty⟩

theorem onePhase_agrees_distinct_keys : is1PC (commitAll [.put [4] [1], .delete [5]]) = true ∧
      SameCommit (evalOnePhase none emptyRanges.data
        ((commitAll [.put [4] [1], .delete [5]]).onePhase sampleTxn))
    (classicCommit ⊥ emptyRanges (commitAll [.put [4] [1], .delete [5]]) sampleTxn) := by
  refine ⟨by decide, ?_⟩
  apply (onePhase_classic_agree_iff ⊥ emptyRanges _ sampleTxn (by decide) rfl).mpr
  intro _
  constructor
  · exact fun _ => ⟨fun h => h.1 rfl, by rintro r ⟨⟩⟩
  · exact fun _ => ⟨by decide, fun _ _ => rfl⟩

/-- A key written twice: the one-phase path finds the first write at its own
timestamp and refuses the second, the classic path commits both. -/
theorem onePhase_refuses_rewrite : is1PC (commitAll [.put [4] [1], .put [4] [2]]) = true ∧
      evalOnePhase none emptyRanges.data
        ((commitAll [.put [4] [1], .put [4] [2]]).onePhase sampleTxn) =
        .error (.storage (.writeTooOld ⟨1, 0⟩ ⟨1, 1⟩)) ∧
      (∃ p, classicCommit ⊥ emptyRanges (commitAll [.put [4] [1], .put [4] [2]])
        sampleTxn = .ok p) ∧
      ¬ SameCommit (evalOnePhase none emptyRanges.data
        ((commitAll [.put [4] [1], .put [4] [2]]).onePhase sampleTxn))
    (classicCommit ⊥ emptyRanges (commitAll [.put [4] [1], .put [4] [2]]) sampleTxn) := by
  have hone : evalOnePhase none emptyRanges.data
      ((commitAll [.put [4] [1], .put [4] [2]]).onePhase sampleTxn) =
        .error (.storage (.writeTooOld ⟨1, 0⟩ ⟨1, 1⟩)) := rfl
  obtain ⟨p, hp⟩ :
      ∃ p, classicCommit ⊥ emptyRanges (commitAll [.put [4] [1], .put [4] [2]]) sampleTxn = .ok p :=
    ⟨_, rfl⟩
  refine ⟨by decide, hone, ⟨p, hp⟩, ?_⟩
  exact id

end Datax
