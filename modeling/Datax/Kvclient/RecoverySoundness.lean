import Datax.Kvserver.StagedKeys
import Datax.Kvclient.Agreement

/-!
# Soundness of status recovery

A recovery run takes the intent it finds on an in-flight key for the write of the staged
batch, though it recognizes the intent by the transaction's id alone. That is sound when no
earlier batch laid an intent on one of the keys: every intent of the transaction there is
then the staged batch's own.
-/

namespace Datax.ParallelCommit

open Option (bind_eq_some_iff map_eq_some_iff)

open List Request

/-- No batch sent before the commit laid an intent on a key of the staged batch. -/
def finalKeysFresh (s : Cluster) : Action → Bool
  | .coord (.parallelCommit requests _) =>
    s.sent.all fun ba => ba.requests.all fun q =>
      q.lays.all fun k => !(requests.map key).contains k
  | _ => true

def FinalApplied (applied : List Applied) (f : FinalBatch) (ts : Timestamp) (k : Key) : Prop :=
  ∃ w ∈ applied, w.key = k ∧ w.sequence = f.sequence ∧ w.timestamp ≤ ts

/-- Every recovery that sent `RecoverTxn` to commit did so with the whole staged
batch applied. -/
def RecoverySound (s : Cluster) : Prop :=
  ∀ t ∈ s.recoveries, t.concluded = true → t.committed = true →
    ∃ f ∈ s.final, ∀ k ∈ t.inFlight, FinalApplied s.applied f t.stagedTS k

/-- The keys probed so far have the staged batch's write. -/
structure Probed (applied : List Applied) (f : FinalBatch) (t : Recovery) : Prop where
  keys : t.inFlight = f.keys
  done : t.committed = true →
    ∃ done, t.inFlight = done ++ t.rest ∧ ∀ k ∈ done, FinalApplied applied f t.stagedTS k
  concluded : t.concluded = true → t.rest = []

def Lays (bs : List BatchRequest) (k : Key) (sequence : Int) : Prop :=
  ∃ ba ∈ bs, ∃ txn, ba.header.txn = some txn ∧ txn.sequence = sequence ∧ ∃ q ∈ ba.requests,
    q.lays = some k

def FinalPhase (final : Option FinalBatch) (t : Txn) : Prop :=
  match t.phase with
  | .idle => final = none
  | .flushing _ requests _ => final = none ∧ Writes requests
  | .committing c => Writes c.requests ∧ ∃ f ∈ final, t.txn.sequence = f.sequence ∧
      c.txn.sequence = f.sequence ∧ c.requests.map key = f.keys
  | _ => True

structure Sound (s : Cluster) : Prop where
  intents : ∀ k i, (s.ranges.data k).intent = some i → i.txn.id = s.id →
    ∃ w ∈ s.applied, w.key = k ∧ w.sequence = i.txn.sequence ∧ w.timestamp = i.timestamp
  applied : ∀ w ∈ s.applied, Lays s.sent w.key w.sequence
  sent : ∀ f ∈ s.final, ∀ k ∈ f.keys, ∀ sequence, Lays s.sent k sequence → sequence = f.sequence
  staged : ∀ ba ∈ s.sent, ∀ key req, endTxn key req ∈ ba.requests → req.inFlight ≠ [] →
    ∃ f ∈ s.final, req.inFlight = f.keys
  record : InFlight (fun ks => ∃ f ∈ s.final, ks = f.keys) s.ranges.record
  log : ∀ r ∈ s.log, ∀ br, r.answer = .ok br → ∀ p, Response.pushTxn p ∈ br.responses →
    p.status = .staging → ∃ f ∈ s.final, p.inFlightKeys = f.keys
  recoveries : ∀ t ∈ s.recoveries, ∃ f ∈ s.final, Probed s.applied f t
  phase : FinalPhase s.final s.coord

/-- What the coordinator's step adds: batches that write with the staged batch's
sequence, or earlier, and stage its keys. -/
structure Adds (final : Option FinalBatch) (bs : List BatchRequest) : Prop where
  sent : ∀ f ∈ final, ∀ k ∈ f.keys, ∀ sequence, Lays bs k sequence → sequence = f.sequence
  staged : ∀ ba ∈ bs, ∀ key req, endTxn key req ∈ ba.requests → req.inFlight ≠ [] →
    ∃ f ∈ final, req.inFlight = f.keys

variable {requests : List Request} {ba : BatchRequest} {txn : Transaction} {now : Timestamp}

section Coordinator
variable {final : Option FinalBatch} {log : List Reply} {next : Nat} {t t' : Txn}
  {bs : List BatchRequest}

theorem adds_nil (final : Option FinalBatch) : Adds final [] where
  sent := by
    intro f hf k hk sequence hl
    obtain ⟨ba, hba, _⟩ := hl
    cases hba
  staged := by
    simp

theorem adds_cons (hone : Adds final [ba]) (hbs : Adds final bs) : Adds final (ba :: bs) where
  sent f hf k hk sequence hl := by
    obtain ⟨b, hb, hrest⟩ := hl
    rcases mem_cons.mp hb with rfl | hb
    · exact hone.sent f hf k hk sequence ⟨b, mem_singleton_self b, hrest⟩
    · exact hbs.sent f hf k hk sequence ⟨b, hb, hrest⟩
  staged b hb := by
    rcases mem_cons.mp hb with rfl | hb
    · exact hone.staged b (mem_singleton_self b)
    · exact hbs.staged b hb

theorem adds_writes {h : BatchHeader} (hw : Writes requests)
    (hseq : ∀ f ∈ final, ∀ txn, h.txn = some txn → txn.sequence = f.sequence) :
    Adds final [⟨h, requests⟩] where
  sent f hf k hk sequence hl := by
    obtain ⟨b, hb, txn, htxn, hs, _⟩ := hl
    rw [mem_singleton.mp hb] at htxn
    rw [← hs]
    exact hseq f hf txn htxn
  staged b hb key req hreq := by
    rw [mem_singleton.mp hb] at hreq
    cases hw _ hreq

theorem adds_plain (hlays : ∀ q ∈ ba.requests, q.lays = none)
    (hstage : ∀ key req, endTxn key req ∈ ba.requests → req.inFlight = []) : Adds final [ba] where
  sent f hf k hk sequence hl := by
    obtain ⟨b, hb, txn, htxn, hs, q, hq, hk⟩ := hl
    rw [mem_singleton.mp hb] at hq
    simp [hlays q hq] at hk
  staged b hb key req hreq hne := by
    rw [mem_singleton.mp hb] at hreq
    exact absurd (hstage key req hreq) hne

theorem adds_etBatch {c : Committing} (hkeys : ∃ f ∈ final, c.requests.map key = f.keys) :
    Adds final [c.etBatch txn] where
  sent f hf k hk sequence hl := by
    obtain ⟨b, hb, txn, htxn, hs, q, hq, hk⟩ := hl
    rw [mem_singleton.mp hb] at hq
    rw [mem_singleton.mp hq] at hk
    cases hk
  staged b hb key req hreq hne := by
    rw [mem_singleton.mp hb] at hreq
    cases mem_singleton.mp hreq
    exact hkeys

theorem adds_resolveAll (t : Txn) (status : TxnStatus) (ts : Timestamp) :
    Adds final (t.resolveAll status ts) := by
  unfold Txn.resolveAll
  split
  · exact adds_nil final
  apply adds_plain
  · intro q hq
    obtain ⟨k, _, rfl⟩ := mem_map.mp hq
    rfl
  · intro key req hreq
    obtain ⟨k, _, hk⟩ := mem_map.mp hreq
    cases hk

theorem parallelCommit_sound (hd : deferrable requests = true)
    (h : t.parallelCommit next requests now = (t', bs)) :
    Adds (some ⟨t'.txn.sequence, requests.map key⟩) bs ∧
      FinalPhase (some ⟨t'.txn.sequence, requests.map key⟩) t' := by
  have hw := writes_of_deferrable hd
  have hseq : ∀ (c : Committing) (f : FinalBatch), c.requests = requests →
      (t.nextWrite requests).sequence = f.sequence →
        Adds (some f) [c.wbBatch (t.nextWrite requests)] := by
    intro c f hc hf
    apply adds_writes
    · rw [hc]
      exact hw
    · intro f' hf' txn htxn
      cases hf'
      cases htxn
      exact hf
  unfold Txn.parallelCommit at h
  dsimp only at h
  split at h
  · cases h
    rw [recordWrites_txn]
    exact ⟨adds_etBatch ⟨_, rfl, rfl⟩, hw, _, rfl, rfl, rfl, rfl⟩
  · cases h
    rw [recordWrites_txn]
    exact ⟨adds_cons (hseq _ _ rfl rfl) (adds_etBatch ⟨_, rfl, rfl⟩), hw, _, rfl, rfl, rfl, rfl⟩

theorem coordMove_sound {a : CoordAction} (hphase : FinalPhase final t)
    (h : CoordMove log next t a t' bs) :
    Adds (finalBatchOf t' final a) bs ∧ FinalPhase (finalBatchOf t' final a) t' ∧
      (finalBatchOf t' final a = final ∨ final = none ∧
        ∃ requests now, a = .parallelCommit requests now ∧
          finalBatchOf t' final a = some ⟨t'.txn.sequence, requests.map key⟩) := by
  have hsame : (∀ rs now, a ≠ .parallelCommit rs now) → finalBatchOf t' final a = final := by
    intro ha
    cases a with
    | parallelCommit rs now => exact absurd rfl (ha rs now)
    | _ => rfl
  have hplain : ∀ {key : Key} {req : EndTxnRequest} {h : BatchHeader}, req.inFlight = [] →
      Adds final [⟨h, [.endTxn key req]⟩] := by
    intro key req h hin
    apply adds_plain
    · intro q hq
      rw [mem_singleton.mp hq]
      rfl
    · intro key' req' hreq
      cases mem_singleton.mp hreq
      exact hin
  unfold FinalPhase at hphase
  cases h with
  | @flush _ _ requests create hfrom hto ha =>
    rw [hsame ha]
    have hbefore : final = none ∧ Writes requests := by
      rcases hfrom with ⟨hp, hw⟩ | ⟨i, hp⟩
      · rw [hp] at hphase
        exact ⟨hphase, hw⟩
      · rw [hp] at hphase
        exact hphase
    obtain ⟨rfl, hw⟩ := hbefore
    exact ⟨adds_writes hw (by simp), by simp [FinalPhase, hto, hw], .inl rfl⟩
  | reopen hfrom hto ha =>
    rw [hsame ha]
    rw [hfrom] at hphase
    exact ⟨adds_nil final, by simp [FinalPhase, hto, hphase.1], .inl rfl⟩
  | commit hfrom hd hpair =>
    rw [hfrom] at hphase
    obtain ⟨hadds, hfinal⟩ := parallelCommit_sound hd hpair
    exact ⟨hadds, hfinal, .inr ⟨hphase, _, _, rfl, rfl⟩⟩
  | committing hfrom hto hc hseq hbs ha =>
    rw [hsame ha]
    rw [hfrom] at hphase
    obtain ⟨hw, f, hf, htseq, hcseq, hkeys⟩ := hphase
    refine ⟨?_, ?_, .inl rfl⟩
    · have hbatch : ∀ ba ∈ bs, Adds final [ba] := by
        intro ba hba
        obtain ⟨txn, hs, rfl | rfl⟩ := hbs ba hba
        · apply adds_writes hw
          intro f' hf' txn' htxn'
          cases htxn'
          obtain rfl : f = f' := Option.mem_unique hf hf'
          rcases hs with hs | hs
          · rw [hs, htseq]
          · rw [hs, hcseq]
        · exact adds_etBatch ⟨f, hf, hkeys⟩
      clear hbs
      induction bs with
      | nil => exact adds_nil final
      | cons ba bs ih =>
        exact adds_cons (hbatch ba mem_cons_self) (ih fun b hb => hbatch b (mem_cons_of_mem ba hb))
    · unfold FinalPhase
      rw [hto]
      dsimp only
      rw [hc.1, hc.2, hseq]
      exact ⟨hw, f, hf, htseq, hcseq, hkeys⟩
  | refreshing hto ha | stop hto ha =>
    rw [hsame ha]
    exact ⟨adds_nil final, by simp [FinalPhase, hto], .inl rfl⟩
  | abort hto ha =>
    rw [hsame ha]
    exact ⟨hplain rfl, by simp [FinalPhase, hto], .inl rfl⟩
  | finalize hto ha =>
    rw [hsame ha]
    refine ⟨hplain rfl, ?_, .inl rfl⟩
    rcases hto with hto | ⟨ts, hto⟩ <;> simp [FinalPhase, hto]
  | resolveAborted hfrom hret hto =>
    exact ⟨adds_resolveAll t _ _, by simp [FinalPhase, hto], .inl rfl⟩
  | resolveCommitted hfrom hreply hto ha =>
    rw [hsame ha]
    exact ⟨adds_resolveAll t _ _, by simp [FinalPhase, hto], .inl rfl⟩
  | heartbeat ha =>
    rw [hsame ha]
    refine ⟨adds_plain ?_ ?_, hphase, .inl rfl⟩
    · intro q hq
      rw [mem_singleton.mp hq]
      rfl
    · intro key req hreq
      cases mem_singleton.mp hreq

end Coordinator

variable {k : Key} {bs : List BatchRequest} {sequence : Int}

theorem lays_append {cs : List BatchRequest} :
    Lays (bs ++ cs) k sequence ↔ Lays bs k sequence ∨ Lays cs k sequence := by
  simp only [Lays, mem_append, or_and_right, exists_or]

variable {f : FinalBatch} {applied : List Applied} {ts : Timestamp}

theorem FinalApplied.mono (more : List Applied) (h : FinalApplied applied f ts k) :
    FinalApplied (applied ++ more) f ts k := by
  obtain ⟨w, hw, hrest⟩ := h
  exact ⟨w, mem_append_left more hw, hrest⟩

theorem Probed.mono {t : Recovery} (more : List Applied) (h : Probed applied f t) :
    Probed (applied ++ more) f t := { h with
  done hc := by
    obtain ⟨done, hsplit, hdone⟩ := h.done hc
    exact ⟨done, hsplit, fun k hk => (hdone k hk).mono more⟩ }

variable {s : Cluster} {b : BatchRequest}

section Serve
variable {ba : BatchRequest} {group : List Key} {low : Option Timestamp}

theorem subBatch_txn {txn' : Transaction} (h : (subBatch ba group low).header.txn = some txn') :
    ∃ txn, ba.header.txn = some txn ∧ txn'.sequence = txn.sequence := by
  obtain ⟨txn, htxn, rfl⟩ := map_eq_some_iff.mp h
  refine ⟨txn, htxn, ?_⟩
  split
  · split <;> rfl
  · rfl

theorem mem_appliedWrites {w : Applied} (h : w ∈ appliedWrites b) :
    ∃ txn, b.header.txn = some txn ∧ w.sequence = txn.sequence ∧ ∃ q ∈ b.requests,
      q.lays = some w.key := by
  unfold appliedWrites at h
  split at h
  · cases h
  rename_i m hm
  obtain ⟨txn, htxn, rfl⟩ := map_eq_some_iff.mp hm
  obtain ⟨q, hq, hw⟩ := mem_filterMap.mp h
  obtain ⟨k, hk, rfl⟩ := map_eq_some_iff.mp hw
  exact ⟨txn, htxn, rfl, q, hq, hk⟩

theorem appliedWrites_mem {m : TxnMeta} {q : Request} (hm : b.header.meta? = some m)
    (hq : q ∈ b.requests) (hk : q.lays = some k) :
    ⟨k, m.sequence, m.writeTimestamp⟩ ∈ appliedWrites b := by
  unfold appliedWrites
  rw [hm]
  exact mem_filterMap.mpr ⟨q, hq, by simp [hk]⟩

theorem sound_serve {s' : Cluster} {attempt : Nat} {gcThreshold : Timestamp} (hi : Sound s)
    (h : serve s attempt group low gcThreshold = some s') : Sound s' := by
  unfold serve at h
  split at h
  · cases h
  rename_i b hb
  have hmem := mem_of_getElem? hb
  dsimp only at h
  split_ifs at h
  split at h
  · cases h
    refine ⟨hi.intents, hi.applied, hi.sent, hi.staged, hi.record, ?_, hi.recoveries, hi.phase⟩
    intro r hr br hbr
    rcases mem_append.mp hr with hr | hr
    · exact hi.log r hr br hbr
    · simp [mem_singleton.mp hr] at hbr
  · rename_i ranges br hok
    cases h
    obtain ⟨_, _, hlaid⟩ := evalWriteBatch_ok hok
    obtain ⟨hrec, hresp⟩ := evalWriteBatch_inFlight hi.record
      (fun key req hreq => hi.staged b hmem key req (mem_subBatch hreq)) hok
    refine ⟨?_, ?_, hi.sent, hi.staged, hrec, ?_, ?_, hi.phase⟩
    · intro k i hk hid
      rcases hlaid k i hk with hold | ⟨⟨q, hq, hlays⟩, m, hm, rfl, hts⟩
      · obtain ⟨w, hw, hrest⟩ := hi.intents k i hold hid
        exact ⟨w, mem_append_left _ hw, hrest⟩
      · exact ⟨_, mem_append_right _ (appliedWrites_mem hm hq hlays), rfl, rfl, hts.symm⟩
    · intro w hw
      rcases mem_append.mp hw with hw | hw
      · exact hi.applied w hw
      obtain ⟨txn', htxn', hs, q, hq, hlays⟩ := mem_appliedWrites hw
      obtain ⟨txn, htxn, hs'⟩ := subBatch_txn htxn'
      exact ⟨b, hmem, txn, htxn, by rw [hs, hs'], q, mem_subBatch hq, hlays⟩
    · intro r hr br' hbr'
      rcases mem_append.mp hr with hr | hr
      · exact hi.log r hr br' hbr'
      rw [mem_singleton.mp hr] at hbr'
      cases hbr'
      exact hresp
    · intro t ht
      obtain ⟨f, hf, hp⟩ := hi.recoveries t ht
      exact ⟨f, hf, hp.mono _⟩

end Serve

section Clients
variable {s s' : Cluster}

section
variable (hi : Sound s)
include hi

theorem probe_finds {intents : List Intent} (hf : f ∈ s.final) (hk : k ∈ f.keys)
    (hg : mvccGet (s.ranges.data k) k ts {} = .error (.writeIntent intents))
    (hown : (intents.any fun i => i.txn.id == s.id) = true) : FinalApplied s.applied f ts k := by
  obtain ⟨intent, hintent, rfl, habove⟩ := mvccGet_writeIntent hg
  have hid : intent.txn.id = s.id := by simpa using hown
  have hle : intent.timestamp ≤ ts := by
    have hbot : ts.less ⊥ = false := by simp
    simp only [intentAboveRead, hbot, Bool.false_eq_true, if_false] at habove
    simpa using habove
  obtain ⟨w, hw, hwk, hseq, hts⟩ := hi.intents k intent hintent hid
  have hlays := hi.applied w hw
  rw [hwk] at hlays
  exact ⟨w, hw, hwk, hi.sent f hf k hk w.sequence hlays, by rw [hts]; exact hle⟩

theorem probed_afterProbe {t : Recovery} {rest : List Key}
    (hf : f ∈ s.final) (hp : Probed s.applied f t) (hrest : t.rest = k :: rest)
    (hrun : t.concluded = false) :
    Probed s.applied f (afterProbe s.id t rest (mvccGet (s.ranges.data k) k t.stagedTS {})) := by
  unfold afterProbe
  split
  · exact ⟨hp.keys, by simp, by simp⟩
  · rename_i intents hg
    split
    · rename_i hown
      refine ⟨hp.keys, ?_, by simp [hrun]⟩
      intro hc
      obtain ⟨done, hsplit, hdone⟩ := hp.done hc
      rw [hrest] at hsplit
      have hk : k ∈ f.keys := by
        rw [← hp.keys, hsplit]
        simp
      refine ⟨done ++ [k], by simpa using hsplit, ?_⟩
      intro k' hk'
      rcases mem_append.mp hk' with hk' | hk'
      · exact hdone k' hk'
      · rw [mem_singleton.mp hk']
        exact probe_finds hi hf hk hg hown
    · exact ⟨hp.keys, by simp, by simp⟩
  · exact ⟨hp.keys, hp.done, hp.concluded⟩

theorem sound_recoveries {n : Nat} {t' : Recovery} (ht' : ∃ f ∈ s.final, Probed s.applied f t') :
    ∀ t ∈ s.recoveries.set n t', ∃ f ∈ s.final, Probed s.applied f t := by
  intro t ht
  rcases mem_or_eq_of_mem_set ht with ht | rfl
  · exact hi.recoveries t ht
  · exact ht'

theorem sound_send (ha : Adds s.final bs) : Sound { s with sent := s.sent ++ bs } := { hi with
  applied w hw := lays_append.mpr (.inl (hi.applied w hw))
  sent f hf k hk sequence hl := by
    rcases lays_append.mp hl with hl | hl
    · exact hi.sent f hf k hk sequence hl
    · exact ha.sent f hf k hk sequence hl
  staged ba hba := by
    rcases mem_append.mp hba with hba | hba
    · exact hi.staged ba hba
    · exact ha.staged ba hba }

theorem sound_client {a : ClientAction} (h : clientStep s a = some s') : Sound s' := by
  cases a with
  | push key pusherTxn pushAbort now forceAbort =>
    obtain ⟨intent, _, rfl⟩ := map_eq_some_iff.mp h
    apply sound_send hi
    apply adds_plain
    · intro q hq
      rw [mem_singleton.mp hq]
      rfl
    · intro key req hreq
      cases mem_singleton.mp hreq
  | resolve reply keys =>
    obtain ⟨push, _, h⟩ := bind_eq_some_iff.mp h
    split_ifs at h
    cases h
    apply sound_send hi
    apply adds_plain
    · intro q hq
      obtain ⟨k, _, rfl⟩ := mem_map.mp hq
      rfl
    · intro key req hreq
      obtain ⟨k, _, hk⟩ := mem_map.mp hreq
      cases hk
  | recover reply =>
    obtain ⟨push, hpush, h⟩ := bind_eq_some_iff.mp h
    split_ifs at h with hs
    cases h
    refine ⟨hi.intents, hi.applied, hi.sent, hi.staged, hi.record, hi.log, ?_, hi.phase⟩
    intro t ht
    rcases mem_append.mp ht with ht | ht
    · exact hi.recoveries t ht
    obtain ⟨r, hr, br, hans, hresp⟩ := pushReply_some hpush
    obtain ⟨f, hf, hkeys⟩ := hi.log r hr br hans push (by simp [hresp]) hs
    rw [mem_singleton.mp ht]
    exact ⟨f, hf, hkeys, fun _ => ⟨[], by simp, by simp⟩, by simp⟩
  | probe n =>
    obtain ⟨t, ht, h⟩ := bind_eq_some_iff.mp h
    split at h
    · rename_i k rest hrest
      split_ifs at h with hrun
      cases h
      obtain ⟨f, hf, hp⟩ := hi.recoveries t (mem_of_getElem? ht)
      have hrun : t.concluded = false := by
        cases hc : t.concluded <;> simp_all
      exact ⟨hi.intents, hi.applied, hi.sent, hi.staged, hi.record, hi.log,
        sound_recoveries hi ⟨f, hf, probed_afterProbe hi hf hp hrest hrun⟩, hi.phase⟩
    · cases h
  | probeLost n =>
    obtain ⟨t, ht, rfl⟩ := map_eq_some_iff.mp h
    obtain ⟨f, hf, hp⟩ := hi.recoveries t (mem_of_getElem? ht)
    exact ⟨hi.intents, hi.applied, hi.sent, hi.staged, hi.record, hi.log,
      sound_recoveries hi ⟨f, hf, hp.keys, hp.done, hp.concluded⟩, hi.phase⟩
  | conclude n =>
    obtain ⟨t, ht, h⟩ := bind_eq_some_iff.mp h
    split_ifs at h with hrun
    cases h
    obtain ⟨f, hf, hp⟩ := hi.recoveries t (mem_of_getElem? ht)
    have hrest : t.rest = [] := by
      cases hr : t.rest <;> simp_all
    have hadds : Adds s.final [⟨{}, [.recoverTxn ⟨s.coord.txn.key, s.id, t.committed⟩]⟩] :=
      adds_plain (by simp [lays]) (by simp)
    have hsend := sound_send hi hadds
    exact ⟨hi.intents, hsend.applied, hsend.sent, hsend.staged, hi.record, hi.log,
      sound_recoveries hi ⟨f, hf, hp.keys, hp.done, fun _ => hrest⟩, hi.phase⟩

end

end Clients

theorem sound_start {data : Key → KeyHistory} (hfresh : ∀ k, ownIntent txn.id (data k) = none) :
    Sound (Cluster.start txn data) where
  intents k i hk hid := by
    have hown : ownIntent txn.id (data k) = some i := by
      simp only [ownIntent]
      rw [show (data k).intent = some i from hk]
      simp [show i.txn.id = txn.id from hid]
    simp [hfresh k] at hown
  applied w hw := by cases hw
  sent f hf := by cases hf
  staged ba hba := by cases hba
  record r hr := by cases hr
  log r hr := by cases hr
  recoveries t ht := by cases ht
  phase := rfl

theorem sound_other {key : Key} {history : KeyHistory} (hi : Sound s)
    (hown : ownIntent s.id history = ownIntent s.id (s.ranges.data key)) :
    Sound { s with ranges := s.ranges.setHistory key history } := { hi with
  intents k i hk hid := by
    by_cases hkey : k = key
    · subst hkey
      simp only [Ranges.setHistory, Function.update_self] at hk
      have hsome : ownIntent s.id (s.ranges.data k) = some i := by
        rw [← hown]
        simp [ownIntent, hk, show i.txn.id = s.id from hid]
      exact hi.intents k i (Option.filter_eq_some_iff.mp hsome).1 hid
    · simp only [Ranges.setHistory, Function.update_of_ne hkey] at hk
      exact hi.intents k i hk hid }

theorem sent_fresh (hc : finalKeysFresh s (.coord (.parallelCommit requests now)) = true)
    (hk : k ∈ requests.map key) :
    ¬ Lays s.sent k sequence := by
  intro hl
  obtain ⟨ba, hba, _, _, _, q, hq, hlays⟩ := hl
  simp only [finalKeysFresh, all_eq_true] at hc
  have hfresh := hc ba hba q hq
  rw [hlays] at hfresh
  simp [mem_map.mp hk] at hfresh

theorem sound_step {s' : Cluster} {a : Action} (hi : Sound s) (hc : finalKeysFresh s a = true)
    (h : step s a = some s') :
    Sound s' := by
  cases a with
  | serve attempt group low gcThreshold => exact sound_serve hi h
  | client a => exact sound_client hi h
  | other key history =>
    simp only [step] at h
    split_ifs at h with hown
    cases h
    exact sound_other hi hown
  | coord a =>
    obtain ⟨⟨t, bs⟩, hstep, rfl⟩ := map_eq_some_iff.mp h
    obtain ⟨hadds, hphase, hfinal⟩ := coordMove_sound hi.phase (coordStep_move hstep)
    rcases hfinal with hfinal | ⟨hnone, requests, now, rfl, hfinal⟩
    · simp only [hfinal] at hadds hphase ⊢
      have hsend := sound_send hi hadds
      exact ⟨hi.intents, hsend.applied, hsend.sent, hsend.staged, hi.record, hi.log,
        hi.recoveries, hphase⟩
    · refine ⟨hi.intents, ?_, ?_, ?_, ?_, ?_, ?_, hphase⟩
      · intro w hw
        exact lays_append.mpr (.inl (hi.applied w hw))
      · intro f hf k hk sequence hl
        rcases lays_append.mp hl with hl | hl
        · cases hf
          exact absurd hl (sent_fresh hc hk)
        · exact hadds.sent f hf k hk sequence hl
      · intro ba hba key req hreq hne
        rcases mem_append.mp hba with hba | hba
        · obtain ⟨f, hf, _⟩ := hi.staged ba hba key req hreq hne
          simp [hnone] at hf
        · exact hadds.staged ba hba key req hreq hne
      · intro r hr hs
        obtain ⟨f, hf, _⟩ := hi.record r hr hs
        simp [hnone] at hf
      · intro r hr br hbr p hp hs
        obtain ⟨f, hf, _⟩ := hi.log r hr br hbr p hp hs
        simp [hnone] at hf
      · intro u hu
        obtain ⟨f, hf, _⟩ := hi.recoveries u hu
        simp [hnone] at hf

theorem Sound.recoverySound (h : Sound s) : RecoverySound s := by
  intro t ht hconcluded hcommitted
  obtain ⟨f, hf, hp⟩ := h.recoveries t ht
  obtain ⟨done, hsplit, hdone⟩ := hp.done hcommitted
  rw [hp.concluded hconcluded, append_nil] at hsplit
  exact ⟨f, hf, fun k hk => hdone k (hsplit ▸ hk)⟩

/-- In every run in which the staged batch writes only keys that no earlier batch of
the transaction wrote, a recovery decides to commit only when that batch applied. -/
theorem recovery_sound {txn : Transaction} {data : Key → KeyHistory} {as : List Action}
    {s : Cluster} (hown : ∀ k, ownIntent txn.id (data k) = none)
    (hrun : Runs.run step (Cluster.start txn data) as = some s) (hfresh :
      Runs.Guarded step (fun s a => finalKeysFresh s a = true) (Cluster.start txn data) as) :
    RecoverySound s := by
  have hinv : Sound s :=
    Runs.invariant_of_run (fun _ _ _ hi hc hs => sound_step hi hc hs) (sound_start hown) hfresh hrun
  exact hinv.recoverySound

def recoveredToCommit (keys : List Key) (s : Cluster) : Bool :=
  s.recoveries.any fun t => t.concluded && t.committed && t.inFlight == keys

theorem recovery_sound_one_write :
    ∃ s, Runs.run step (Cluster.start freshTxn emptyData) recoveredCommit = some s ∧
      recoveredToCommit [[7]] s = true ∧ RecoverySound s := by
  refine Runs.exists_of_run (fun s => recoveredToCommit [[7]] s = true) (by decide) ?_
  exact fun s hs hp => ⟨hp, recovery_sound (fun _ => rfl) hs (by decide)⟩

/-- The key is written once, flushed, and written again by the staged batch, which
never reaches its range. -/
def rewrittenKey : List Action :=
  [.coord (.flush [.put [7] [1]]), .serve 0 [[7]] none ⊥, .coord (.flushed [0]),
    .coord (.parallelCommit [.put [7] [2]] ⟨6, 0⟩), .serve 2 [[7]] none ⊥,
    .client (.push [7] none true ⟨6, 0⟩ false), .serve 3 [[7]] none ⊥, .client (.recover 2),
    .client (.probe 0), .client (.conclude 0)]

/-- Recovery commits although the only write that applied is the earlier one. -/
theorem earlier_intent_recovers_commit :
    ∃ s, Runs.run step (Cluster.start freshTxn emptyData) rewrittenKey = some s ∧
      recoveredToCommit [[7]] s = true ∧ ¬ RecoverySound s := by
  refine Runs.exists_of_run (fun s => recoveredToCommit [[7]] s = true ∧
    s.final.map FinalBatch.sequence = some 2 ∧ s.applied.map Applied.sequence = [1]) (by decide) ?_
  rintro s - ⟨hcommit, hfinal, happlied⟩
  refine ⟨hcommit, fun hsound => ?_⟩
  obtain ⟨t, ht, hcommitted⟩ := any_eq_true.mp hcommit
  simp only [Bool.and_eq_true, beq_iff_eq] at hcommitted
  obtain ⟨f, hf, hkeys⟩ := hsound t ht hcommitted.1.1 hcommitted.1.2
  obtain ⟨w, hw, _, hseq, _⟩ := hkeys [7] (by simp [hcommitted.2])
  have hone : w.sequence ∈ s.applied.map Applied.sequence := mem_map_of_mem hw
  rw [happlied, mem_singleton] at hone
  rw [Option.mem_def.mp hf] at hfinal
  simp [← hseq, hone] at hfinal

end Datax.ParallelCommit
