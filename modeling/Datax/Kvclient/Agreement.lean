import Datax.Shared.Runs
import Datax.Kvclient.ParallelCommit

/-!
# Agreement of a parallel commit

Every resolution of an intent is justified by a verdict of the record, except on the error path of
`parallelCommit`, which resolves as aborted whatever the answer to its abort was; agreement is
proved for the runs in which that answer is a success or `TxnAborted`.
-/

namespace Datax.ParallelCommit

open Option (bind_eq_some_iff map_eq_some_iff)

open List TxnStatus

def statusOf (v : Bool) : TxnStatus := if v then .committed else .aborted

/-- The record holds the verdict that a resolution with this status presumes. -/
def Settled (rec : Option Transaction) (status : TxnStatus) : Prop :=
  ∃ v, status = statusOf v ∧ verdict rec = some v

variable {rec' : Option Transaction} {rec : Option Transaction}

theorem Settled.mono {status : TxnStatus} (hk : VerdictKept rec rec') (h : Settled rec status) :
    Settled rec' status := by
  obtain ⟨v, hs, hv⟩ := h
  exact ⟨v, hs, hk v hv⟩

def Justified (rec : Option Transaction) (bs : List BatchRequest) : Prop :=
  ∀ ba ∈ bs, ∀ q ∈ ba.requests, ∀ status, q.resolves = some status → Settled rec status

def NoResolution (qs : List Request) : Prop := ∀ q ∈ qs, q.resolves = none

variable {bs : List BatchRequest}

theorem Justified.mono (hk : VerdictKept rec rec') (h : Justified rec bs) : Justified rec' bs :=
  fun ba hba q hq status hs => (h ba hba q hq status hs).mono hk

theorem Justified.append {cs : List BatchRequest} (hb : Justified rec bs) (hc : Justified rec cs) :
    Justified rec (bs ++ cs) := by
  intro ba hba
  rcases mem_append.mp hba with h | h
  · exact hb ba h
  · exact hc ba h

theorem justified_nil (rec : Option Transaction) : Justified rec [] := by
  intro ba hba
  cases hba

variable {ba : BatchRequest}

theorem justified_cons (h : NoResolution ba.requests) (hbs : Justified rec bs) :
    Justified rec (ba :: bs) := by
  intro b hb q hq status hs
  rcases mem_cons.mp hb with rfl | hb
  · simp [h q hq] at hs
  · exact hbs b hb q hq status hs

theorem justified_one (h : NoResolution ba.requests) : Justified rec [ba] :=
  justified_cons h (justified_nil rec)

theorem noResolution_one {q : Request} (h : q.resolves = none) : NoResolution [q] := by
  intro q' hq'
  rw [mem_singleton.mp hq']
  exact h

theorem noResolution_of_writes {qs : List Request} (h : Writes qs) : NoResolution qs := by
  intro q hq
  have hlays := h q hq
  cases q <;> simp_all [Request.lays, Request.resolves]

def EndsWith (sent : List BatchRequest) (attempt : Nat) (commit : Bool) : Prop :=
  ∃ ba key req, sent[attempt]? = some ba ∧ ba.header.createTxnRecord = false ∧
    ba.requests = [.endTxn key req] ∧ req.commit = commit ∧ req.inFlight = []

variable {attempt : Nat} {sent : List BatchRequest} {commit : Bool}

theorem EndsWith.append (bs : List BatchRequest) (h : EndsWith sent attempt commit) :
    EndsWith (sent ++ bs) attempt commit := by
  obtain ⟨ba, key, req, hba, hrest⟩ := h
  refine ⟨ba, key, req, ?_, hrest⟩
  rw [List.getElem?_append_left (List.getElem?_eq_some_iff.mp hba).1]
  exact hba

section
variable (sent) (txn : Transaction) (key : Key)
include txn key

theorem endsWith_abort : EndsWith (sent ++ [abortBatch txn key]) sent.length false :=
  ⟨abortBatch txn key, key, { commit := false }, by simp, rfl, rfl, rfl, rfl⟩

theorem endsWith_final (intentKeys : List Key) :
    EndsWith (sent ++ [finalBatch txn key intentKeys]) sent.length true :=
  ⟨finalBatch txn key intentKeys, key,
    { commit := true, intentKeys := intentKeys }, by simp, rfl, rfl, rfl, rfl⟩

end

/-- What the coordinator's program counter says about the batches it has sent. -/
def PhaseOK (sent : List BatchRequest) : Phase → Prop
  | .flushing _ requests _ => NoResolution requests
  | .committing c => NoResolution c.requests
  | .aborting attempt _ => EndsWith sent attempt false
  | .finalizing attempt _ _ => EndsWith sent attempt true
  | .finalizingAsync attempt _ => EndsWith sent attempt true
  | _ => True

theorem PhaseOK.append {phase : Phase} (bs : List BatchRequest) (h : PhaseOK sent phase) :
    PhaseOK (sent ++ bs) phase := by
  cases phase with
  | aborting attempt txn | finalizing attempt key intentKeys | finalizingAsync attempt stagedTS =>
    exact EndsWith.append bs h
  | _ => exact h

theorem EndsWith.of_append (hlt : attempt < sent.length)
    (h : EndsWith (sent ++ bs) attempt commit) :
    EndsWith sent attempt commit := by
  obtain ⟨ba, key, req, hba, hrest⟩ := h
  rw [getElem?_append_left hlt] at hba
  exact ⟨ba, key, req, hba, hrest⟩

structure Truthful (rec : Option Transaction) (sent : List BatchRequest) (r : Reply) : Prop where
  attempt_lt : r.attempt < sent.length
  push : ∀ br, r.answer = .ok br → ∀ push, br.responses = [.pushTxn push] →
    ∀ v, push.status = statusOf v → verdict rec = some v
  ended : ∀ br, r.answer = .ok br → ∀ commit, EndsWith sent r.attempt commit →
    verdict rec = some commit
  aborted : ∀ m, r.answer = .error (.txnAborted m) → ∀ commit, EndsWith sent r.attempt commit →
    verdict rec = some false

theorem Truthful.mono {r : Reply} (hk : VerdictKept rec rec') (h : Truthful rec sent r) :
    Truthful rec' sent r := { h with
  push br hbr p hp v hv := hk v (h.push br hbr p hp v hv)
  ended br hbr commit hc := hk commit (h.ended br hbr commit hc)
  aborted m hm commit hc := hk false (h.aborted m hm commit hc) }

theorem Truthful.append {r : Reply} (bs : List BatchRequest) (h : Truthful rec sent r) :
    Truthful rec (sent ++ bs) r := { h with
  attempt_lt := by
    have := h.attempt_lt
    simp only [length_append]
    omega
  ended br hbr commit hc := h.ended br hbr commit (hc.of_append h.attempt_lt)
  aborted m hm commit hc := h.aborted m hm commit (hc.of_append h.attempt_lt) }

def Reply.heard (r : Reply) : Bool :=
  match r.answer with
  | .ok _ => true
  | .error (.txnAborted _) => true
  | .error _ => false

/-- On its error path the coordinator is told that its abort succeeded, or that the
record is aborted. -/
def abortHeard (s : Cluster) : Action → Bool
  | .coord (.aborted none) => false
  | .coord (.aborted (some reply)) => s.log[reply]?.all Reply.heard
  | _ => true

structure Agreed (s : Cluster) : Prop where
  statuses : ∀ v, statusOf v ∈ s.statuses → verdict s.ranges.record = some v
  sent : Justified s.ranges.record s.sent
  log : ∀ r ∈ s.log, Truthful s.ranges.record s.sent r
  phase : PhaseOK s.sent s.coord.phase
  resolutions : ∀ status ∈ s.resolutions, Settled s.ranges.record status

variable {a : CoordAction}

section Coordinator
variable {rec : Option Transaction} {sent : List BatchRequest} {log : List Reply}

theorem endTxnReply_some {reply : Nat} {p : BatchResponse × EndTxnResponse}
    (h : endTxnReply log attempt reply = some p) :
    ∃ r ∈ log, r.attempt = attempt ∧ r.answer = .ok p.1 := by
  obtain ⟨br, hbr, hp⟩ := bind_eq_some_iff.mp h
  obtain ⟨r, hr, hok⟩ := bind_eq_some_iff.mp hbr
  refine ⟨r, mem_of_getElem? hr, ?_⟩
  unfold Reply.okFor at hok
  split_ifs at hok with hattempt
  refine ⟨hattempt, ?_⟩
  split at hp
  · cases hp
    cases hans : r.answer with
    | ok br' => simpa [hans, Except.toOption] using hok
    | error e => simp [hans, Except.toOption] at hok
  · cases hp

theorem justified_resolveAll (t : Txn) {v : Bool} (ts : Timestamp) (hv : verdict rec = some v) :
    Justified rec (t.resolveAll (statusOf v) ts) := by
  unfold Txn.resolveAll
  split
  · exact justified_nil rec
  intro ba hba q hq status hs
  rw [mem_singleton.mp hba] at hq
  obtain ⟨k, _, rfl⟩ := mem_map.mp hq
  cases hs
  exact ⟨v, rfl, hv⟩

variable {t t' : Txn} {bs : List BatchRequest}

theorem heard_aborted {j : Nat} (hlog : ∀ r ∈ log, Truthful rec sent r)
    (hends : EndsWith sent attempt false) (hret : returned log attempt (some j) = true)
    (hj : ∀ r ∈ log[j]?, Reply.heard r = true) : verdict rec = some false := by
  simp only [returned] at hret
  cases hr : log[j]? with
  | none => simp [hr] at hret
  | some r =>
    have hmem := mem_of_getElem? hr
    have hattempt : r.attempt = attempt := by simpa [hr] using hret
    subst hattempt
    have hheard := hj r hr
    unfold Reply.heard at hheard
    split at hheard
    · rename_i br hans
      exact (hlog r hmem).ended br hans false hends
    · rename_i m hans
      exact (hlog r hmem).aborted m hans false hends
    · cases hheard

theorem parallelCommit_agreed {requests : List Request} {now : Timestamp}
    (hd : deferrable requests = true) (h : t.parallelCommit sent.length requests now = (t', bs)) :
    Justified rec bs ∧ PhaseOK (sent ++ bs) t'.phase := by
  have hq := noResolution_of_writes (writes_of_deferrable hd)
  have het : ∀ (c : Committing) (txn : Transaction), NoResolution (c.etBatch txn).requests :=
    fun _ _ => noResolution_one rfl
  unfold Txn.parallelCommit at h
  dsimp only at h
  split at h
  · cases h
    exact ⟨justified_one (het _ _), hq⟩
  · cases h
    exact ⟨justified_cons hq (justified_one (het _ _)), hq⟩

theorem coordMove_agreed (hlog : ∀ r ∈ log, Truthful rec sent r) (hphase : PhaseOK sent t.phase)
    (hheard : ∀ reply, a = .aborted reply →
      ∃ j, reply = some j ∧ ∀ r ∈ log[j]?, Reply.heard r = true)
    (h : CoordMove log sent.length t a t' bs) :
    Justified rec bs ∧ PhaseOK (sent ++ bs) t'.phase := by
  cases h with
  | @flush _ _ requests create hfrom hto _ =>
    have hq : NoResolution requests := by
      rcases hfrom with ⟨_, hw⟩ | ⟨i, hi⟩
      · exact noResolution_of_writes hw
      · rw [hi] at hphase
        exact hphase
    rw [hto]
    exact ⟨justified_one hq, hq⟩
  | reopen _ hto _ | refreshing hto _ | stop hto _ =>
    rw [hto]
    exact ⟨justified_nil rec, trivial⟩
  | commit _ hd hpair => exact parallelCommit_agreed hd hpair
  | @committing _ _ c c' _ hfrom hto hc _ hbs _ =>
    rw [hfrom] at hphase
    rw [hto]
    refine ⟨?_, ?_⟩
    · intro ba hba
      obtain ⟨txn, _, rfl | rfl⟩ := hbs ba hba
      · exact justified_one (show NoResolution (c.wbBatch txn).requests from hphase) _
          (mem_singleton_self _)
      · exact justified_one (noResolution_one rfl) _ (mem_singleton_self _)
    · change NoResolution c'.requests
      rw [hc.2]
      exact hphase
  | abort hto _ =>
    rw [hto]
    exact ⟨justified_one (noResolution_one rfl), endsWith_abort sent _ _⟩
  | finalize hto _ =>
    refine ⟨justified_one (noResolution_one rfl), ?_⟩
    rcases hto with hto | ⟨ts, hto⟩
    · rw [hto]
      exact endsWith_final sent _ _ _
    · rw [hto]
      exact endsWith_final sent _ _ _
  | resolveAborted hfrom hret hto =>
    rw [hfrom] at hphase
    rw [hto]
    obtain ⟨j, rfl, hj⟩ := hheard _ rfl
    exact ⟨justified_resolveAll t _ (heard_aborted hlog hphase hret hj), trivial⟩
  | @resolveCommitted _ _ reply attempt ts p hfrom hreply hto _ =>
    obtain ⟨r, hr, hattempt, hans⟩ := endTxnReply_some hreply
    have hends : EndsWith sent attempt true := by
      rcases hfrom with ⟨key, ks, hfrom⟩ | ⟨ts, hfrom⟩
      · rw [hfrom] at hphase
        exact hphase
      · rw [hfrom] at hphase
        exact hphase
    rw [hto]
    exact ⟨justified_resolveAll t ts ((hlog r hr).ended _ hans true (hattempt ▸ hends)), trivial⟩
  | heartbeat _ => exact ⟨justified_one (noResolution_one rfl), hphase.append _⟩

end Coordinator

section Clients
variable {s s' : Cluster}

theorem pushReply_some {log : List Reply} {reply : Nat} {push : PushTxnResponse}
    (h : pushReply log reply = some push) :
    ∃ r ∈ log, ∃ br, r.answer = .ok br ∧ br.responses = [.pushTxn push] := by
  obtain ⟨r, hr, h⟩ := bind_eq_some_iff.mp h
  refine ⟨r, mem_of_getElem? hr, ?_⟩
  split at h
  · rename_i br hans
    split at h
    · rename_i resp hresp
      cases h
      exact ⟨br, hans, hresp⟩
    · cases h
  · cases h

theorem clientStep_agreed {a : ClientAction} (hlog : ∀ r ∈ s.log, Truthful s.ranges.record s.sent r)
    (h : clientStep s a = some s') :
    s'.ranges = s.ranges ∧ s'.coord = s.coord ∧ s'.log = s.log ∧ s'.statuses = s.statuses ∧
      s'.resolutions = s.resolutions ∧
      ∃ bs, s'.sent = s.sent ++ bs ∧ Justified s.ranges.record bs := by
  cases a with
  | push key pusherTxn pushAbort now forceAbort =>
    obtain ⟨intent, _, rfl⟩ := map_eq_some_iff.mp h
    exact ⟨rfl, rfl, rfl, rfl, rfl, _, rfl, justified_one (noResolution_one rfl)⟩
  | resolve reply keys =>
    obtain ⟨push, hpush, h⟩ := bind_eq_some_iff.mp h
    split_ifs at h with hstatus
    cases h
    refine ⟨rfl, rfl, rfl, rfl, rfl, _, rfl, ?_⟩
    intro ba hba q hq status hs
    rw [mem_singleton.mp hba] at hq
    obtain ⟨k, _, rfl⟩ := mem_map.mp hq
    cases hs
    obtain ⟨r, hr, br, hans, hresp⟩ := pushReply_some hpush
    have htrue := (hlog r hr).push br hans push hresp
    rcases hstatus with hc | ha
    · exact ⟨true, hc, htrue true hc⟩
    · exact ⟨false, ha, htrue false ha⟩
  | recover reply =>
    obtain ⟨push, hpush, h⟩ := bind_eq_some_iff.mp h
    split_ifs at h
    cases h
    exact ⟨rfl, rfl, rfl, rfl, rfl, [], (append_nil _).symm, justified_nil _⟩
  | probe n =>
    obtain ⟨t, ht, h⟩ := bind_eq_some_iff.mp h
    split at h
    · split_ifs at h
      cases h
      exact ⟨rfl, rfl, rfl, rfl, rfl, [], (append_nil _).symm, justified_nil _⟩
    · cases h
  | probeLost n =>
    obtain ⟨t, _, rfl⟩ := map_eq_some_iff.mp h
    exact ⟨rfl, rfl, rfl, rfl, rfl, [], (append_nil _).symm, justified_nil _⟩
  | conclude n =>
    obtain ⟨t, ht, h⟩ := bind_eq_some_iff.mp h
    split_ifs at h
    cases h
    exact ⟨rfl, rfl, rfl, rfl, rfl, _, rfl, justified_one (noResolution_one rfl)⟩

variable {group : List Key} {low : Option Timestamp}

theorem subBatch_endTxn {key : Key} {req : EndTxnRequest} (hq : ba.requests = [.endTxn key req])
    (hne : (subBatch ba group low).requests.isEmpty = false) :
    (subBatch ba group low).requests = [.endTxn key req] := by
  simp only [subBatch, hq, filter_cons, filter_nil] at hne ⊢
  split at hne
  · rename_i hg
    rw [if_pos hg]
  · cases hne

theorem mem_subBatch {q : Request} (h : q ∈ (subBatch ba group low).requests) : q ∈ ba.requests :=
  (mem_filter.mp h).1

theorem serve_agreed {gcThreshold : Timestamp}
    (h : serve s attempt group low gcThreshold = some s') :
    VerdictKept s.ranges.record s'.ranges.record ∧ s'.sent = s.sent ∧ s'.coord = s.coord ∧
      (∀ r ∈ s'.log, r ∈ s.log ∨ Truthful s'.ranges.record s.sent r) ∧
      (∀ status ∈ s'.statuses, status ∈ s.statuses ∨ ∃ e ∈ s'.ranges.record, e.status = status) ∧
      ∀ status ∈ s'.resolutions, status ∈ s.resolutions ∨
        ∃ ba ∈ s.sent, ∃ q ∈ ba.requests, q.resolves = some status := by
  unfold serve at h
  split at h
  · cases h
  rename_i ba hba
  have hlt := (List.getElem?_eq_some_iff.mp hba).1
  have hmem := List.mem_of_getElem? hba
  dsimp only at h
  have hres : ∀ status ∈ s.resolutions ++
      (subBatch ba group low).requests.filterMap Request.resolves, status ∈ s.resolutions ∨
        ∃ ba ∈ s.sent, ∃ q ∈ ba.requests, q.resolves = some status := by
    intro status hstatus
    rcases mem_append.mp hstatus with hold | hnew
    · exact .inl hold
    · obtain ⟨q, hq, hqs⟩ := mem_filterMap.mp hnew
      exact .inr ⟨ba, hmem, q, mem_subBatch hq, hqs⟩
  split_ifs at h with hne
  have hne : (subBatch ba group low).requests.isEmpty = false := by simpa using hne
  have hends : ∀ commit, EndsWith s.sent attempt commit →
      (subBatch ba group low).header.createTxnRecord = false ∧
        ∃ key req, (subBatch ba group low).requests = [.endTxn key req] ∧ req.commit = commit ∧
          req.inFlight = [] := by
    intro commit hc
    obtain ⟨ba', key, req, hba', hcreate, hreq, hcommit, hin⟩ := hc
    obtain rfl : ba = ba' := Option.some.inj (hba.symm.trans hba')
    exact ⟨by simp [subBatch, hcreate], key, req, subBatch_endTxn hreq hne, hcommit, hin⟩
  split at h
  · rename_i err herr
    cases h
    refine ⟨VerdictKept.refl _, rfl, rfl, ?_, fun status hs => .inl hs, hres⟩
    intro r hr
    rcases mem_append.mp hr with hold | hnew
    · exact .inl hold
    right
    rw [mem_singleton.mp hnew]
    refine ⟨hlt, by simp, by simp, ?_⟩
    intro m hm commit hc
    obtain ⟨hcreate, key, req, hreq, _⟩ := hends commit hc
    cases hm
    apply evalWriteBatch_endTxn_aborted hcreate
    rw [← hreq]
    exact herr
  · rename_i ranges br hok
    cases h
    obtain ⟨hkeep, hhon, _⟩ := evalWriteBatch_ok hok
    refine ⟨hkeep, rfl, rfl, ?_, ?_, hres⟩
    · intro r hr
      rcases mem_append.mp hr with hold | hnew
      · exact .inl hold
      right
      rw [mem_singleton.mp hnew]
      refine ⟨hlt, ?_, ?_, by simp⟩
      · intro br' hbr' push hpush v hv
        cases hbr'
        rw [hpush] at hhon
        obtain ⟨q, rest, hhon, _, _⟩ := List.forall₂_cons_right_iff.mp hhon
        exact hhon.push push rfl v hv
      · intro br' hbr' commit hc
        cases hbr'
        obtain ⟨_, key, req, hreq, hcommit, hin⟩ := hends commit hc
        rw [hreq] at hhon
        obtain ⟨resp, rest, hhon, _, _⟩ := List.forall₂_cons_left_iff.mp hhon
        rw [← hcommit]
        exact hhon.ended key req rfl fun _ => hin
    · intro status hstatus
      rcases mem_append.mp hstatus with hold | hnew
      · exact .inl hold
      · obtain ⟨e, he, hs⟩ := mem_map.mp hnew
        exact .inr ⟨e, Option.mem_toList.mp he, hs⟩

end Clients

theorem agreed_start (txn : Transaction) (data : Key → KeyHistory) :
    Agreed (Cluster.start txn data) where
  statuses v hv := by cases hv
  sent := justified_nil _
  log r hr := by cases hr
  phase := trivial
  resolutions status hs := by cases hs

variable {s : Cluster}

theorem abortHeard_coord (h : abortHeard s (.coord a) = true) :
    ∀ reply, a = .aborted reply → ∃ j, reply = some j ∧ ∀ r ∈ s.log[j]?, Reply.heard r = true := by
  intro reply ha
  subst ha
  cases reply with
  | none => cases h
  | some j =>
    refine ⟨j, rfl, ?_⟩
    intro r hr
    simpa [abortHeard, Option.mem_def.mp hr] using h

theorem agreed_step {s' : Cluster} {a : Action} (hi : Agreed s) (hc : abortHeard s a = true)
    (h : step s a = some s') :
    Agreed s' := by
  cases a with
  | serve attempt group low gcThreshold =>
    obtain ⟨hkeep, hsent, hcoord, hlog, hstat, hres⟩ := serve_agreed h
    refine ⟨?_, ?_, ?_, ?_, ?_⟩
    · intro v hv
      rcases hstat _ hv with hold | ⟨e, he, hs⟩
      · exact hkeep v (hi.statuses v hold)
      · exact verdict_eq_some_iff.mpr ⟨e, he, hs⟩
    · rw [hsent]
      exact hi.sent.mono hkeep
    · intro r hr
      rw [hsent]
      rcases hlog r hr with hold | hnew
      · exact (hi.log r hold).mono hkeep
      · exact hnew
    · rw [hsent, hcoord]
      exact hi.phase
    · intro status hs
      rcases hres status hs with hold | ⟨ba, hba, q, hq, hqs⟩
      · exact (hi.resolutions status hold).mono hkeep
      · exact (hi.sent ba hba q hq status hqs).mono hkeep
  | coord a =>
    obtain ⟨⟨t, bs⟩, hstep, rfl⟩ := map_eq_some_iff.mp h
    obtain ⟨hjust, hphase⟩ :=
      coordMove_agreed hi.log hi.phase (abortHeard_coord hc) (coordStep_move hstep)
    exact ⟨hi.statuses, hi.sent.append hjust, fun r hr => (hi.log r hr).append bs, hphase,
      hi.resolutions⟩
  | client a =>
    obtain ⟨hranges, hcoord, hlog, hstat, hres, bs, hsent, hjust⟩ := clientStep_agreed hi.log h
    refine ⟨?_, ?_, ?_, ?_, ?_⟩
    · rw [hstat, hranges]
      exact hi.statuses
    · rw [hsent, hranges]
      exact hi.sent.append hjust
    · intro r hr
      rw [hlog] at hr
      rw [hsent, hranges]
      exact (hi.log r hr).append bs
    · rw [hsent, hcoord]
      exact hi.phase.append bs
    · rw [hres, hranges]
      exact hi.resolutions
  | other key history =>
    simp only [step] at h
    split_ifs at h
    cases h
    exact ⟨hi.statuses, hi.sent, hi.log, hi.phase, hi.resolutions⟩

/-- No intent of the transaction is resolved against a verdict its record has had. -/
def Agreement (s : Cluster) : Prop :=
  (committed ∈ s.statuses → aborted ∉ s.resolutions) ∧
    (aborted ∈ s.statuses → committed ∉ s.resolutions)

theorem Agreed.agreement (h : Agreed s) : Agreement s := by
  have hclash : ∀ v, statusOf v ∈ s.statuses → statusOf (!v) ∉ s.resolutions := by
    intro v hv hres
    obtain ⟨w, hw, hwv⟩ := h.resolutions _ hres
    rw [h.statuses v hv] at hwv
    cases hwv
    cases v <;> cases hw
  exact ⟨hclash true, hclash false⟩

/-- In every run in which the abort on the coordinator's error path is heard, the
transaction's intents are resolved only as its record decided. -/
theorem parallel_commit_agreement {txn : Transaction} {data : Key → KeyHistory} {as : List Action}
    {s : Cluster} (hrun : Runs.run step (Cluster.start txn data) as = some s) (hheard : Runs.Guarded
      step (fun s a => abortHeard s a = true) (Cluster.start txn data) as) : Agreement s := by
  have hinv : Agreed s :=
    Runs.invariant_of_run (fun _ _ _ hi hc hs => agreed_step hi hc hs)
      (agreed_start txn data) hheard hrun
  exact hinv.agreement

def heardAbort : List Action :=
  [.coord (.parallelCommit [.put [7] [1]] ⟨6, 0⟩), .serve 1 [[7]] none ⊥, .coord .wbFailed,
    .coord (.etReplied 0), .coord .settle, .serve 2 [[7]] none ⊥, .coord (.aborted (some 1)),
    .serve 3 [[7]] none ⊥]

theorem parallel_commit_agreement_heard :
    ∃ s, Runs.run step (Cluster.start freshTxn emptyData) heardAbort = some s ∧
      aborted ∈ s.statuses ∧ aborted ∈ s.resolutions ∧ Agreement s := by
  refine Runs.exists_of_run (fun s => aborted ∈ s.statuses ∧ aborted ∈ s.resolutions) (by decide) ?_
  exact fun s hs hp => ⟨hp.1, hp.2, parallel_commit_agreement hs (by decide)⟩

/-- The commit of one write: it applies and the record is staged, and another
client that finds the intent recovers the record as committed. -/
def recoveredCommit : List Action :=
  [.coord (.parallelCommit [.put [7] [1]] ⟨6, 0⟩), .serve 1 [[7]] none ⊥, .serve 0 [[7]] none ⊥,
    .client (.push [7] none true ⟨6, 0⟩ false), .serve 2 [[7]] none ⊥, .client (.recover 2),
    .client (.probe 0), .client (.conclude 0), .serve 3 [[7]] none ⊥]

/-- The answer to the staged `EndTxn` is lost, and the range refuses it when it is
sent again; the abort that follows is refused too, and the intents are resolved
as aborted. -/
def lostReply : List Action :=
  recoveredCommit ++
    [.serve 1 [[7]] none ⊥, .coord (.wbReplied [1]), .coord .etFailed, .coord .settle,
      .serve 4 [[7]] none ⊥, .coord (.aborted (some 5)), .serve 5 [[7]] none ⊥]

theorem lost_reply_splits_verdict :
    ∃ s, Runs.run step (Cluster.start freshTxn emptyData) lostReply = some s ∧
      committed ∈ s.statuses ∧ aborted ∈ s.resolutions := by
  decide

end Datax.ParallelCommit
