import Datax.Kvserver.WriteBatch

/-!
# The keys a record is staged with

A record becomes staged only through an `EndTxn` that names in-flight keys, and a
push reports the keys the record holds. So whatever holds of the key lists that
coordinators send holds of every list that a recovery is started with.
-/

namespace Datax

open Fallible

variable {rec' : Option Transaction} {txn : Transaction} {h : BatchHeader}

section InFlight
variable {P : List Key → Prop}

def InFlight (P : List Key → Prop) (rec : Option Transaction) : Prop :=
  ∀ r ∈ rec, r.status = .staging → P r.inFlightKeys

theorem inFlight_of_not_staging {r : Transaction} (h : r.status ≠ .staging) :
    InFlight P (some r) := by
  intro r' hr' hs
  cases hr'
  exact absurd hs h

variable {rec : Option Transaction}

theorem inFlight_endTxn {req : EndTxnRequest} {resp : EndTxnResponse}
    (hreq : req.inFlight ≠ [] → P req.inFlight) (h : evalEndTxn rec txn req = .ok (rec', resp)) :
    InFlight P rec' := by
  obtain ⟨_, ⟨e, _, hs, _, _, rfl, _⟩ | ⟨_, _, rfl, _⟩⟩ := evalEndTxn_ok_iff.mp h
  · exact inFlight_of_not_staging (by simp [hs])
  unfold finalRecord
  split
  · split
    · rename_i hne
      intro r hr _
      cases hr
      exact hreq hne
    · exact inFlight_of_not_staging (by simp)
  · exact inFlight_of_not_staging (by simp)

theorem inFlight_heartbeat {req : HeartbeatTxnRequest} {status : TxnStatus} (hrec : InFlight P rec)
    (h : evalHeartbeatTxn rec txn req = .ok (rec', status)) : InFlight P rec' := by
  unfold evalHeartbeatTxn at h
  split at h
  · cases h
  split at h
  · rename_i hs
    cases h
    exact inFlight_of_not_staging (by simp [hs])
  · cases h
    exact hrec

theorem inFlight_push (req : PushTxnRequest) (hrec : InFlight P rec) :
    InFlight P (evalPushTxn rec req).1 ∧
      ((evalPushTxn rec req).2.status = .staging → P (evalPushTxn rec req).2.inFlightKeys) := by
  rcases rec with _ | r
  · simp only [evalPushTxn]
    split
    · exact ⟨inFlight_of_not_staging (by simp [zeroTransaction]), by simp⟩
    · exact ⟨hrec, by simp⟩
  · cases hs : r.status with
    | committed | aborted =>
      exact ⟨by simpa [evalPushTxn, hs] using hrec, by simp [evalPushTxn, hs]⟩
    | staging =>
      simp only [evalPushTxn, hs]
      exact ⟨hrec, fun _ => hrec r rfl hs⟩
    | pending =>
      simp only [evalPushTxn, hs]
      split
      · exact ⟨inFlight_of_not_staging (by simp), by simp⟩
      · exact ⟨hrec, by simp⟩

theorem inFlight_recover {req : RecoverTxnRequest} (hrec : InFlight P rec) :
    InFlight P (evalRecoverTxn rec req).1 := by
  rcases rec with _ | r
  · exact hrec
  simp only [evalRecoverTxn]
  split
  · exact hrec
  · apply inFlight_of_not_staging
    split <;> simp

variable {st st' : Ranges}

section
variable (hrec : InFlight P st.record)
include hrec

theorem evalRequest_inFlight {q : Request} {resp : Response}
    (hreq : ∀ key req, q = .endTxn key req → req.inFlight ≠ [] → P req.inFlight)
    (hq : evalRequest h st q = .ok (st', resp)) : InFlight P st'.record ∧
      ∀ p, resp = .pushTxn p → p.status = .staging → P p.inFlightKeys := by
  cases evaluated_of_ok hq with
  | laid hl hresp hput => exact ⟨(mvccPut_record hput).symm ▸ hrec, fun p hp => absurd hp (hresp p)⟩
  | @ended key req txn p hend => exact ⟨inFlight_endTxn (hreq key req rfl) hend, by simp⟩
  | beaten hbeat => exact ⟨inFlight_heartbeat hrec hbeat, by simp⟩
  | pushed req =>
    obtain ⟨hrec', hresp⟩ := inFlight_push req hrec
    refine ⟨hrec', ?_⟩
    intro p hp hs
    cases hp
    exact hresp hs
  | resolved hres => exact ⟨hrec, by simp⟩
  | recovered req => exact ⟨inFlight_recover hrec, by simp⟩

theorem evalRequests_inFlight {qs : List Request} {resps : List Response}
    (hreq : ∀ key req, Request.endTxn key req ∈ qs → req.inFlight ≠ [] → P req.inFlight)
    (hqs : evalRequests h qs st [] = .ok (st', resps)) : InFlight P st'.record ∧
      ∀ p, Response.pushTxn p ∈ resps → p.status = .staging → P p.inFlightKeys := by
  induction qs generalizing st resps with
  | nil =>
    cases hqs
    exact ⟨hrec, by simp⟩
  | cons q qs ih =>
    obtain ⟨st₁, resp, resps₁, hq, hrest, rfl⟩ := evalRequests_cons_ok hqs
    obtain ⟨hrec₁, hresp⟩ :=
      evalRequest_inFlight hrec (fun key req hk => hreq key req (hk ▸ List.mem_cons_self)) hq
    obtain ⟨hrec', hresps⟩ :=
      ih hrec₁ (fun key req hk => hreq key req (List.mem_cons_of_mem q hk)) hrest
    refine ⟨hrec', ?_⟩
    intro p hp hs
    rcases List.mem_cons.mp hp with hp | hp
    · exact hresp p hp.symm hs
    · exact hresps p hp hs

theorem evalWriteBatch_inFlight {gcThreshold : Timestamp} {ba : BatchRequest} {br : BatchResponse}
    (hreq : ∀ key req, Request.endTxn key req ∈ ba.requests → req.inFlight ≠ [] → P req.inFlight)
    (hb : evalWriteBatch gcThreshold st ba = .ok (st', br)) : InFlight P st'.record ∧
      ∀ p, Response.pushTxn p ∈ br.responses → p.status = .staging → P p.inFlightKeys := by
  unfold evalWriteBatch at hb
  split at hb
  · cases hb
  rename_i st₁ hc
  obtain ⟨⟨st₂, resps⟩, hr, heq⟩ := map_eq_ok.mp hb
  cases heq
  refine evalRequests_inFlight ?_ hreq hr
  rcases evalCreate_cases hc with ⟨_, rfl⟩ | ⟨_, txn, _, _, rfl⟩
  · exact hrec
  · exact inFlight_of_not_staging (by simp)

end

end InFlight

end Datax
