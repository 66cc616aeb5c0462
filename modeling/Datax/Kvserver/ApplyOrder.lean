import Datax.Kvserver.SchedulerInvariant

/-!
# Entries apply once and in order

A run that applies inline only to a replica in service, and in which replicas of one range follow
each other with nothing left behind, hands every replica its entries once and in order. Otherwise a
pass that waits for a failed run's queue applies what follows, and a run for a replica that is gone
throws away its successor's entries.
-/

namespace Datax.Scheduler

open Bool Option Function List Slot State

universe u
variable {ε : Type u}

section Entries
variable {size : ε → Nat} {bound : Nat} {slot slot' : Slot ε} {q aq i : Nat} {o : Outcome ε}

theorem OwnerInv.eq_latest {replica : Option Nat} {created : Nat} {stopped : Nat → Bool}
    {runs : List (ApplyRun ε)} {passes : List Pass}
    (h : OwnerInv replica created stopped runs passes) {r r' : Nat} (hr : r + 1 = created)
    (hlive : replica = some r') : r' = r := by
  have := h.current r' hlive
  omega

theorem Slot.pending_of_some {as : ApplyState ε} (slot : Slot ε) (ha : slot.apply = some as) :
    slot.pending = as.pending := by
  unfold Slot.pending
  rw [ha]
  rfl

section
variable {worker r : Nat} (h : SlotInv size bound slot q aq)
  (hp : slot.passes[i]? = some ⟨worker, some (some r)⟩)
include h hp

theorem inv_enqueueApply (ents : List ε) : SlotInv size bound (slot.enqueueApply size r ents).slot q
      (aq + (slot.enqueueApply size r ents).pushApply.toNat) := by
  have hr : r + 1 = slot.created := h.owner.passes _ (mem_of_getElem? hp) r rfl
  have happly := h.apply
  have hnonneg := entriesBytes_nonneg size ents
  have horder : OrderInv slot.replica slot.created slot.stopped
      (update slot.enqueued r (slot.enqueued r ++ ents)) slot.handed slot.runs
        (slot.pending ++ ents) := by
    have hgrow : ∀ r', slot.enqueued r' <+: update slot.enqueued r (slot.enqueued r ++ ents) r' :=
      (forall_update_iff slot.enqueued fun r' l => slot.enqueued r' <+: l).mpr
        ⟨prefix_append _ _, fun _ _ => prefix_rfl⟩
    refine ⟨?_, ?_, ?_, ?_⟩
    · intro r' hle
      rw [update_of_ne (by omega)]
      exact h.order.fresh r' hle
    · intro r'
      exact (h.order.inOrder r').trans (hgrow r')
    · intro run hrun r' hstage hstopped
      exact (h.order.looked run hrun r' hstage hstopped).trans (hgrow r')
    · intro r' hreplica hstopped
      obtain rfl := h.owner.eq_latest hr hreplica
      rw [update_self, h.order.complete r' hreplica hstopped, append_assoc]
  unfold enqueueApply
  cases ha : slot.apply with
  | none =>
    have hpend : slot.pending = [] := by
      unfold pending
      rw [ha]
      rfl
    rw [ha] at happly
    obtain ⟨hruns, rfl⟩ := happly
    rw [hpend] at horder
    refine ⟨⟨?_, .inl ⟨rfl, rfl, hruns, rfl⟩⟩, h.sched, h.owner, horder, ?_⟩
    · change 0 + entriesBytes size ents =
        entriesBytes size ([] ++ ents) + entriesBytes size (slot.runs.flatMap _)
      rw [hruns, nil_append, flatMap_nil, entriesBytes_nil]
      omega
    · intro r' hlive
      have hle := (h.flags r' hlive).1
      rw [ha] at hle
      refine ⟨hle, ?_⟩
      intro as has hne
      cases has
      exact absurd rfl hne
  | some as =>
    have hpend := slot.pending_of_some ha
    rw [ha] at happly
    obtain ⟨hbytes, hcases⟩ := happly
    have hbusy : (!as.queued && !as.running) = false := by
      rcases hcases with ⟨hqueued, -⟩ | ⟨-, hrunning, -⟩
      · rw [hqueued]
        rfl
      · rw [hrunning, Bool.not_true, Bool.and_false]
    rw [hpend] at horder
    dsimp only [getD_some]
    rw [hbusy]
    refine ⟨⟨?_, hcases⟩, h.sched, h.owner, horder, ?_⟩
    · change as.bytes + entriesBytes size ents =
        entriesBytes size (as.pending ++ ents) + entriesBytes size (slot.runs.flatMap _)
      rw [hbytes, entriesBytes_append]
      omega
    · intro r' hlive
      obtain ⟨hle, hdeferred⟩ := h.flags r' hlive
      rw [ha] at hle
      refine ⟨hle, ?_⟩
      intro as' has' hne
      cases has'
      have := hdeferred as ha hne
      change (bound : Int) < as.bytes + _
      omega

theorem inv_inlineApply (hlive : slot.Live r) (hpending : slot.pending = [])
    (hruns : slot.runs = []) (ents : List ε) : SlotInv size bound { slot with
      enqueued := update slot.enqueued r (slot.enqueued r ++ ents)
      handed := update slot.handed r (slot.handed r ++ ents) } q aq := by
  have hr : r + 1 = slot.created := h.owner.passes _ (mem_of_getElem? hp) r rfl
  have hsame : slot.enqueued r = slot.handed r := by
    rw [h.order.complete r hlive.1 hlive.2, hpending, hruns, flatMap_nil, append_nil, append_nil]
  refine ⟨h.apply, h.sched, h.owner, ⟨?_, ?_, ?_, ?_⟩, h.flags⟩
  · intro r' hle
    change slot.created ≤ r' at hle
    change update slot.enqueued r _ r' = []
    rw [update_of_ne (by omega)]
    exact h.order.fresh r' hle
  · intro r'
    change update slot.handed r _ r' <+: update slot.enqueued r _ r'
    by_cases heq : r' = r
    · exact ⟨[], by rw [append_nil, heq, update_self, update_self, hsame]⟩
    · rw [update_of_ne heq, update_of_ne heq]
      exact h.order.inOrder r'
  · intro run hrun
    simp [hruns] at hrun
  · intro r' hreplica _
    obtain rfl := h.owner.eq_latest hr hreplica
    change update slot.enqueued r' _ r' = update slot.handed r' _ r' ++ slot.runs.flatMap _ ++
      slot.pending
    rw [update_self, update_self, hsame, hruns, hpending, flatMap_nil, append_nil,
      append_nil]

end

theorem inv_applyTake (h : SlotInv size bound slot q (aq + 1)) :
    SlotInv size bound slot.applyTake q aq := by
  have happly := h.apply
  unfold applyTake
  cases ha : slot.apply with
  | none =>
    rw [ha] at happly
    exact absurd happly.2 (Nat.succ_ne_zero aq)
  | some as =>
    have hpend := slot.pending_of_some ha
    rw [ha] at happly
    obtain ⟨hbytes, ⟨hqueued, hrunning, hruns, haq⟩ | ⟨-, -, -, haq⟩⟩ := happly
    · obtain rfl : aq = 0 := by omega
      have hone : slot.runs ++ [(⟨as.pending, .taken⟩ : ApplyRun ε)] = [⟨as.pending, .taken⟩] := by
        rw [hruns]
        rfl
      dsimp only
      rw [hone]
      refine ⟨⟨?_, .inr ⟨rfl, rfl, ⟨_, rfl⟩, rfl⟩⟩, h.sched,
        ⟨h.owner.current, ?_, h.owner.missing, h.owner.passes⟩,
        ⟨h.order.fresh, h.order.inOrder, ?_, ?_⟩, ?_⟩
      · rw [hbytes, hruns, flatMap_nil, flatMap_singleton, entriesBytes_nil, add_zero, zero_add]
      · intro run hrun
        cases mem_singleton.mp hrun
        trivial
      · intro run hrun r hstage
        cases mem_singleton.mp hrun
        cases hstage
      · intro r hreplica hstopped
        have hcomplete := h.order.complete r hreplica hstopped
        rw [hruns, hpend, flatMap_nil, append_nil] at hcomplete
        change slot.enqueued r =
          slot.handed r ++ List.flatMap ApplyRun.waiting [⟨as.pending, .taken⟩] ++ []
        rw [hcomplete, flatMap_singleton, append_nil]
        rfl
      · intro r hlive
        obtain ⟨hle, hdeferred⟩ := h.flags r hlive
        rw [ha] at hle
        refine ⟨hle, ?_⟩
        intro as' has' hne
        cases has'
        exact hdeferred as ha hne
    · omega

section
variable (h : SlotInv size bound slot q aq)
include h

theorem SlotInv.complete_of_run {run : ApplyRun ε} (hrun : slot.runs[i]? = some run)
    {r : Nat} (hlive : slot.Live r) :
    slot.enqueued r = slot.handed r ++ run.waiting ++ slot.pending := by
  obtain ⟨-, hruns, -⟩ := h.apply.of_run hrun
  rw [h.order.complete r hlive.1 hlive.2, hruns, flatMap_singleton]

theorem inv_setStage {ents : List ε} {stage stage' : Stage} {handed : Nat → List ε}
    (hrun : slot.runs[i]? = some ⟨ents, stage⟩)
    (hok : StageOK slot.replica slot.created slot.stopped stage')
    (hinOrder : ∀ r, handed r <+: slot.enqueued r) (hlooked : ∀ r, stage' = .looked (some r) →
      slot.stopped r = false → handed r ++ ents <+: slot.enqueued r)
    (hcomplete : ∀ r, slot.Live r →
      slot.enqueued r = handed r ++ ApplyRun.waiting ⟨ents, stage'⟩ ++ slot.pending) :
    SlotInv size bound
      { slot with runs := slot.runs.set i ⟨ents, stage'⟩, handed := handed } q aq := by
  obtain ⟨rfl, hruns, -⟩ := h.apply.of_run hrun
  have happly := h.apply
  rw [hruns] at happly ⊢
  refine ⟨happly.set_stage rfl, h.sched, { h.owner with runs := forall_mem_singleton.mpr hok },
    ⟨h.order.fresh, hinOrder, forall_mem_singleton.mpr hlooked, ?_⟩, h.flags⟩
  intro r hreplica hstopped
  rw [set_cons_zero, flatMap_singleton]
  exact hcomplete r ⟨hreplica, hstopped⟩

theorem inv_applyLookup {ents : List ε} (hrun : slot.runs[i]? = some ⟨ents, .taken⟩) :
    SlotInv size bound { slot with runs := slot.runs.set i ⟨ents, .looked slot.replica⟩ } q aq := by
  refine inv_setStage h hrun ?_ h.order.inOrder ?_ fun r => h.complete_of_run hrun
  · cases hreplica : slot.replica with
    | none => exact rfl
    | some r => exact h.owner.current r hreplica
  · intro r hstage hstopped
    rw [h.complete_of_run hrun ⟨Stage.looked.inj hstage, hstopped⟩]
    exact prefix_append _ _

theorem inv_applyBegin {ents : List ε} {found : Option Nat}
    (hrun : slot.runs[i]? = some ⟨ents, .looked found⟩) :
    SlotInv size bound (slot.applyBegin i ents found) q aq := by
  have hstage := h.owner.runs _ (mem_of_getElem? hrun)
  cases found with
  | none =>
    refine inv_setStage h hrun hstage h.order.inOrder (fun r hlook => by cases hlook)
      fun r hlive => ?_
    have hgone : slot.replica = none := hstage
    simp [hlive.1] at hgone
  | some r =>
    have hr : r + 1 = slot.created := hstage
    dsimp only [applyBegin]
    split
    · rename_i hstopped
      refine inv_setStage h hrun ⟨r, hr, hstopped⟩ h.order.inOrder (fun r hlook => by cases hlook)
        fun r' hlive => ?_
      have hnot := hlive.2
      simp [h.owner.eq_latest hr hlive.1, hstopped] at hnot
    · rename_i hstopped
      refine inv_setStage h hrun hr ?_ (fun r hlook => by cases hlook) fun r' hlive => ?_
      · refine (forall_update_iff slot.handed fun r' l => l <+: slot.enqueued r').mpr
          ⟨?_, fun r' _ => h.order.inOrder r'⟩
        exact h.order.looked _ (mem_of_getElem? hrun) r rfl (eq_false_iff.mpr hstopped)
      · obtain rfl := h.owner.eq_latest hr hlive.1
        rw [update_self, h.complete_of_run hrun hlive]
        simp [ApplyRun.waiting]

theorem inv_halt (r : Nat) :
    SlotInv size bound { slot with stopped := update slot.stopped r true } q aq := by
  have hstill : ∀ r', slot.stopped r' = true → update slot.stopped r true r' = true :=
    (forall_update_iff slot.stopped fun r' b => slot.stopped r' = true → b = true).mpr
      ⟨fun _ => rfl, fun _ _ hs => hs⟩
  have hnot : ∀ r', update slot.stopped r true r' = false → slot.stopped r' = false := by
    intro r' hs
    by_contra htrue
    simp [hstill r' (eq_true_of_ne_false htrue)] at hs
  refine ⟨h.apply, h.sched, ⟨h.owner.current, ?_, h.owner.missing, h.owner.passes⟩,
    ⟨h.order.fresh, h.order.inOrder, ?_, ?_⟩, ?_⟩
  · exact fun run hrun => (h.owner.runs run hrun).mono (fun hnone => hnone) hstill
  · intro run hrun r' hstage hs
    exact h.order.looked run hrun r' hstage (hnot r' hs)
  · intro r' hreplica hs
    exact h.order.complete r' hreplica (hnot r' hs)
  · intro r' hlive
    exact h.flags r' ⟨hlive.1, hnot r' hlive.2⟩

end

end Entries

section Finish
variable {size : ε → Nat} {bound : Nat} {slot slot' : Slot ε} {q aq i : Nat} {o : Outcome ε}

section
variable (h : SlotInv size bound slot q aq)
include h

theorem inv_applyFail {ents : List ε} {r : Nat}
    (hrun : slot.runs[i]? = some ⟨ents, .applying r⟩) : SlotInv size bound { slot with
      runs := slot.runs.set i ⟨ents, .failed r⟩
      stopped := update slot.stopped r true } q aq := by
  have hr : r + 1 = slot.created := h.owner.runs _ (mem_of_getElem? hrun)
  refine inv_setStage (inv_halt h r) hrun ⟨hr, update_self _ _ _⟩ h.order.inOrder
    (fun r hlook => by cases hlook) ?_
  intro r' hlive
  have hnot : update slot.stopped r true r' = false := hlive.2
  simp [h.owner.eq_latest hr hlive.1, update_self] at hnot

/-- The end of a run: what arrived meanwhile is queued again, and what was deferred is
raised once the range is back under its bound. -/
theorem inv_applyFinish {run : ApplyRun ε} {ok failed : Bool} (hrun : slot.runs[i]? = some run)
    (hgiven : run.waiting = []) (hlost : failed = true ∨ ok = false → ∀ r, ¬ slot.Live r)
    (hfinish : slot.applyFinish size bound i run.ents ok failed = some o) :
    SlotInv size bound o.slot (q + o.push.toNat) (aq + o.pushApply.toNat) := by
  obtain ⟨rfl, hruns, rfl, as, ha, hqueued, hrunning, hbytes⟩ := h.apply.of_run hrun
  have herase : slot.runs.eraseIdx 0 = [] := by
    rw [hruns]
    rfl
  have hpend := slot.pending_of_some ha
  have howner : OwnerInv slot.replica slot.created slot.stopped ([] : List (ApplyRun ε))
      slot.passes :=
    ⟨h.owner.current, fun run hmem => (by cases hmem), h.owner.missing, h.owner.passes⟩
  have hcomplete : ∀ r, slot.Live r → slot.enqueued r = slot.handed r ++ as.pending := by
    intro r hlive
    rw [h.order.complete r hlive.1 hlive.2, hruns, hpend, flatMap_singleton, hgiven, append_nil]
  have horder : ∀ pending, (∀ r, slot.Live r → pending = as.pending) →
      OrderInv slot.replica slot.created slot.stopped slot.enqueued slot.handed [] pending := by
    intro pending hsame
    refine ⟨h.order.fresh, h.order.inOrder, fun run hmem => (by cases hmem), ?_⟩
    intro r hreplica hstopped
    rw [hcomplete r ⟨hreplica, hstopped⟩, hsame r ⟨hreplica, hstopped⟩, flatMap_nil, append_nil]
  have hrest : as.bytes - entriesBytes size run.ents = entriesBytes size as.pending := by
    omega
  have hleft : ¬ (!failed && ok && !as.pending.isEmpty) = true → ∀ r, slot.Live r →
      as.pending = [] := by
    intro hstop r hlive
    by_contra hne
    refine hstop ?_
    have hok : ¬ (failed = true ∨ ok = false) := fun hor => hlost hor r hlive
    push Not at hok
    rw [eq_false_iff.mpr hok.1, eq_true_of_ne_false hok.2, isEmpty_eq_false_iff.mpr hne]
    rfl
  have hflags := h.flags
  unfold FlagInv at hflags
  rw [ha] at hflags
  unfold applyFinish at hfinish
  rw [ha] at hfinish
  dsimp only at hfinish
  rw [hrest, herase] at hfinish
  by_cases hdrained : as.deferred ≠ ⊥ ∧ entriesBytes size as.pending ≤ (bound : Int)
  · rw [decide_eq_true hdrained] at hfinish
    simp only [if_true] at hfinish
    obtain ⟨st, hslot, hst, hsched⟩ :=
      raise_spec ({ slot with apply := some as, runs := [] } : Slot ε) as.deferred
    have hsched := hsched q h.sched
    rw [hslot] at hfinish
    have hraised : ∀ r, slot.Live r → slot.owed ≤ st.flags ⊔ ⊥ := by
      intro r hlive
      rw [hst, sup_bot_eq]
      exact (hflags r hlive).1
    split at hfinish
    · cases hfinish
      refine ⟨⟨?_, .inl ⟨rfl, rfl, rfl, rfl⟩⟩, hsched, howner, horder as.pending fun _ _ => rfl, ?_⟩
      · change entriesBytes size as.pending = entriesBytes size as.pending + entriesBytes size []
        rw [entriesBytes_nil, add_zero]
      intro r hlive
      refine ⟨hraised r hlive, ?_⟩
      intro as' has' hne
      cases has'
      exact absurd rfl hne
    · rename_i hstop
      cases hfinish
      refine ⟨⟨rfl, rfl⟩, hsched, howner, horder [] fun r hlive => (hleft hstop r hlive).symm, ?_⟩
      intro r hlive
      exact ⟨hraised r hlive, fun as' has' => (by cases has')⟩
  · rw [decide_eq_false hdrained] at hfinish
    simp only [false_eq_true, if_false] at hfinish
    split at hfinish
    · cases hfinish
      refine ⟨⟨?_, .inl ⟨rfl, rfl, rfl, rfl⟩⟩, h.sched, howner,
        horder as.pending fun _ _ => rfl, ?_⟩
      · change entriesBytes size as.pending = entriesBytes size as.pending + entriesBytes size []
        rw [entriesBytes_nil, add_zero]
      intro r hlive
      refine ⟨(hflags r hlive).1, ?_⟩
      intro as' has' hne
      cases has'
      exact lt_of_not_ge fun hle => hdrained ⟨hne, hle⟩
    · rename_i hstop
      cases hfinish
      refine ⟨⟨rfl, rfl⟩, h.sched, howner, horder [] fun r hlive => (hleft hstop r hlive).symm, ?_⟩
      intro r hlive
      refine ⟨?_, fun as' has' => (by cases has')⟩
      -- nothing is left of the backlog, so nothing can have been deferred still
      have hnone : as.deferred = ⊥ := by
        by_contra hne
        refine hdrained ⟨hne, ?_⟩
        rw [hleft hstop r hlive, entriesBytes_nil]
        exact Int.natCast_nonneg bound
      have hle := (hflags r hlive).1
      change slot.owed ≤ slot.flags ⊔ as.deferred at hle
      rw [hnone] at hle
      exact hle

theorem inv_stopReplica {r : Nat} {waived : Bool} (hr : r + 1 = slot.created)
    (hstop : slot.stopReplica r waived = some slot') : SlotInv size bound slot' q aq := by
  have hhalt := inv_halt h r
  unfold stopReplica at hstop
  dsimp only at hstop
  split_ifs at hstop
  cases hstop
  have hdead : ∀ r', slot.replica = some r' → update slot.stopped r true r' = false → False := by
    intro r' hreplica hnot
    simp [h.owner.eq_latest hr hreplica, update_self] at hnot
  refine ⟨?_, h.sched, hhalt.owner, ⟨h.order.fresh, h.order.inOrder, hhalt.order.looked, ?_⟩, ?_⟩
  · have happly := h.apply
    cases ha : slot.apply with
    | none =>
      rw [ha] at happly
      exact happly
    | some as =>
      rw [ha] at happly
      obtain ⟨hbytes, hqueued | hrunning⟩ := happly
      · rw [map_some, hqueued.2.1]
        refine ⟨?_, .inl ⟨hqueued.1, rfl, hqueued.2.2⟩⟩
        rw [hqueued.2.2.1]
        rfl
      · rw [map_some, hrunning.2.1]
        exact ⟨hbytes, .inr hrunning⟩
  · intro r' hreplica hnot
    exact (hdead r' hreplica hnot).elim
  · intro r' hlive
    exact (hdead r' hlive.1 hlive.2).elim

theorem inv_remove : SlotInv size bound { slot with replica := none } q aq := by
  exact ⟨h.apply, h.sched, ⟨fun r hr => (by cases hr), fun run hrun =>
    (h.owner.runs run hrun).mono (fun _ => rfl) fun _ hs => hs,
      fun _ _ _ => rfl, h.owner.passes⟩,
    ⟨h.order.fresh, h.order.inOrder, h.order.looked, fun r hr => (by cases hr)⟩, fun r hlive =>
      (by cases hlive.1)⟩

theorem inv_create (happly : slot.apply = none) (hpasses : slot.passes = []) :
    SlotInv size bound
      { slot with replica := some slot.created, created := slot.created + 1, owed := ⊥ } q aq := by
  have hruns : slot.runs = [] := by
    have ha := h.apply
    rw [happly] at ha
    exact ha.1
  refine ⟨h.apply, h.sched, ⟨?_, ?_, ?_, ?_⟩, ⟨?_, h.order.inOrder, h.order.looked, ?_⟩, ?_⟩
  · intro r hr
    cases hr
    rfl
  · intro run hmem
    simp [hruns] at hmem
  · intro p hmem
    simp [hpasses] at hmem
  · intro p hmem
    simp [hpasses] at hmem
  · intro r hle
    exact h.order.fresh r (Nat.le_of_succ_le hle)
  · intro r hr _
    cases hr
    have hfresh := h.order.fresh slot.created le_rfl
    have hhanded : slot.handed slot.created = [] := by
      have hpre := h.order.inOrder slot.created
      rw [hfresh] at hpre
      exact prefix_nil.mp hpre
    unfold pending
    rw [hfresh, hhanded, hruns, happly]
    rfl
  · intro r _
    refine ⟨bot_le, ?_⟩
    intro as has
    simp [happly] at has

end

end Finish

section Steps
variable {size : ε → Nat} {bound : Nat} {s s' : State ε}

theorem inv_put {id : RangeID} {o : Outcome ε}
    (h : ∀ id' ≠ id, SlotInv size bound (s.slots id') (s.queue.count id') (s.applyQueue.count id'))
    (ho : SlotInv size bound o.slot (s.queue.count id + o.push.toNat)
      (s.applyQueue.count id + o.pushApply.toNat)) :
    Inv size bound (s.put id o) := by
  have hcount : ∀ (l : List RangeID) (b : Bool), (l ++ if b then [id] else []).count id =
      l.count id + b.toNat := by
    intro l b
    cases b with
    | false | true => simp
  have hother : ∀ (l : List RangeID) (b : Bool) (id' : RangeID), id' ≠ id →
      (l ++ if b then [id] else []).count id' = l.count id' := by
    intro l b id' hne
    cases b with
    | false => simp
    | true => simp [hne.symm]
  intro id'
  unfold put
  dsimp only
  by_cases heq : id' = id
  · subst heq
    rw [update_self, hcount, hcount]
    exact ho
  · rw [update_of_ne heq, hother _ _ _ heq, hother _ _ _ heq]
    exact h id' heq

theorem inv_move {id : RangeID} {m : Move ε} {o : Outcome ε} (h : Inv size bound s)
    (hguard : orderly s (.move id m) = true)
    (hmove : (s.slots id).move size bound s.stopping m = some o) :
    SlotInv size bound o.slot (s.queue.count id + o.push.toNat)
      (s.applyQueue.count id + o.pushApply.toNat) := by
  have hid := h id
  cases m <;> dsimp only [move] at hmove
  case enqueue f =>
    cases hmove
    exact inv_enqueue hid f
  case passLookup i =>
    split at hmove <;> cases hmove
    rename_i worker hp
    exact inv_passLookup hid hp
  case enqueueApply i ents =>
    split at hmove <;> cases hmove
    rename_i worker r hp
    exact inv_enqueueApply hid hp ents
  case inlineApply i ents =>
    split at hmove
    · rename_i worker r hp
      split_ifs at hmove with hdrain
      cases hmove
      dsimp only [orderly] at hguard
      rw [hp] at hguard
      obtain ⟨hreplica, hstopped⟩ := and_eq_true_iff.mp hguard
      obtain ⟨hpending, hruns⟩ := h.sound.drained id hdrain
      exact inv_inlineApply hid hp ⟨eq_of_beq hreplica, (not_eq_true' _).mp hstopped⟩
        hpending hruns ents
    · cases hmove
  case passEnd i =>
    split at hmove
    · rename_i worker found hp
      exact inv_passEnd hid hp hmove
    · cases hmove
  case applyLookup i =>
    split at hmove <;> cases hmove
    rename_i ents hrun
    exact inv_applyLookup hid hrun
  case applyBegin i =>
    split at hmove <;> cases hmove
    rename_i ents found hrun
    exact inv_applyBegin hid hrun
  case applyFail i =>
    split at hmove <;> cases hmove
    rename_i ents r hrun
    exact inv_applyFail hid hrun
  case applyFinish i =>
    split at hmove
    · rename_i ents r hrun
      refine inv_applyFinish hid hrun rfl ?_ hmove
      rintro (hfailed | hok)
      · cases hfailed
      · cases hok
    · rename_i ents r hrun
      refine inv_applyFinish hid hrun rfl ?_ hmove
      obtain ⟨hr, hstopped⟩ := hid.owner.runs _ (mem_of_getElem? hrun)
      rintro - r' ⟨hreplica, hnot⟩
      simp [hid.owner.eq_latest hr hreplica, hstopped] at hnot
    · rename_i ents ok hrun
      refine inv_applyFinish hid hrun rfl ?_ hmove
      rintro (hfailed | rfl) r' ⟨hreplica, -⟩
      · cases hfailed
      · have hgone : (s.slots id).replica = none := hid.owner.runs _ (mem_of_getElem? hrun)
        simp [hreplica] at hgone
    · cases hmove
  case halt r =>
    split_ifs at hmove
    cases hmove
    exact inv_halt hid r
  case remove =>
    cases hmove
    exact inv_remove hid
  case create =>
    split_ifs at hmove
    cases hmove
    obtain ⟨happly, hpasses⟩ := and_eq_true_iff.mp hguard
    exact inv_create hid (isNone_iff_eq_none.mp happly) (isEmpty_iff.mp hpasses)

theorem inv_step {a : Action ε} (h : Inv size bound s) (hguard : orderly s a = true)
    (hstep : step size bound s a = some s') : Inv size bound s' := by
  cases a with
  | move id m =>
    obtain ⟨o, hmove, rfl⟩ := map_eq_some_iff.mp hstep
    exact inv_put (fun id' _ => h id') (inv_move h hguard hmove)
  | passTake worker =>
    dsimp only [step] at hstep
    split_ifs at hstep
    split at hstep
    · cases hstep
    rename_i id queue hqueue
    obtain ⟨slot', htake, rfl⟩ := map_eq_some_iff.mp hstep
    refine inv_put (fun id' hne => ?_) ?_
    · simpa only [hqueue, count_cons_of_ne hne.symm] using h id'
    · have hid := h id
      rw [hqueue, count_cons_self] at hid
      exact inv_passTake hid htake
  | applyTake =>
    dsimp only [step] at hstep
    split_ifs at hstep
    split at hstep
    · cases hstep
    rename_i id applyQueue hqueue
    cases hstep
    refine inv_put (fun id' hne => ?_) ?_
    · simpa only [hqueue, count_cons_of_ne hne.symm] using h id'
    · have hid := h id
      rw [hqueue, count_cons_self] at hid
      exact inv_applyTake hid
  | stopReplica id r merging =>
    obtain ⟨slot', hstop, rfl⟩ := map_eq_some_iff.mp hstep
    exact inv_put (fun id' _ => h id') (inv_stopReplica (h id) (eq_of_beq hguard) hstop)
  | stop =>
    cases hstep
    exact h

theorem inv_start : Inv size bound (start : State ε) := by
  intro id
  refine ⟨⟨rfl, rfl⟩, ⟨rfl, rfl⟩, ⟨?_, ?_, ?_, ?_⟩,
    ⟨fun _ _ => rfl, fun _ => prefix_rfl, ?_, ?_⟩, ?_⟩
  case refine_7 => exact fun r hlive => absurd hlive.1 (some_ne_none r).symm
  all_goals
    intro x hx
    cases hx

/-- Whatever the interleaving of passes, apply runs, stops and shutdown: as long as
replicas take over from each other in good order and inline applies are made to
replicas in service, entries apply once and in order, none is stranded, and no
deferred flag is lost. -/
theorem applies_in_order (size : ε → Nat) (bound : Nat) {actions : List (Action ε)}
    (hguard : Runs.Guarded (step size bound) (fun s a => orderly s a = true) start actions)
    (hrun : Runs.run (step size bound) start actions = some s) : Sound bound s :=
  (Runs.invariant_of_run (fun _ _ _ h hg hs => inv_step h hg hs) inv_start hguard hrun).sound

end Steps

section Examples

/-- A pass of range 1 that finds its replica and does what is asked. -/
private def pass (ms : List (Move Nat)) : List (Action Nat) :=
  .move 1 (.enqueue (false, true)) :: .passTake 0 :: .move 1 (.passLookup 0) :: ms.map (.move 1)

private def oneRange (ms : List (Move Nat)) : List (Action Nat) := ms.map (.move 1)

private def pipelined : List (Action Nat) :=
  oneRange [.create] ++ pass [.enqueueApply 0 [10, 11], .passEnd 0] ++ .applyTake ::
    pass [.enqueueApply 0 [12], .passEnd 0] ++
      oneRange [.applyLookup 0, .applyBegin 0, .applyFinish 0] ++
    .applyTake :: oneRange [.applyLookup 0, .applyBegin 0]

private def failedRun : List (Action Nat) :=
  oneRange [.create] ++ pass [.enqueueApply 0 [10], .passEnd 0] ++ .applyTake ::
    oneRange [.applyLookup 0, .applyBegin 0] ++ pass [.enqueueApply 0 [11], .passEnd 0] ++
    pass [.applyFail 0, .applyFinish 0, .inlineApply 0 [12]]

private def replaced : List (Action Nat) :=
  oneRange [.create] ++ pass [.enqueueApply 0 [10], .passEnd 0] ++ oneRange [.remove] ++
    .stopReplica 1 0 none :: .applyTake :: oneRange [.applyLookup 0, .create] ++
    pass [.enqueueApply 0 [20], .passEnd 0] ++ oneRange [.applyBegin 0, .applyFinish 0] ++
    pass [.enqueueApply 0 [21], .passEnd 0] ++ .applyTake ::
      oneRange [.applyLookup 0, .applyBegin 0]

theorem applies_in_order_pipelined :
    ∃ s, Runs.run (step (fun _ => 0) 100) start pipelined = some s ∧
      (s.slots 1).handed 0 = [10, 11, 12] ∧ Sound 100 s := by
  refine Runs.exists_of_run (fun s => (s.slots 1).handed 0 = [10, 11, 12]) (by decide +kernel) ?_
  exact fun s hrun hs => ⟨hs, applies_in_order (fun _ => 0) 100 (by decide +kernel) hrun⟩

/-- An apply run fails while a pass waits for the queue to drain: the queue is thrown
away, and the pass applies its own entries behind the gap. A run taken for a replica
that is gone throws away the entries of the replica that took its place. -/
theorem entries_skipped : (∃ s, Runs.run (step (fun _ => 0) 100) start failedRun = some s ∧
      (s.slots 1).enqueued 0 = [10, 11, 12] ∧ (s.slots 1).handed 0 = [10, 12]) ∧
    ∃ s, Runs.run (step (fun _ => 0) 100) start replaced = some s ∧
      (s.slots 1).enqueued 1 = [20, 21] ∧ (s.slots 1).handed 1 = [21] ∧
      (s.slots 1).stopped 1 = false := by
  decide +kernel

end Examples

end Datax.Scheduler
