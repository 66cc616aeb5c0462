import Datax.Kvserver.ClosedTsFollower

/-!
# A closed timestamp is a promise kept

In every run free of the races `orderly` names, a follower that holds a closed timestamp has applied
every write at or below it that is or will be in the log. Otherwise the promise fails: of two
requests that find a range asleep, the second goes on before the first has bumped the cache.
-/

namespace Datax.ClosedTs

open Bool List Stores

variable {s s' : Stores}

/-- Every write at or below the follower's closed timestamp has applied there. -/
def PromiseKept (s : Stores) : Prop :=
  ∀ (r : RangeID) (j : Nat) (t : Timestamp), (s.ranges r).log[j]? = some (.write t) →
    t ≤ (s.replicas r).closedTimestamp → j < (s.replicas r).applied

theorem Inv.promiseKept (h : Inv s) : PromiseKept s := by
  intro r j t hlog ht
  by_contra hge
  have hlt := ((h.closed r).max (h.side r)).log j t (not_lt.mp hge) hlog
  exact absurd hlt (not_lt.mpr ht)

section Step

theorem inv_start : Inv {} where
  leader :=
    { bounds := fun _ => ⟨le_refl _, le_refl _⟩
      asleep := fun _ hc => nomatch hc
      still := fun _ hth => nomatch hth
      unstable := fun _ _ _ _ hlog => nomatch hlog
      latches := fun _ hth => nomatch hth }
  round :=
    { unique := fun _ _ _ _ hx => nomatch hx
      active := fun _ hth => nomatch hth
      target := fun _ hR => nomatch hR }
  logged := fun _ _ _ hlog => nomatch hlog
  threads := fun _ hth => nomatch hth
  closed := fun _ => ⟨.inl bot_le, fun _ _ _ hlog => (nomatch hlog), fun _ hth => (nomatch hth)⟩
  side := fun _ => ⟨.inl bot_le, fun _ _ _ hlog => (nomatch hlog), fun _ hth => (nomatch hth)⟩
  stream := ⟨Runs.along_nil _ _, fun _ _ hc => nomatch hc⟩

variable {i : Nat}

theorem inv_wake (h : Inv s) (hs : step s (.wake i) = some s') : Inv s' := by
  simp only [step] at hs
  split at hs
  · cases hs
  rename_i th hi
  obtain ⟨w, hw, rfl⟩ := Option.map_eq_some_iff.mp hs
  have hquiet : ∀ w', th.wake = some w' → w' ≠ .note true → th.noting → th.range ∈ s.woken := by
    intro w' hw' hne hn
    exact absurd (Option.some.inj (hw'.symm.trans hn)) hne
  cases w with
  | note registered =>
    have hl : WakeStage.level s.groupTS (.note registered) ≤ WakeStage.level s.groupTS .load :=
      le_refl _
    cases registered with
    | true =>
      exact h.wakeStage hi hw hl (fun q hq => mem_insert_of_mem hq) fun _ => mem_insert_self
    | false =>
      exact h.wakeStage hi hw hl (fun q hq => hq) (hquiet _ hw fun hc => nomatch hc)
  | load =>
    have hl : WakeStage.level s.groupTS .load ≤ WakeStage.level s.groupTS (.bump s.groupTS) :=
      le_refl _
    exact h.wakeStage hi hw hl (fun q hq => hq) (hquiet _ hw fun hc => nomatch hc)
  | bump ts =>
    simp only [Stores.wake]
    split
    · rename_i hempty
      have hinv := h.wakeBump hi hw (.inr ⟨Timestamp.isEmpty_iff.mp hempty, rfl⟩)
      have hsame := Function.update_eq_self th.range s.ranges
      change Inv { s.setThread i { th with wake := none } with
        ranges := Function.update s.ranges th.range (s.ranges th.range) } at hinv
      rw [hsame] at hinv
      exact hinv
    · exact h.wakeBump hi hw (.inl rfl)

variable {a : Action}

theorem onThread_eq_some (hs : onThread s i a = some s') :
    ∃ th, s.threads[i]? = some th ∧ th.wake = none ∧ threadStep s i th a = some s' := by
  unfold onThread at hs
  split at hs
  · cases hs
  rename_i th hi
  split_ifs at hs with hw
  exact ⟨th, hi, Option.isNone_iff_eq_none.mp hw, hs⟩

section
variable (h : Inv s)
include h

theorem inv_allow (hc : orderly s (.allow i) = true) (hs : step s (.allow i) = some s') :
    Inv s' := by
  obtain ⟨th, hi, hw, hs⟩ := onThread_eq_some hs
  simp only [orderly, hi, Option.all_some, and_eq_true, not_eq_true', all_eq_true,
    or_eq_true, bne_iff_ne, Option.isNone_iff_eq_none] at hc
  have hawake : s.Awake th.range := by
    refine ⟨hc.1, fun o ho hr => ?_⟩
    exact (hc.2 o ho).resolve_left (fun hne => hne hr)
  simp only [threadStep] at hs
  split at hs
  · rename_i w hphase
    split at hs
    · rename_i ts hts
      cases hs
      exact h.allow hi hphase hawake hts
    · cases hs
      apply h.finish hi
      intro t j hc
      simp [hphase] at hc
  · cases hs

theorem inv_finish (hs : step s (.finish i) = some s') : Inv s' := by
  obtain ⟨th, hi, hw, hs⟩ := onThread_eq_some hs
  simp only [threadStep] at hs
  split at hs
  · rename_i T index hphase
    split_ifs at hs
    cases hs
    exact h.finishClosed hi hw hphase _
  · rename_i c index hnot hphase
    split_ifs at hs with hlt
    cases hs
    apply h.finish hi
    intro t j hc
    cases hphase.symm.trans hc
    exact lt_of_lt_of_le hlt (h.leader.bounds _).1
  · cases hs

theorem inv_abandon (hc : orderly s (.abandon i) = true) (hs : step s (.abandon i) = some s') :
    Inv s' := by
  obtain ⟨th, hi, hw, hs⟩ := onThread_eq_some hs
  simp only [threadStep] at hs
  split at hs
  · cases hs
    apply h.finish hi
    intro t j hphase
    simp only [orderly, hi, Option.all_some, hphase] at hc
    exact of_decide_eq_true hc
  · cases hs

theorem inv_leave (hs : step s (.leave i) = some s') : Inv s' := by
  obtain ⟨th, hi, hw, hs⟩ := onThread_eq_some hs
  have hfinish : (∀ c j, th.phase ≠ .appended c j) → Inv (s.setThread i th.finish) := by
    intro hnot
    exact h.finish hi fun t j hc => absurd hc (hnot _ _)
  simp only [threadStep] at hs
  cases hphase : th.phase with
  | draining k target =>
    rw [hphase] at hs
    cases hs
    by_cases hk : k = .group
    · subst hk
      apply h.finishRegistration hi
      rw [Thread.registers, hphase]
      rfl
    · rw [Stores.endRegistration, if_neg hk]
      apply hfinish
      rw [hphase]
      intro c j hc
      cases hc
  | calling | queued w | choosing target | roused c =>
    rw [hphase] at hs
    cases hs
    apply hfinish
    rw [hphase]
    intro c j hc
    cases hc
  | _ =>
    rw [hphase] at hs
    cases hs

theorem inv_choose (hs : step s (.choose i) = some s') : Inv s' := by
  obtain ⟨th, hi, hw, hs⟩ := onThread_eq_some hs
  simp only [threadStep] at hs
  split at hs
  · rename_i target hphase
    split at hs
    · cases hs
      apply h.choose hi hphase
      split
      · simp
      · simp
    · cases hs
      apply h.finish hi
      intro t j hc
      simp [hphase] at hc
  · cases hs

theorem inv_write (hs : step s a = some s')
    (ha : a = .latch i ∨ a = .propose i ∨ a = .rouse i ∨ a = .append i) : Inv s' := by
  rcases ha with rfl | rfl | rfl | rfl
  all_goals
    obtain ⟨th, hi, hw, hs⟩ := onThread_eq_some hs
    simp only [threadStep] at hs
    split at hs
    case h_2 => cases hs
  · rename_i w hphase
    split_ifs at hs with hconf
    cases hs
    exact h.latch hi hphase (eq_false_of_not_eq_true hconf)
  · rename_i ts hphase
    cases hs
    exact h.propose hi hphase
  · rename_i c hphase
    cases hs
    exact h.rouse hi hw hphase
  · rename_i c hphase
    cases hs
    exact h.append hi hw hphase

theorem inv_range {r : RangeID} (hc : orderly s a = true)
    (hs : step s a = some s')
    (ha : a = .noop r ∨ a = .persist r ∨ a = .applyLeader r ∨ a = .quiesce r) : Inv s' := by
  rcases ha with rfl | rfl | rfl | rfl
  · cases hs
    exact h.noop
  · simp only [step] at hs
    split_ifs at hs with hlt
    cases hs
    exact h.persist hlt
  · simp only [step] at hs
    split_ifs at hs with hlt
    obtain ⟨c, _, rfl⟩ := Option.map_eq_some_iff.mp hs
    exact h.applyLeader hlt c
  · simp only [step] at hs
    split_ifs at hs with hen
    cases hs
    apply h.quiesce
    intro th hth hr
    simp only [orderly, all_eq_true, or_eq_true, bne_iff_ne, not_eq_true'] at hc
    exact pending_eq_none_of_idle hen.2.2 hth hr ((hc th hth).resolve_left fun hne => hne hr)

theorem inv_round (hs : step s a = some s')
    (ha : (∃ target, a = .startRound target) ∨ a = .queueWake ∨ (∃ r, a = .visit r) ∨
      a = .endRound) : Inv s' := by
  rcases ha with ⟨target, rfl⟩ | rfl | ⟨r, rfl⟩ | rfl
  · simp only [step] at hs
    split_ifs at hs with hen
    cases hs
    exact h.startRound (Option.isNone_iff_eq_none.mp hen.1) target
  · simp only [step] at hs
    split at hs
    · rename_i hround
      cases hs
      exact h.queueWake hround rfl
    · cases hs
  · simp only [step] at hs
    split at hs
    · rename_i R hround
      split_ifs at hs with hen
      cases hs
      exact Inv.visit hround (isEmpty_iff.mp hen.1) hen.2 h r
    · cases hs
  · simp only [step] at hs
    split at hs
    · rename_i R hround
      split at hs
      · rename_i hen
        cases hs
        exact Inv.endRound hround (isEmpty_iff.mp hen.1) hen.2 h
      · cases hs
    · cases hs

theorem inv_envelope {k : Nat} (hc : orderly s a = true)
    (hs : step s a = some s') (ha : a = .lose k ∨ a = .deliver k ∨ a = .handle k) : Inv s' := by
  rcases ha with rfl | rfl | rfl
  · simp only [step] at hs
    split_ifs at hs with hlt
    cases hs
    have hk := getElem?_eq_getElem hlt
    simp only [orderly, hk, Option.all_some, all_eq_true, not_eq_true'] at hc
    exact h.lose hk hc
  · have hk : k = 0 := eq_of_beq hc
    subst hk
    obtain ⟨env, henv, rfl⟩ := Option.map_eq_some_iff.mp hs
    exact h.deliver henv
  · simp only [orderly, and_eq_true, beq_iff_eq] at hc
    obtain ⟨rfl, hc⟩ := hc
    simp only [step] at hs
    cases hH : s.handling with
    | nil =>
      simp [hH] at hs
    | cons env H =>
      simp only [hH, getElem?_cons_zero] at hs hc
      cases env with
      | nil =>
        cases hs
        refine h.follower rfl rfl rfl rfl rfl h.closed h.side ?_
        have hstream := h.stream
        unfold Stores.stream at hstream
        rw [hH] at hstream
        exact hstream
      | cons u rest =>
        cases hs
        apply h.receive hH
        simpa using hc

end

end Step

theorem inv_step (s : Stores) (a : Action) (s' : Stores) (h : Inv s) (hc : orderly s a = true)
    (hs : step s a = some s') : Inv s' := by
  cases a with
  | call r =>
    cases hs
    exact h.call [] (fun _ => ⟨rfl, rfl, rfl, fun _ => trivial⟩) fun _ => rfl
  | arrive r w =>
    cases hs
    exact h.call w.spans (fun _ => ⟨rfl, rfl, rfl, fun _ => trivial⟩) fun _ => rfl
  | wake i => exact inv_wake h hs
  | latch i => exact inv_write h hs (.inl rfl)
  | allow i => exact inv_allow h hc hs
  | propose i => exact inv_write h hs (.inr (.inl rfl))
  | rouse i => exact inv_write h hs (.inr (.inr (.inl rfl)))
  | append i => exact inv_write h hs (.inr (.inr (.inr rfl)))
  | finish i => exact inv_finish h hs
  | abandon i => exact inv_abandon h hc hs
  | leave i => exact inv_leave h hs
  | choose i => exact inv_choose h hs
  | publish i =>
    obtain ⟨th, hi, hw, hs⟩ := onThread_eq_some hs
    exact h.publish hi hw hc hs
  | read r spans ts txnID =>
    cases hs
    exact h.read spans ts txnID
  | noop r => exact inv_range h hc hs (.inl rfl)
  | persist r => exact inv_range h hc hs (.inr (.inl rfl))
  | applyLeader r => exact inv_range h hc hs (.inr (.inr (.inl rfl)))
  | quiesce r => exact inv_range h hc hs (.inr (.inr (.inr rfl)))
  | startRound target => exact inv_round h hs (.inl ⟨target, rfl⟩)
  | queueWake => exact inv_round h hs (.inr (.inl rfl))
  | visit r => exact inv_round h hs (.inr (.inr (.inl ⟨r, rfl⟩)))
  | endRound => exact inv_round h hs (.inr (.inr (.inr rfl)))
  | flush =>
    cases hs
    exact h.flush
  | lose k => exact inv_envelope h hc hs (.inl rfl)
  | deliver k => exact inv_envelope h hc hs (.inr (.inl rfl))
  | handle k => exact inv_envelope h hc hs (.inr (.inr rfl))
  | applyFollower r =>
    obtain ⟨c, hlog, rfl⟩ := Option.map_eq_some_iff.mp hs
    exact h.applyFollower hlog
  | follow r follows =>
    cases hs
    exact h.setReplica (F := { s.replicas r with follows := follows }) (h.closed r) (h.side r)
      rfl h.stream

/-- Closed timestamps hold in every interleaving in which no write is admitted while
its range sleeps or is being woken, no wake is lost or overtaken, no write is given
up before it is in stable storage, no group promise meets a range that registered
while awake, and no entry slips in before a registration. -/
theorem closed_timestamp_kept (actions : List Action) (s : Stores)
    (hrun : Runs.run step {} actions = some s)
    (hguard : Runs.Guarded step (fun s a => orderly s a = true) {} actions) : PromiseKept s :=
  (Runs.invariant_of_run inv_step inv_start hguard hrun).promiseKept

/-- Range 1 sleeps at log index 1 with its registration and the group promises of two
rounds, at 10 and at 20, at the follower. -/
def promiseTwice : List Action :=
  [.noop 1, .persist 1, .applyLeader 1, .applyFollower 1, .quiesce 1,
    .startRound ⟨10, 0⟩, .visit 1, .publish 0, .publish 0, .publish 0, .publish 0,
    .publish 0, .publish 0, .endRound, .flush, .deliver 0, .handle 0, .handle 0,
    .handle 0, .handle 0, .startRound ⟨20, 0⟩, .visit 1, .endRound, .flush, .deliver 0, .handle 0,
    .handle 0, .handle 0]

def putAt (wallTime : Nat) : WriteRequest where
  spans := [⟨[4], none⟩]
  timestamp := ⟨wallTime, 0⟩

def wakeThenWrite : List Action :=
  promiseTwice ++ [.arrive 1 (putAt 30), .wake 1, .wake 1, .wake 1, .latch 1, .allow 1, .propose 1,
    .rouse 1, .append 1]

theorem closed_timestamp_kept_wakeThenWrite :
    ∃ s, Runs.run step {} wakeThenWrite = some s ∧ (s.replicas 1).closedTimestamp = ⟨20, 0⟩ ∧
      (s.ranges 1).log.length = 2 ∧ PromiseKept s := by
  refine Runs.exists_of_run
    (fun s => (s.replicas 1).closedTimestamp = ⟨20, 0⟩ ∧ (s.ranges 1).log.length = 2) (by decide) ?_
  exact fun s hs hp => ⟨hp.1, hp.2, closed_timestamp_kept wakeThenWrite s hs (by decide)⟩

/-- Two requests find the range asleep. The first is held up after its first section;
the second sees the range awake and is admitted against the old floor. -/
def concurrentWake : List Action :=
  promiseTwice ++
    [.call 1, .arrive 1 (putAt 15), .latch 2, .allow 2, .propose 2, .rouse 2, .append 2]

/-- The follower's closed timestamp is 20, and the leader takes a write at 15. -/
theorem concurrent_wake_breaks_promise :
    ∃ s, Runs.run step {} concurrentWake = some s ∧ (s.replicas 1).closedTimestamp = ⟨20, 0⟩ ∧
      (s.ranges 1).log[1]? = some (.write ⟨15, 0⟩) ∧ ¬ PromiseKept s := by
  refine Runs.exists_of_run (fun s => (s.replicas 1).closedTimestamp = ⟨20, 0⟩ ∧
    (s.replicas 1).applied = 1 ∧ (s.ranges 1).log[1]? = some (.write ⟨15, 0⟩)) (by decide) ?_
  rintro s - ⟨hclosed, happlied, hlog⟩
  refine ⟨hclosed, hlog, fun hkept => ?_⟩
  have hlt := hkept 1 1 ⟨15, 0⟩ hlog (by rw [hclosed]; decide)
  omega

end Datax.ClosedTs
