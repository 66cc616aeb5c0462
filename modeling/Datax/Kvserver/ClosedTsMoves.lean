import Datax.Kvserver.ClosedTsInvariant

/-!
# Steps of the leader store

A step of the leader touches one range and replaces some threads that work on it by
others. `Move` says what such a step must not take away for every promise to stay
covered, `Order` what keeps logs and latches in order.
-/

namespace Datax.ClosedTs

open Stores

structure Move (s s' : Stores) (r : RangeID) (old new : List Thread) : Prop where
  group : s.groupTS ≤ s'.groupTS
  other : ∀ q, q ≠ r → s'.ranges q = s.ranges q
  mem : ∀ th ∈ old, th ∈ s.threads ∧ th.range = r
  there : ∀ th ∈ new, th ∈ s'.threads ∧ th.range = r
  kept : ∀ th ∈ s.threads, th ∈ s'.threads ∨ th ∈ old
  came : ∀ th ∈ s'.threads, th ∈ s.threads ∨ th ∈ new
  floor : s.floor r ≤ s'.floor r
  last : (s.ranges r).lastIndex ≤ (s'.ranges r).lastIndex
  sleep : (s.ranges r).quiescent = true → (s'.ranges r).quiescent = true ∨
    ∃ th ∈ new, ∃ w, th.wake = some w ∧ s.groupTS ≤ w.level s'.groupTS
  wake : ∀ th ∈ old, ∀ w, th.wake = some w →
    (∃ th' ∈ new, ∃ w', th'.wake = some w' ∧ w.level s.groupTS ≤ w'.level s'.groupTS) ∨
      w.level s.groupTS ≤ s'.floor r
  log : ∀ (j : Nat) (t : Timestamp), (s'.ranges r).log[j]? = some (.write t) →
    (s.ranges r).log[j]? = some (.write t) ∨ ∃ th ∈ old, th.pending = some t
  pending : ∀ th ∈ new, ∀ t, th.pending = some t →
    (∃ o ∈ old, o.pending = some t) ∨ (s.Awake r ∧ s.floor r < t)

structure Order (s s' : Stores) (r : RangeID) (old new : List Thread) : Prop where
  bounds : (s'.ranges r).applied ≤ (s'.ranges r).lastIndex ∧
    (s'.ranges r).lastIndex ≤ (s'.ranges r).log.length
  asleep : (s'.ranges r).sideRegistered = true → (s'.ranges r).quiescent = true
  quiet : (s'.ranges r).quiescent = true → (s.ranges r).quiescent = true ∨
    ∀ th ∈ s'.threads, th.range = r → th.pending = none
  waking : ∀ th ∈ new, th.wake ≠ none → (∃ o ∈ old, o.wake ≠ none) ∨ (s.ranges r).quiescent = true
  unstable : ∀ (j : Nat) (t : Timestamp), (s'.ranges r).lastIndex ≤ j →
    (s'.ranges r).log[j]? = some (.write t) →
    ((s.ranges r).lastIndex ≤ j ∧ (s.ranges r).log[j]? = some (.write t) ∧
      ∀ o ∈ old, o.phase ≠ .appended (.write t) j) ∨
    ∃ th ∈ new, th.phase = .appended (.write t) j
  shared : ∀ th ∈ new, th.shared = true → (∃ o ∈ old, o.shared = true) ∨
    ∀ o ∈ s'.threads, o.range = r → o.exclusive = false
  exclusive : ∀ th ∈ new, th.exclusive = true → (∃ o ∈ old, o.exclusive = true) ∨
    ∀ o ∈ s'.threads, o.range = r → o.shared = false

variable {th : Thread} {t : Timestamp}

section Move
variable {s s' : Stores} {r : RangeID} {old new : List Thread}

theorem WakeStage.level_mono {g g' : Timestamp} (w : WakeStage) (h : g ≤ g') :
    w.level g ≤ w.level g' := by
  cases w with
  | note registered | load => exact h
  | bump ts => exact le_refl ts

theorem Move.backed (m : Move s s' r old new) {q : RangeID} {T : Timestamp} (h : s.Backed q T) :
    s'.Backed q T := by
  by_cases hq : q = r
  · subst hq
    rcases h with hf | ⟨hsleep, hg⟩ | ⟨th, hth, hr, w, hw, hl⟩
    · exact .inl (le_trans hf m.floor)
    · rcases m.sleep hsleep with hsleep' | ⟨th, hth, w, hw, hl⟩
      · exact .inr (.inl ⟨hsleep', le_trans hg m.group⟩)
      · exact .inr (.inr ⟨th, (m.there th hth).1, (m.there th hth).2, w, hw, le_trans hg hl⟩)
    · rcases m.kept th hth with hth' | hold
      · exact .inr (.inr ⟨th, hth', hr, w, hw, le_trans hl (w.level_mono m.group)⟩)
      rcases m.wake th hold w hw with ⟨th', hth', w', hw', hl'⟩ | hf
      · exact .inr (.inr
          ⟨th', (m.there th' hth').1, (m.there th' hth').2, w', hw', le_trans hl hl'⟩)
      · exact Or.inl (le_trans hl hf)
  · rcases h with hf | ⟨hsleep, hg⟩ | ⟨th, hth, hr, w, hw, hl⟩
    · apply Or.inl
      rw [Stores.floor, m.other q hq]
      exact hf
    · rw [← m.other q hq] at hsleep
      exact .inr (.inl ⟨hsleep, le_trans hg m.group⟩)
    · rcases m.kept th hth with hth' | hold
      · exact .inr (.inr ⟨th, hth', hr, w, hw, le_trans hl (w.level_mono m.group)⟩)
      · exact absurd (hr.symm.trans (m.mem th hold).2) hq

theorem Move.keeps (m : Move s s' r old new) : Keeps s s' where
  backed := fun _ _ h => m.backed h
  log := by
    intro q j t hlog
    by_cases hq : q = r
    · subst hq
      rcases m.log j t hlog with hold | ⟨th, hth, hp⟩
      · exact .inl hold
      · exact .inr ⟨th, (m.mem th hth).1, (m.mem th hth).2, hp⟩
    · rw [m.other q hq] at hlog
      exact .inl hlog
  pending := by
    intro th hth t hp
    rcases m.came th hth with hold | hnew
    · exact .inl ⟨th, hold, rfl, hp⟩
    rw [(m.there th hnew).2]
    rcases m.pending th hnew t hp with ⟨o, ho, hpo⟩ | hawake
    · exact .inl ⟨o, (m.mem o ho).1, (m.mem o ho).2, hpo⟩
    · exact .inr hawake

theorem LeaderOk.awake (h : LeaderOk s.ranges s.threads) (hth : th ∈ s.threads)
    (hp : th.pending = some t) :
    s.Awake th.range := by
  apply h.still th hth
  rw [hp]
  rfl

theorem Order.awake (o : Order s s' r old new) (m : Move s s' r old new) (ha : s.Awake r)
    (hq : (s'.ranges r).quiescent = false) : s'.Awake r := by
  refine ⟨hq, fun th hth hr => ?_⟩
  rcases m.came th hth with hold | hnew
  · exact ha.2 th hold hr
  by_contra hw
  rcases o.waking th hnew hw with ⟨x, hx, hwx⟩ | hsleep
  · exact hwx (ha.2 x (m.mem x hx).1 (m.mem x hx).2)
  · simp [ha.1] at hsleep

theorem Move.awake_of_pending (m : Move s s' r old new) (h : LeaderOk s.ranges s.threads)
    (hth : th ∈ s'.threads) (hp : th.pending = some t) : s.Awake th.range := by
  rcases m.keeps.pending th hth t hp with ⟨x, hx, hr, hpx⟩ | ⟨ha, _⟩
  · rw [← hr]
    exact h.awake hx hpx
  · exact ha

section
variable (o : Order s s' r old new) (m : Move s s' r old new) (h : LeaderOk s.ranges s.threads)
include o m h

theorem Order.still (hth : th ∈ s'.threads) (hp : th.pending.isSome) : s'.Awake th.range := by
  obtain ⟨t, ht⟩ := Option.isSome_iff_exists.mp hp
  have ha := m.awake_of_pending h hth ht
  by_cases hr : th.range = r
  · rw [hr] at ha ⊢
    apply o.awake m ha
    cases hq : (s'.ranges r).quiescent with
    | false => rfl
    | true =>
      rcases o.quiet hq with hsleep | hnone
      · simp [ha.1] at hsleep
      · simp [hnone th hth hr] at ht
  · refine ⟨?_, fun x hx hxr => ?_⟩
    · rw [m.other _ hr]
      exact ha.1
    · rcases m.came x hx with hold | hnew
      · exact ha.2 x hold hxr
      · exact absurd (hxr.symm.trans (m.there x hnew).2) hr

theorem Order.leader : LeaderOk s'.ranges s'.threads where
  bounds := by
    intro q
    by_cases hq : q = r
    · subst hq
      exact o.bounds
    · rw [m.other q hq]
      exact h.bounds q
  asleep := by
    intro q
    by_cases hq : q = r
    · subst hq
      exact o.asleep
    · rw [m.other q hq]
      exact h.asleep q
  still := fun th hth hp => o.still m h hth hp
  unstable := by
    intro q j t hj hlog
    have hfind : (s.ranges q).lastIndex ≤ j → (s.ranges q).log[j]? = some (.write t) →
        (∀ x ∈ old, x.phase ≠ .appended (.write t) j) →
        ∃ th ∈ s'.threads, th.range = q ∧ th.phase = .appended (.write t) j := by
      intro hj hlog hnot
      obtain ⟨th, hth, hr, hphase⟩ := h.unstable q j t hj hlog
      rcases m.kept th hth with hth' | hold
      · exact ⟨th, hth', hr, hphase⟩
      · exact absurd hphase (hnot th hold)
    by_cases hq : q = r
    · subst hq
      rcases o.unstable j t hj hlog with ⟨hj', hlog', hnot⟩ | ⟨th, hth, hphase⟩
      · exact hfind hj' hlog' hnot
      · exact ⟨th, (m.there th hth).1, (m.there th hth).2, hphase⟩
    · rw [m.other q hq] at hj hlog
      obtain ⟨th, hth, hr, hphase⟩ := h.unstable q j t hj hlog
      rcases m.kept th hth with hth' | hold
      · exact ⟨th, hth', hr, hphase⟩
      · exact absurd (hr.symm.trans (m.mem th hold).2) hq
  latches := by
    intro th hth hshared x hx hr
    cases hex : x.exclusive with
    | false => rfl
    | true =>
      exfalso
      -- each of the two held its latch before the step, or took it now against all others
      have hbefore : (∃ y ∈ s.threads, y.range = th.range ∧ y.shared = true) := by
        rcases m.came th hth with hold | hnew
        · exact ⟨th, hold, rfl, hshared⟩
        rcases o.shared th hnew hshared with ⟨y, hy, hys⟩ | hnone
        · refine ⟨y, (m.mem y hy).1, ?_, hys⟩
          rw [(m.mem y hy).2, (m.there th hnew).2]
        · simp [hnone x hx (hr.trans (m.there th hnew).2)] at hex
      obtain ⟨y, hy, hyr, hys⟩ := hbefore
      rcases m.came x hx with hold | hnew
      · simp [h.latches y hy hys x hold (hr.trans hyr.symm)] at hex
      rcases o.exclusive x hnew hex with ⟨z, hz, hze⟩ | hnone
      · have hzr : z.range = y.range := by
          rw [(m.mem z hz).2, hyr, ← hr, (m.there x hnew).2]
        simp [h.latches y hy hys z (m.mem z hz).1 hzr] at hze
      · simp [hnone th hth (hr.symm.trans (m.there x hnew).2)] at hshared

end

theorem ThreadOk.keep (h : ThreadOk s th) (e : Keeps s s') (f : Follows s s' th.range)
    (hl : LeaderOk s.ranges s.threads)
    (hlast : (s.ranges th.range).lastIndex ≤ (s'.ranges th.range).lastIndex) :
    ThreadOk s' th := by
  unfold ThreadOk at h ⊢
  split at h
  all_goals first
    | exact (h.keep e).mono hlast le_rfl
    | exact h.keep e
    | exact ⟨h.1.keep e, fun hk => (h.2 hk).keep e f (hl.asleep _)⟩
    | trivial

theorem StreamOk.keep {known : Known} {stream : List Update} (h : StreamOk s known stream)
    (e : Keeps s s') (f : ∀ q, Follows s s' q) (hl : LeaderOk s.ranges s.threads) :
    StreamOk s' known stream where
  claims := Runs.along_imp (fun _ _ hc => hc.keep e) h.claims
  left := fun q index hq => (h.left q index hq).keep e (f q) (hl.asleep q)

theorem Inv.move (h : Inv s) (m : Move s s' r old new) (o : Order s s' r old new)
    (hround : RoundOk s'.threads s'.round s'.groupTS)
    (hlogged : ∀ p T, (s'.ranges r).log[p]? = some (.closed T) →
      (s.ranges r).log[p]? = some (.closed T) ∨ s'.Covers r p T)
    (hthreads : ∀ th ∈ s'.threads, ThreadOk s' th) (hrep : s'.replicas = s.replicas)
    (hstream : StreamOk s' s'.known s'.stream) : Inv s' where
  leader := o.leader m h.leader
  round := hround
  logged := by
    intro q p T hlog
    by_cases hq : q = r
    · subst hq
      rcases hlogged p T hlog with hold | hcovers
      · exact (h.logged q p T hold).keep m.keeps
      · exact hcovers
    · rw [m.other q hq] at hlog
      exact (h.logged q p T hlog).keep m.keeps
  threads := hthreads
  closed := by
    intro q
    rw [hrep]
    exact (h.closed q).keep m.keeps
  side := by
    intro q
    rw [hrep]
    exact (h.side q).keep m.keeps
  stream := hstream

theorem Move.threads (m : Move s s' r old new) (h : Inv s) (f : ∀ q, Follows s s' q)
    (hnew : ∀ th ∈ new, ThreadOk s' th) : ∀ th ∈ s'.threads, ThreadOk s' th := by
  intro th hth
  rcases m.came th hth with hold | hin
  · apply (h.threads th hold).keep m.keeps (f _) h.leader
    by_cases hr : th.range = r
    · rw [hr]
      exact m.last
    · rw [m.other _ hr]
  · exact hnew th hin

theorem Move.follows (m : Move s s' r old new) (hgroup : s'.groupTS = s.groupTS)
    (hwoken : ∀ q ∈ s.woken, q ∈ s'.woken)
    (hround : ∀ R, s.round = some R → ∃ R', s'.round = some R' ∧ R'.wakes = R.wakes)
    (hreg : (s.ranges r).sideRegistered = true →
      (s'.ranges r).sideRegistered = true ∨ ∃ th ∈ new, th.noting)
    (hnoting : ∀ th ∈ old, th.noting → (∃ th' ∈ new, th'.noting) ∨ r ∈ s'.woken) (q : RangeID) :
    Follows s s' q where
  registered := by
    intro hq
    by_cases hqr : q = r
    · subst hqr
      rcases hreg hq with hreg' | ⟨th, hth, hn⟩
      · exact .inl hreg'
      · exact .inr ⟨th, (m.there th hth).1, (m.there th hth).2, hn⟩
    · rw [m.other q hqr]
      exact .inl hq
  noting := by
    intro th hth hr hn
    rcases m.kept th hth with hth' | hold
    · exact .inl ⟨th, hth', hr, hn⟩
    have hqr : q = r := hr.symm.trans (m.mem th hold).2
    subst hqr
    rcases hnoting th hold hn with ⟨th', hth', hn'⟩ | hw
    · exact .inl ⟨th', (m.there th' hth').1, (m.there th' hth').2, hn'⟩
    · exact .inr ⟨hw, hgroup⟩
  woken := fun hq => .inl ⟨hwoken q hq, hgroup⟩
  round := by
    intro R hR hq
    obtain ⟨R', hR', hwakes⟩ := hround R hR
    exact ⟨R', hR', hwakes ▸ hq⟩

end Move

end Datax.ClosedTs
