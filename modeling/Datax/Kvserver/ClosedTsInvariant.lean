import Datax.Kvserver.ClosedTs

/-!
# What stands behind a promise

A promise `T` at a log position is covered when no write at or below `T` lies behind the position or
is on its way, and none will be admitted: the cache floor is at `T`, or the range sleeps and the
group promise is at `T`, or a wake under way will bump the cache. No step takes a cover away. An
entry the follower's registry may hold when the group promise comes is tracked at the leader: the
range is registered there, or its wake is not sent yet.
-/

namespace Datax.ClosedTs

open List Stores Runs

def Thread.pending (th : Thread) : Option Timestamp :=
  match th.phase with
  | .admitted ts | .proposed (.write ts) | .roused (.write ts) => some ts
  | _ => none

def WakeStage.level (groupTS : Timestamp) : WakeStage → Timestamp
  | .note _ | .load => groupTS
  | .bump ts => ts

def Thread.noting (th : Thread) : Prop := th.wake = some (.note true)

def Thread.registers (th : Thread) : Bool :=
  match th.phase with
  | .draining k _ | .locked k _ | .bumped k _ | .drained k _ | .indexed k _ _ | .flagged k _ _ =>
    k == .group
  | _ => false

namespace Stores

def floor (s : Stores) (r : RangeID) : Timestamp := (s.ranges r).cache.floor

def Awake (s : Stores) (r : RangeID) : Prop :=
  (s.ranges r).quiescent = false ∧ ∀ th ∈ s.threads, th.range = r → th.wake = none

/-- No write at or below `T` will be admitted. -/
def Backed (s : Stores) (r : RangeID) (T : Timestamp) : Prop :=
  T ≤ s.floor r ∨ ((s.ranges r).quiescent = true ∧ T ≤ s.groupTS) ∨
    ∃ th ∈ s.threads, th.range = r ∧ ∃ w, th.wake = some w ∧ T ≤ w.level s.groupTS

/-- A promise of `T` made at a log index. -/
structure Covers (s : Stores) (r : RangeID) (index : Nat) (T : Timestamp) : Prop where
  backed : s.Backed r T
  log : ∀ j t, index ≤ j → (s.ranges r).log[j]? = some (.write t) → T < t
  pending : ∀ th ∈ s.threads, th.range = r → ∀ t, th.pending = some t → T < t

/-- No write behind the index, and none on its way. -/
structure Silent (s : Stores) (r : RangeID) (index : Nat) : Prop where
  log : ∀ j t, index ≤ j → (s.ranges r).log[j]? ≠ some (.write t)
  pending : ∀ th ∈ s.threads, th.range = r → th.pending = none

/-- Why a registration that the follower may hold is no danger: the range is still
registered here, or its wake is about to be noted, or has been noted since the last
round, or is about to be queued. -/
def Tracked (s : Stores) (r : RangeID) (index : Nat) : Prop :=
  ((s.ranges r).sideRegistered = true ∧ s.Silent r index) ∨
    ((∃ th ∈ s.threads, th.range = r ∧ th.noting) ∧ s.Silent r index) ∨
    (r ∈ s.woken ∧ s.Covers r index s.groupTS) ∨
    ∃ R, s.round = some R ∧ r ∈ R.wakes

end Stores

abbrev Known := RangeID → Nat → Prop

def learn (known : Known) : Update → Known
  | .wake r => fun q index => q ≠ r ∧ known q index
  | .promise r index _ asleep => fun q i => known q i ∨ (asleep = true ∧ q = r ∧ i = index)
  | _ => known

/-- What an update claims, given what the follower may hold when it comes. -/
def Claims (s : Stores) (known : Known) : Update → Prop
  | .wake _ => True
  | .promise r index ts _ => s.Covers r index ts
  | .group ts => ∀ r index, known r index → s.Covers r index ts
  | .member r ts => ∀ index, known r index → s.Covers r index ts

def Stores.stream (s : Stores) : List Update := s.handling.flatten ++ s.net.flatten ++ s.queue

def Stores.known (s : Stores) : Known := fun r index => s.reg.lookup r = some (index, true)

theorem learn_monotone (u : Update) : Monotone fun known => learn known u := by
  intro k k' hk
  cases u with
  | wake r => exact fun q index hq => ⟨hq.1, hk q index hq.2⟩
  | promise r index ts asleep => exact fun q i hq => hq.imp (hk q i) id
  | group ts | member r ts => exact hk

variable {s : Stores}

theorem Claims.anti (k k' : Known) (u : Update) (hk : k ≤ k') (h : Claims s k' u) :
    Claims s k u := by
  cases u with
  | wake r | promise r index ts asleep => exact h
  | group ts => exact fun r index hr => h r index (hk r index hr)
  | member r ts => exact fun index hr => h index (hk r index hr)

/-- The claims of the updates on their way, and the registrations they leave. -/
structure StreamOk (s : Stores) (known : Known) (stream : List Update) : Prop where
  claims : Runs.Along learn (Claims s) known stream
  left : ∀ r index, stream.foldl learn known r index → s.Tracked r index

variable {stream : List Update}

theorem StreamOk.anti {k k' : Known} (hk : k ≤ k') (h : StreamOk s k' stream) :
    StreamOk s k stream where
  claims := along_anti learn_monotone Claims.anti hk h.claims
  left := fun r index hr => h.left r index (foldl_mono learn_monotone hk stream r index hr)

variable {known : Known}

theorem StreamOk.concat {u : Update} (h : StreamOk s known stream)
    (hclaim : Claims s (stream.foldl learn known) u)
    (hleft : ∀ r index, learn (stream.foldl learn known) u r index → s.Tracked r index) :
    StreamOk s known (stream ++ [u]) where
  claims := along_append.mpr ⟨h.claims, along_cons.mpr ⟨hclaim, along_nil _ _⟩⟩
  left := by
    rw [foldl_append]
    exact hleft

variable {us : List Update}

theorem learn_le_of_not_wake (h : ∀ u ∈ us, u.isWake = false) : known ≤ us.foldl learn known := by
  induction us generalizing known with
  | nil => exact le_refl known
  | cons u us ih =>
    apply le_trans _ (ih fun v hv => h v (mem_cons_of_mem _ hv))
    have hu := h u mem_cons_self
    cases u with
    | wake r => cases hu
    | promise r index ts asleep => exact fun q i hq => .inl hq
    | group ts | member r ts => exact le_refl known

theorem StreamOk.lose {as bs : List Update} (h : StreamOk s known (as ++ (us ++ bs)))
    (hus : ∀ u ∈ us, u.isWake = false) : StreamOk s known (as ++ bs) := by
  obtain ⟨hclaims, hleft⟩ := h
  rw [along_append] at hclaims
  rw [foldl_append] at hleft
  have hrest : StreamOk s (as.foldl learn known) bs := by
    apply StreamOk.anti (learn_le_of_not_wake hus)
    refine ⟨(along_append.mp hclaims.2).2, ?_⟩
    rw [foldl_append] at hleft
    exact hleft
  refine ⟨along_append.mpr ⟨hclaims.1, hrest.claims⟩, ?_⟩
  rw [foldl_append]
  exact hrest.left

variable {T' : Timestamp}

section Keeps

/-- The later state keeps every cover: what backs a promise still does, and a write
in the log or on its way was on its way before or is admitted to an awake range. -/
structure Keeps (s s' : Stores) : Prop where
  backed : ∀ r T, s.Backed r T → s'.Backed r T
  log : ∀ (r : RangeID) (j : Nat) (t : Timestamp), (s'.ranges r).log[j]? = some (.write t) →
    (s.ranges r).log[j]? = some (.write t) ∨ ∃ th ∈ s.threads, th.range = r ∧ th.pending = some t
  pending : ∀ th' ∈ s'.threads, ∀ t, th'.pending = some t →
    (∃ th ∈ s.threads, th.range = th'.range ∧ th.pending = some t) ∨
      (s.Awake th'.range ∧ s.floor th'.range < t)

variable {s s' : Stores} {r : RangeID} {index : Nat} {T : Timestamp}

theorem le_floor_of_backed (h : s.Backed r T) (ha : s.Awake r) : T ≤ s.floor r := by
  rcases h with h | ⟨hq, _⟩ | ⟨th, hth, hr, w, hw, _⟩
  · exact h
  · simp [ha.1] at hq
  · simp [ha.2 th hth hr] at hw

theorem Stores.Covers.keep (h : s.Covers r index T) (e : Keeps s s') : s'.Covers r index T where
  backed := e.backed r T h.backed
  log := by
    intro j t hj hlog
    rcases e.log r j t hlog with hold | ⟨th, hth, hr, hp⟩
    · exact h.log j t hj hold
    · exact h.pending th hth hr t hp
  pending := by
    intro th' hth' hr t hp
    subst hr
    rcases e.pending th' hth' t hp with ⟨th, hth, hr, hp⟩ | ⟨hawake, hlt⟩
    · exact h.pending th hth hr t hp
    · exact lt_of_le_of_lt (le_floor_of_backed h.backed hawake) hlt

theorem Stores.Covers.mono {index' : Nat} (h : s.Covers r index T) (hi : index ≤ index')
    (hT : T' ≤ T) :
    s.Covers r index' T' where
  backed := by
    rcases h.backed with hf | ⟨hq, hg⟩ | ⟨th, hth, hr, w, hw, hl⟩
    · exact .inl (le_trans hT hf)
    · exact .inr (.inl ⟨hq, le_trans hT hg⟩)
    · exact .inr (.inr ⟨th, hth, hr, w, hw, le_trans hT hl⟩)
  log := fun j t hj hlog => lt_of_le_of_lt hT (h.log j t (le_trans hi hj) hlog)
  pending := fun th hth hr t hp => lt_of_le_of_lt hT (h.pending th hth hr t hp)

theorem Stores.Covers.max (h : s.Covers r index T) (h' : s.Covers r index T') :
    s.Covers r index (T.forward T') := by
  rw [Timestamp.forward_eq_max]
  rcases le_total T T' with hle | hle
  · rw [max_eq_right hle]
    exact h'
  · rw [max_eq_left hle]
    exact h

theorem Stores.Silent.covers (h : s.Silent r index) (hb : s.Backed r T) : s.Covers r index T where
  backed := hb
  log := fun j t hj hlog => absurd hlog (h.log j t hj)
  pending := by
    intro th hth hr t hp
    simp [h.pending th hth hr] at hp

theorem Stores.Silent.keep (h : s.Silent r index) (e : Keeps s s') (hawake : ¬ s.Awake r) :
    s'.Silent r index where
  log := by
    intro j t hj hlog
    rcases e.log r j t hlog with hold | ⟨th, hth, hr, hp⟩
    · exact h.log j t hj hold
    · simp [h.pending th hth hr] at hp
  pending := by
    intro th' hth' hr
    subst hr
    cases hp : th'.pending with
    | none => rfl
    | some t =>
      rcases e.pending th' hth' t hp with ⟨th, hth, hr, hp⟩ | ⟨ha, _⟩
      · simp [h.pending th hth hr] at hp
      · exact absurd ha hawake

/-- The later state keeps track of a range. -/
structure Follows (s s' : Stores) (r : RangeID) : Prop where
  registered : (s.ranges r).sideRegistered = true →
    (s'.ranges r).sideRegistered = true ∨ ∃ th ∈ s'.threads, th.range = r ∧ th.noting
  noting : ∀ th ∈ s.threads, th.range = r → th.noting →
    (∃ th' ∈ s'.threads, th'.range = r ∧ th'.noting) ∨ (r ∈ s'.woken ∧ s'.groupTS = s.groupTS)
  woken : r ∈ s.woken →
    (r ∈ s'.woken ∧ s'.groupTS = s.groupTS) ∨ ∃ R, s'.round = some R ∧ r ∈ R.wakes
  round : ∀ R, s.round = some R → r ∈ R.wakes → ∃ R', s'.round = some R' ∧ r ∈ R'.wakes

section
variable {th : Thread} (hth : th ∈ s.threads) (hr : th.range = r) (hn : th.noting)
include hth hr hn

theorem not_awake_of_noting : ¬ s.Awake r := by
  intro ha
  have hw := ha.2 th hth hr
  rw [hn] at hw
  cases hw

theorem backed_of_noting : s.Backed r s.groupTS :=
  .inr (.inr ⟨th, hth, hr, _, hn, le_refl _⟩)

end

theorem Stores.Tracked.keep (h : s.Tracked r index) (e : Keeps s s') (f : Follows s s' r)
    (hasleep : (s.ranges r).sideRegistered = true → (s.ranges r).quiescent = true) :
    s'.Tracked r index := by
  rcases h with ⟨hreg, hsilent⟩ | ⟨⟨th, hth, hr, hn⟩, hsilent⟩ | ⟨hwoken, hcovers⟩
    | ⟨R, hround, hmem⟩
  · have hawake : ¬ s.Awake r := by
      intro ha
      have hq := ha.1
      simp [hasleep hreg] at hq
    have hsilent' := hsilent.keep e hawake
    rcases f.registered hreg with hreg' | hnoting
    · exact .inl ⟨hreg', hsilent'⟩
    · exact .inr (.inl ⟨hnoting, hsilent'⟩)
  · have hsilent' := hsilent.keep e (not_awake_of_noting hth hr hn)
    rcases f.noting th hth hr hn with hnoting | ⟨hwoken, hgroup⟩
    · exact .inr (.inl ⟨hnoting, hsilent'⟩)
    refine .inr (.inr (.inl ⟨hwoken, hsilent'.covers ?_⟩))
    rw [hgroup]
    exact e.backed r _ (backed_of_noting hth hr hn)
  · rcases f.woken hwoken with ⟨hwoken', hgroup⟩ | hround
    · refine .inr (.inr (.inl ⟨hwoken', ?_⟩))
      rw [hgroup]
      exact hcovers.keep e
    · exact .inr (.inr (.inr hround))
  · exact .inr (.inr (.inr (f.round R hround hmem)))

theorem Claims.keep {u : Update} (h : Claims s known u) (e : Keeps s s') : Claims s' known u := by
  cases u with
  | wake r => exact h
  | promise r index ts asleep => exact Covers.keep h e
  | group ts => exact fun r index hr => (h r index hr).keep e
  | member r ts => exact fun index hr => (h index hr).keep e

end Keeps

def ThreadOk (s : Stores) (th : Thread) : Prop :=
  match th.phase with
  | .bumped _ T | .drained _ T | .proposed (.closed T) | .roused (.closed T) =>
    s.Covers th.range (s.ranges th.range).lastIndex T
  | .indexed _ T index => s.Covers th.range index T
  | .flagged k T index => s.Covers th.range index T ∧ (k = .group → s.Tracked th.range index)
  | _ => True

/-- The leader's own discipline: logs and latches, and no write under way to a range
that sleeps or is waking. -/
structure LeaderOk (ranges : RangeID → LeaderRange) (threads : List Thread) : Prop where
  bounds : ∀ r, (ranges r).applied ≤ (ranges r).lastIndex ∧
    (ranges r).lastIndex ≤ (ranges r).log.length
  asleep : ∀ r, (ranges r).sideRegistered = true → (ranges r).quiescent = true
  still : ∀ th ∈ threads, th.pending.isSome →
    (ranges th.range).quiescent = false ∧ ∀ o ∈ threads, o.range = th.range → o.wake = none
  unstable : ∀ r j t, (ranges r).lastIndex ≤ j → (ranges r).log[j]? = some (.write t) →
    ∃ th ∈ threads, th.range = r ∧ th.phase = .appended (.write t) j
  latches : ∀ th ∈ threads, th.shared = true → ∀ o ∈ threads, o.range = th.range →
    o.exclusive = false

/-- At most one registration is under way, and the round waits for it. -/
structure RoundOk (threads : List Thread) (round : Option Round) (groupTS : Timestamp) : Prop where
  unique : ∀ (i j : Nat) (x y : Thread), threads[i]? = some x → threads[j]? = some y →
    x.registers = true →
    y.registers = true → i = j
  active : ∀ th ∈ threads, th.registers = true → ∃ R, round = some R ∧ R.registering = true
  target : ∀ R, round = some R → R.target ≤ groupTS ∧ (R.registering = true → R.wakes = [])

structure Inv (s : Stores) : Prop where
  leader : LeaderOk s.ranges s.threads
  round : RoundOk s.threads s.round s.groupTS
  logged : ∀ r p T, (s.ranges r).log[p]? = some (.closed T) → s.Covers r p T
  threads : ∀ th ∈ s.threads, ThreadOk s th
  closed : ∀ r, s.Covers r (s.replicas r).applied (s.replicas r).closedTS
  side : ∀ r, s.Covers r (s.replicas r).applied (s.replicas r).sideClosedTS
  stream : StreamOk s s.known s.stream

end Datax.ClosedTs
