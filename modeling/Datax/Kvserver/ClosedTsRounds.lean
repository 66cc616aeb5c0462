import Datax.Kvserver.ClosedTsPublish

/-!
# Rounds and ranges

The steps that no thread makes: a range's own, requests that arrive, and the round of
publication. The round takes the wakes noted so far together with the promise it
advances, and queues them ahead of it.
-/

namespace Datax.ClosedTs

open Function List Stores

variable {s : Stores} {r : RangeID}

section Ranges
variable {R' : LeaderRange}

section
variable (h : Inv s)
include h

theorem Inv.setRange (hfloor : s.floor r ≤ R'.cache.floor)
    (hlast : (s.ranges r).lastIndex ≤ R'.lastIndex)
    (hbounds : R'.applied ≤ R'.lastIndex ∧ R'.lastIndex ≤ R'.log.length)
    (hreg : R'.sideRegistered = (s.ranges r).sideRegistered)
    (hsleep : (s.ranges r).quiescent = true → R'.quiescent = true)
    (hquiet : R'.quiescent = true → (s.ranges r).quiescent = true ∨
      ∀ th ∈ s.threads, th.range = r → th.pending = none)
    (hlog : ∀ (j : Nat) (c : Command), R'.log[j]? = some c →
      (s.ranges r).log[j]? = some c ∨ c = .noop) :
    Inv (s.setRange r R') := by
  have hR : (s.setRange r R').ranges r = R' := update_self ..
  have hwrite : ∀ (j : Nat) (t : Timestamp), R'.log[j]? = some (.write t) →
      (s.ranges r).log[j]? = some (.write t) := by
    intro j t hj
    rcases hlog j _ hj with hold | hc
    · exact hold
    · cases hc
  have m : Move s (s.setRange r R') r [] [] := by
    constructor
    case group => exact le_refl _
    case other => exact fun q hq => update_of_ne hq _ _
    case mem | there | wake | pending =>
      simp
    case kept | came => exact fun th hth => .inl hth
    case floor =>
      rw [Stores.floor, Stores.floor, hR]
      exact hfloor
    case last =>
      rw [hR]
      exact hlast
    case sleep =>
      rw [hR]
      exact fun hq => .inl (hsleep hq)
    case log =>
      rw [hR]
      exact fun j t hj => .inl (hwrite j t hj)
  have o : Order s (s.setRange r R') r [] [] := by
    constructor
    case bounds =>
      rw [hR]
      exact hbounds
    case asleep =>
      rw [hR, hreg]
      exact fun hq => hsleep (h.leader.asleep r hq)
    case quiet =>
      rw [hR]
      exact hquiet
    case waking | shared | exclusive =>
      simp
    case unstable =>
      rw [hR]
      intro j t hj hlog'
      refine .inl ⟨le_trans hlast hj, hwrite j t hlog', ?_⟩
      simp
  have f : ∀ q, Follows s (s.setRange r R') q := by
    apply m.follows rfl (fun _ hq => hq) (fun R hR => ⟨R, hR, rfl⟩)
    · rw [hR, hreg]
      exact .inl
    · simp
  apply h.move m o h.round
  · rw [hR]
    intro p T hp
    rcases hlog p _ hp with hold | hc
    · exact .inl hold
    · cases hc
  · apply m.threads h f
    simp
  · rfl
  · exact stream_of_eq h rfl rfl m.keeps f

theorem Inv.read (spans : List LatchSpan) (ts : Timestamp) (txnID : UUID) :
    Inv (s.setRange r { s.ranges r with cache := (s.ranges r).cache.bump spans ts txnID }) := by
  apply h.setRange
  case hfloor => exact TsCache.floor_le_bump
  case hlast => exact le_refl _
  case hbounds => exact h.leader.bounds r
  case hreg => rfl
  case hsleep => exact id
  case hquiet => exact .inl
  case hlog => exact fun _ _ => .inl

theorem Inv.noop : Inv (s.setRange r { s.ranges r with log := (s.ranges r).log ++ [.noop] }) := by
  obtain ⟨happlied, hlast⟩ := h.leader.bounds r
  apply h.setRange
  case hfloor | hlast => exact le_refl _
  case hbounds =>
    refine ⟨happlied, ?_⟩
    change (s.ranges r).lastIndex ≤ ((s.ranges r).log ++ [Command.noop]).length
    rw [length_append]
    omega
  case hreg => rfl
  case hsleep => exact id
  case hquiet => exact .inl
  case hlog =>
    intro j c hj
    exact (getElem?_concat_cases hj).imp id fun hc => hc.2.symm

theorem Inv.persist (hlt : (s.ranges r).lastIndex < (s.ranges r).log.length) :
    Inv (s.setRange r { s.ranges r with lastIndex := (s.ranges r).lastIndex + 1 }) := by
  obtain ⟨happlied, _⟩ := h.leader.bounds r
  apply h.setRange
  case hfloor => exact le_refl _
  case hlast => exact Nat.le_succ _
  case hbounds => exact ⟨Nat.le_succ_of_le happlied, hlt⟩
  case hreg => rfl
  case hsleep => exact id
  case hquiet => exact .inl
  case hlog => exact fun _ _ => .inl

theorem Inv.applyLeader (hlt : (s.ranges r).applied < (s.ranges r).lastIndex) (c : Command) :
    Inv (s.setRange r ((s.ranges r).apply c)) := by
  have hsame : ∃ ts, (s.ranges r).apply c =
      { s.ranges r with applied := (s.ranges r).applied + 1, closedTS := ts } := by
    cases c with
    | noop | write t | closed T => exact ⟨_, rfl⟩
  obtain ⟨ts, hsame⟩ := hsame
  rw [hsame]
  apply h.setRange
  case hfloor | hlast => exact le_refl _
  case hbounds => exact ⟨hlt, (h.leader.bounds r).2⟩
  case hreg => rfl
  case hsleep => exact id
  case hquiet => exact .inl
  case hlog => exact fun _ _ => .inl

theorem Inv.quiesce (hnone : ∀ th ∈ s.threads, th.range = r → th.pending = none) :
    Inv (s.setRange r { s.ranges r with quiescent := true }) := by
  apply h.setRange
  case hfloor | hlast => exact le_refl _
  case hbounds => exact h.leader.bounds r
  case hreg => rfl
  case hsleep => exact fun _ => rfl
  case hquiet => exact fun _ => .inr hnone
  case hlog => exact fun _ _ => .inl

end

theorem pending_eq_none_of_idle (hprop : s.proposing r = false) {th : Thread} (hth : th ∈ s.threads)
    (hr : th.range = r) (hadm : th.phase.isAdmitted = false) : th.pending = none := by
  have hnot := any_eq_false.mp hprop th hth
  rw [hr, beq_self_eq_true, Bool.true_and, Bool.not_eq_true] at hnot
  unfold Thread.pending
  unfold Thread.proposing at hnot
  split
  · rename_i hp
    rw [hp] at hadm
    cases hadm
  · rename_i hp
    rw [hp] at hnot
    cases hnot
  · rename_i hp
    rw [hp] at hnot
    cases hnot
  · rfl

end Ranges

section Spawn
variable {s' : Stores} {th : Thread} {R' : LeaderRange}

def Thread.Fresh (th : Thread) : Prop :=
  th.pending = none ∧ th.shared = false ∧ th.exclusive = false ∧ ∀ s, ThreadOk s th

theorem Inv.spawn (h : Inv s) (hfresh : th.Fresh) (hR' : R' = s.ranges th.range ∧ th.wake = none ∨
      R' = (s.ranges th.range).unquiesce ∧ th.wake = (s.ranges th.range).wakeStage)
    (hranges : s'.ranges = Function.update s.ranges th.range R')
    (hthreads : s'.threads = s.threads ++ [th]) (hgroup : s'.groupTS = s.groupTS)
    (hwoken : s'.woken = s.woken)
    (hround : ∀ R, s.round = some R → ∃ R', s'.round = some R' ∧ R'.wakes = R.wakes)
    (hroundOk : RoundOk (s.threads ++ [th]) s'.round s.groupTS) (hrep : s'.replicas = s.replicas)
    (hreg : s'.reg = s.reg) (hstream : s'.stream = s.stream) : Inv s' := by
  obtain ⟨hpending, hshared, hexclusive, hok⟩ := hfresh
  have hR : s'.ranges th.range = R' := by rw [hranges, update_self]
  have hsame : R'.cache = (s.ranges th.range).cache ∧ R'.log = (s.ranges th.range).log ∧
      R'.lastIndex = (s.ranges th.range).lastIndex ∧ R'.applied = (s.ranges th.range).applied := by
    rcases hR' with ⟨rfl, _⟩ | ⟨rfl, _⟩
    · exact ⟨rfl, rfl, rfl, rfl⟩
    · exact ⟨rfl, rfl, rfl, rfl⟩
  obtain ⟨hcache, hlog, hlast, happlied⟩ := hsame
  have hself : th ∈ s'.threads := by
    rw [hthreads]
    exact mem_append_right _ (mem_singleton_self _)
  have m : Move s s' th.range [] [th] := by
    constructor
    case group => exact hgroup.ge
    case other =>
      intro q hq
      rw [hranges, update_of_ne hq]
    case mem | wake =>
      simp
    case there => exact forall_mem_singleton.mpr ⟨hself, rfl⟩
    case kept =>
      intro x hx
      rw [hthreads]
      exact .inl (mem_append_left _ hx)
    case came =>
      intro x hx
      rw [hthreads] at hx
      exact mem_append.mp hx
    case floor =>
      rw [Stores.floor, Stores.floor, hR, hcache]
    case last => rw [hR, hlast]
    case sleep =>
      rw [hR, hgroup]
      intro hq
      rcases hR' with ⟨rfl, _⟩ | ⟨_, hw⟩
      · exact .inl hq
      · refine .inr ⟨th, mem_singleton_self _, .note (s.ranges th.range).sideRegistered,
          ?_, le_refl _⟩
        rw [hw, LeaderRange.wakeStage, if_pos hq]
    case log =>
      rw [hR, hlog]
      exact fun j t hj => .inl hj
    case pending => simp [hpending]
  have o : Order s s' th.range [] [th] := by
    constructor
    case bounds =>
      rw [hR, hlog, hlast, happlied]
      exact h.leader.bounds _
    case asleep =>
      rw [hR]
      rcases hR' with ⟨rfl, _⟩ | ⟨rfl, _⟩
      · exact h.leader.asleep _
      · intro hc
        cases hc
    case quiet =>
      rw [hR]
      rcases hR' with ⟨rfl, _⟩ | ⟨rfl, _⟩
      · exact .inl
      · intro hc
        cases hc
    case waking =>
      refine forall_mem_singleton.mpr fun hw => .inr ?_
      rcases hR' with ⟨_, hnone⟩ | ⟨_, hstage⟩
      · exact absurd hnone hw
      by_contra hq
      apply hw
      rw [hstage, LeaderRange.wakeStage, if_neg hq]
    case unstable =>
      rw [hR, hlog, hlast]
      intro j t hj hlog'
      exact .inl ⟨hj, hlog', forall_mem_nil _⟩
    case shared => simp [hshared]
    case exclusive => simp [hexclusive]
  have f : ∀ q, Follows s s' q := by
    apply m.follows hgroup (fun q hq => hwoken ▸ hq) hround
    · rw [hR]
      intro hq
      rcases hR' with ⟨rfl, _⟩ | ⟨_, hw⟩
      · exact .inl hq
      · refine .inr ⟨th, mem_singleton_self _, ?_⟩
        rw [Thread.noting, hw, LeaderRange.wakeStage, if_pos (h.leader.asleep _ hq), hq]
    · simp
  apply h.move m o
  · rw [hthreads, hgroup]
    exact hroundOk
  · rw [hR, hlog]
    exact fun p T hp => .inl hp
  · exact m.threads h f (forall_mem_singleton.mpr (hok s'))
  · exact hrep
  · exact stream_of_eq h hreg hstream m.keeps f

theorem Inv.call (h : Inv s) (spans : List LatchSpan) {p : Phase}
    (hfresh : ∀ wake, Thread.Fresh { range := r, spans := spans, wake := wake, phase := p })
    (hreg : ∀ wake,
      Thread.registers { range := r, spans := spans, wake := wake, phase := p } = false) :
    Inv (s.call r spans p) :=
  h.spawn (hfresh _) (.inr ⟨rfl, rfl⟩) rfl rfl rfl rfl (fun R hR => ⟨R, hR, rfl⟩)
    (h.round.append (hreg _)) rfl rfl rfl

end Spawn

section Idle
variable {s' : Stores}

theorem move_idle (hranges : s'.ranges = s.ranges) (hthreads : s'.threads = s.threads)
    (hgroup : s.groupTS ≤ s'.groupTS) : Move s s' 0 [] [] := by
  constructor
  case group => exact hgroup
  case other => exact fun q _ => congrFun hranges q
  case mem | there | wake | pending =>
    simp
  case kept | came =>
    rw [hthreads]
    exact fun th hth => .inl hth
  case floor =>
    rw [Stores.floor, Stores.floor, hranges]
  case last => rw [hranges]
  case sleep =>
    rw [hranges]
    exact .inl
  case log =>
    rw [hranges]
    exact fun _ _ => .inl

theorem order_idle (h : Inv s) (hranges : s'.ranges = s.ranges) : Order s s' 0 [] [] := by
  constructor
  case bounds =>
    rw [hranges]
    exact h.leader.bounds 0
  case asleep =>
    rw [hranges]
    exact h.leader.asleep 0
  case quiet =>
    rw [hranges]
    exact .inl
  case waking | shared | exclusive =>
    simp
  case unstable =>
    rw [hranges]
    exact fun j t hj hlog => .inl ⟨hj, hlog, fun o ho => nomatch ho⟩

theorem Inv.idle (h : Inv s) (hranges : s'.ranges = s.ranges) (hthreads : s'.threads = s.threads)
    (hgroup : s.groupTS ≤ s'.groupTS) (hround : RoundOk s.threads s'.round s'.groupTS)
    (hok : ∀ th ∈ s.threads, ThreadOk s' th) (hrep : s'.replicas = s.replicas)
    (hstream : StreamOk s' s'.known s'.stream) : Inv s' := by
  apply h.move (move_idle hranges hthreads hgroup) (order_idle h hranges)
  · rw [hthreads]
    exact hround
  · rw [hranges]
    exact fun p T hp => .inl hp
  · rw [hthreads]
    exact hok
  · exact hrep
  · exact hstream

end Idle

section Round

theorem ThreadOk.keep_of_not_registers {s' : Stores} {th : Thread} (h : ThreadOk s th)
    (e : Keeps s s') (hranges : s'.ranges = s.ranges) (hreg : th.registers = false) :
    ThreadOk s' th := by
  unfold ThreadOk at h ⊢
  rw [hranges]
  split at h
  case h_6 hp =>
    refine ⟨h.1.keep e, fun hk => ?_⟩
    simp [Thread.registers, hp, hk] at hreg
  all_goals first
    | exact h.keep e
    | trivial

theorem Inv.startRound (h : Inv s) (hnone : s.round = none) (target : Timestamp) : Inv { s with
      groupTS := s.groupTS.forward target
      woken := []
      round := some { target := target, wakes := s.woken } } := by
  have hle : s.groupTS ≤ s.groupTS.forward target := le_max_left _ _
  have hfree := h.round.not_registers (by simp [hnone])
  have m : Move s { s with
      groupTS := s.groupTS.forward target
      woken := []
      round := some { target := target, wakes := s.woken } } 0 [] [] := move_idle rfl rfl hle
  refine h.idle rfl rfl hle ?_ ?_ rfl ?_
  · refine h.round.unregistered hfree fun R hR => ?_
    cases hR
    exact ⟨le_max_right _ _, fun hc => nomatch hc⟩
  · exact fun th hth => (h.threads th hth).keep_of_not_registers m.keeps rfl (hfree th hth)
  · apply h.stream.keep m.keeps _ h.leader
    intro q
    constructor
    case registered => exact .inl
    case noting => exact fun th hth hr hn => .inl ⟨th, hth, hr, hn⟩
    case woken => exact fun hq => .inr ⟨_, rfl, hq⟩
    case round => simp [hnone]

theorem Inv.queueWake (h : Inv s) {R : Round} {r : RangeID} {wakes : List RangeID}
    (hround : s.round = some R) (hwakes : R.wakes = r :: wakes) :
    Inv { s.send (.wake r) with round := some { R with wakes := wakes } } := by
  have hnone : R.registering = false := by
    cases hr : R.registering with
    | false => rfl
    | true =>
      have hc := (h.round.target R hround).2 hr
      simp [hwakes] at hc
  have hfree := h.round.not_registers (by simp [hround, hnone])
  have m : Move s { s.send (.wake r) with round := some { R with wakes := wakes } } 0 [] [] :=
    move_idle rfl rfl le_rfl
  refine h.idle rfl rfl le_rfl ?_ ?_ rfl ?_
  · refine h.round.unregistered hfree fun R' hR' => ?_
    cases hR'
    refine ⟨(h.round.target R hround).1, fun hc => ?_⟩
    simp [hnone] at hc
  · exact fun th hth => (h.threads th hth).keep_of_not_registers m.keeps rfl (hfree th hth)
  · have hclaims := Runs.along_imp (fun _ _ hc => Claims.keep hc m.keeps) h.stream.claims
    change StreamOk _ s.known (_ ++ (s.queue ++ [.wake r]))
    rw [← append_assoc]
    refine ⟨Runs.along_append.mpr ⟨hclaims, Runs.along_cons.mpr ⟨trivial, Runs.along_nil _ _⟩⟩, ?_⟩
    rw [foldl_append]
    rintro q index ⟨hqr, hq⟩
    apply (h.stream.left q index hq).keep m.keeps _ (h.leader.asleep q)
    constructor
    case registered => exact .inl
    case noting => exact fun th hth hr hn => .inl ⟨th, hth, hr, hn⟩
    case woken => exact fun hq => .inl ⟨hq, rfl⟩
    case round =>
      intro R' hR' hmem
      cases hR'.symm.trans hround
      rw [hwakes] at hmem
      exact ⟨_, rfl, (mem_cons.mp hmem).resolve_left hqr⟩

theorem Stores.Tracked.covers {r : RangeID} {index : Nat} {T : Timestamp} (h : s.Tracked r index)
    (hasleep : (s.ranges r).sideRegistered = true → (s.ranges r).quiescent = true)
    (hwakes : ∀ R, s.round = some R → R.wakes = []) (hT : T ≤ s.groupTS) : s.Covers r index T := by
  rcases h with ⟨hreg, hsilent⟩ | ⟨⟨th, hth, hr, hn⟩, hsilent⟩ | ⟨_, hcovers⟩ | ⟨R, hround, hmem⟩
  · exact hsilent.covers (.inr (.inl ⟨hasleep hreg, hT⟩))
  · exact (hsilent.covers (backed_of_noting hth hr hn)).mono le_rfl hT
  · exact hcovers.mono le_rfl hT
  · simp [hwakes R hround] at hmem

section Visit
variable {R : Round} (hround : s.round = some R) (hwakes : R.wakes = [])
  (hnone : R.registering = false)
include hround hwakes hnone

theorem Inv.visit (h : Inv s) (r : RangeID) : Inv (s.visit R r) := by
  have hρ : ∀ {ρ : Round}, ρ.wakes = R.wakes → ∀ R₀, s.round = some R₀ →
      ∃ R', some ρ = some R' ∧ R'.wakes = R₀.wakes := by
    intro ρ hw R₀ hR₀
    cases hR₀.symm.trans hround
    exact ⟨ρ, rfl, hw⟩
  unfold Stores.visit
  split
  · split
    · have m : Move s { s with round := some { R with dests := true } } 0 [] [] :=
        move_idle rfl rfl le_rfl
      have f : ∀ q, Follows s { s with round := some { R with dests := true } } q :=
        m.follows rfl (fun _ hq => hq) (hρ rfl) .inl fun th hth => nomatch hth
      refine h.idle rfl rfl le_rfl ⟨h.round.unique, ?_, ?_⟩ ?_
        rfl (stream_of_eq h rfl rfl m.keeps f)
      · intro th hth hr
        obtain ⟨R', hR', hreg⟩ := h.round.active th hth hr
        cases hR'.symm.trans hround
        exact ⟨_, rfl, hreg⟩
      · intro R' hR'
        cases hR'
        exact h.round.target R hround
      · exact m.threads h f fun th hth => nomatch hth
    · have hfresh : Thread.Fresh { range := r, phase := .draining .group R.target } :=
        ⟨rfl, rfl, rfl, fun _ => trivial⟩
      exact h.spawn hfresh (.inl ⟨rfl, rfl⟩) (update_eq_self _ _).symm rfl rfl rfl (hρ rfl)
        (h.round.register hround hnone hwakes true) rfl rfl rfl
  · have hfresh : Thread.Fresh { range := r, phase := .choosing R.target } :=
      ⟨rfl, rfl, rfl, fun _ => trivial⟩
    exact h.spawn hfresh (.inl ⟨rfl, rfl⟩) (update_eq_self _ _).symm rfl rfl rfl
      (fun R hR => ⟨R, hR, rfl⟩) (h.round.append rfl) rfl rfl rfl

theorem Inv.endRound (h : Inv s) :
    Inv (if R.dests then Stores.send { s with round := none } (.group R.target)
      else { s with round := none }) := by
  have hfree := h.round.not_registers (by simp [hround, hnone])
  have hempty : ∀ R', s.round = some R' → R'.wakes = [] := by simp [hround, hwakes]
  have hidle : ∀ queue, (Keeps s { s with round := none, queue := queue } →
      (∀ q, Follows s { s with round := none, queue := queue } q) →
      StreamOk { s with round := none, queue := queue } s.known
      (s.handling.flatten ++ s.net.flatten ++ queue)) →
      Inv { s with round := none, queue := queue } := by
    intro queue hstream
    have m : Move s { s with round := none, queue := queue } 0 [] [] := move_idle rfl rfl le_rfl
    have f : ∀ q, Follows s { s with round := none, queue := queue } q := by
      intro q
      constructor
      case registered => exact .inl
      case noting => exact fun th hth hr hn => .inl ⟨th, hth, hr, hn⟩
      case woken => exact fun hq => .inl ⟨hq, rfl⟩
      case round =>
        intro R' hR' hmem
        simp [hempty R' hR'] at hmem
    exact h.idle rfl rfl le_rfl (h.round.unregistered hfree (by simp))
      (m.threads h f (forall_mem_nil _)) rfl
      (hstream m.keeps f)
  split
  · refine hidle (s.queue ++ [.group R.target]) fun e f => ?_
    have hold := h.stream.keep e f h.leader
    rw [← append_assoc]
    apply StreamOk.concat hold
    · intro q index hq
      have htracked := h.stream.left q index hq
      exact (htracked.covers (h.leader.asleep q) hempty (h.round.target R hround).1).keep e
    · exact hold.left
  · exact hidle s.queue fun e f => stream_of_eq h rfl rfl e f

end Visit

end Round

end Datax.ClosedTs
