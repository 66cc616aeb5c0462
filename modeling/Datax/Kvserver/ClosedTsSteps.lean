import Datax.Kvserver.ClosedTsThreads

/-!
# Writes and wakes

A write is admitted above the floor of a range that is awake. A wake holds the group
promise until it has bumped the cache to it.
-/

namespace Datax.ClosedTs

open Function List Stores Thread

variable {s : Stores} {i : Nat} {th : Thread}

theorem Thread.exclusive_of_pending {t : Timestamp} (h : th.pending = some t) :
    th.exclusive = true := by
  unfold pending at h
  split at h
  case h_4 => cases h
  all_goals
    rename_i hp
    rw [exclusive, hp]

theorem stream_of_eq {s' : Stores} (h : Inv s) (hreg : s'.reg = s.reg)
    (hstream : s'.stream = s.stream) (e : Keeps s s') (f : ∀ q, Follows s s' q) :
    StreamOk s' s'.known s'.stream := by
  have hknown : s'.known = s.known := by
    unfold Stores.known
    rw [hreg]
  rw [hknown, hstream]
  exact h.stream.keep e f h.leader

theorem Thread.not_noting (hw : th.wake = none) : ¬ th.noting := by
  rw [noting, hw]
  exact nofun

section Phase
variable {th' : Thread} {p : Phase} {ρ : Option Round} {R' : LeaderRange}

theorem Inv.onRange (h : Inv s) (hi : s.threads[i]? = some th) (a : Act s th th' R')
    (hnoting : th.noting → th'.noting) (hreg : th'.registers = true → th.registers = true)
    (hlogged : Keeps s ((s.setRange th.range R').setThread i th') →
      ∀ p T, R'.log[p]? = some (.closed T) →
      (s.ranges th.range).log[p]? = some (.closed T) ∨
      ((s.setRange th.range R').setThread i th').Covers th.range p T)
    (hok : Keeps s ((s.setRange th.range R').setThread i th') →
      (∀ q, Follows s ((s.setRange th.range R').setThread i th') q) →
      ThreadOk ((s.setRange th.range R').setThread i th') th') :
    Inv ((s.setRange th.range R').setThread i th') :=
  Inv.act hi a rfl rfl rfl h (fun _ hq => hq) (fun R hR => ⟨R, hR, rfl⟩)
    (fun hn => .inl (hnoting hn))
    (h.round.set hi hreg) hlogged hok rfl fun e f => stream_of_eq h rfl rfl e f

section
variable (h : Inv s) (hi : s.threads[i]? = some th) (a : Act s th th' (s.ranges th.range))
  (hwake : th'.wake = th.wake)
include h hi a hwake

theorem Inv.toPhase (hρ : ∀ R, s.round = some R → ∃ R', ρ = some R' ∧ R'.wakes = R.wakes)
    (hround : RoundOk (s.threads.set i th') ρ s.groupTS)
    (hok : Keeps s { s with threads := s.threads.set i th', round := ρ } →
      (∀ q, Follows s { s with threads := s.threads.set i th', round := ρ } q) →
      ThreadOk { s with threads := s.threads.set i th', round := ρ } th') :
    Inv { s with threads := s.threads.set i th', round := ρ } := by
  refine Inv.act hi a (update_eq_self _ _).symm rfl rfl h (fun _ hq => hq) hρ ?_ hround
    (fun _ p T hlog => Or.inl hlog) hok rfl fun e f => stream_of_eq h rfl rfl e f
  intro hn
  apply Or.inl
  unfold noting
  rw [hwake]
  exact hn

theorem Inv.setThread (hreg : th'.registers = true → th.registers = true)
    (hok : Keeps s (s.setThread i th') → (∀ q, Follows s (s.setThread i th') q) →
      ThreadOk (s.setThread i th') th') : Inv (s.setThread i th') :=
  h.toPhase hi a hwake (fun R hR => ⟨R, hR, rfl⟩) (h.round.set hi hreg) hok

end

theorem Act.finish (h : Inv s)
    (happended : ∀ t j, th.phase = .appended (.write t) j → j < (s.ranges th.range).lastIndex) :
    Act s th th.finish (s.ranges th.range) := by
  apply Act.phase h.leader rfl
  · intro t hp
    cases hp
  · exact fun t j hphase => .inl (happended t j hphase)
  · intro hs
    cases hs
  · intro he
    cases he

theorem Inv.finish (h : Inv s) (hi : s.threads[i]? = some th)
    (happended : ∀ t j, th.phase = .appended (.write t) j → j < (s.ranges th.range).lastIndex) :
    Inv (s.setThread i th.finish) :=
  h.setThread hi (Act.finish h happended) rfl (fun hr => nomatch hr) fun _ _ => trivial

theorem Inv.finishRegistration (h : Inv s) (hi : s.threads[i]? = some th)
    (hreg : th.registers = true) :
    Inv ((s.setThread i th.finish).endRegistration .group) := by
  have hnot : ∀ t j, th.phase ≠ .appended (.write t) j := by
    intro t j hphase
    simp [registers, hphase] at hreg
  apply h.toPhase hi (Act.finish h fun t j hphase => absurd hphase (hnot t j)) rfl
  · intro R hR
    exact ⟨{ R with registering := false }, congrArg (Option.map _) hR, rfl⟩
  · exact h.round.endRegistration hi hreg rfl
  · exact fun _ _ => trivial

end Phase

variable {w : WriteRequest} {ts T : Timestamp}

section Writes

theorem not_shared_of_no_conflict (hc : s.conflict th = false) {o : Thread} (ho : o ∈ s.threads)
    (hr : o.range = th.range) : o.shared = false := by
  have hany := any_eq_false.mp hc o ho
  cases hs : o.shared with
  | false => rfl
  | true =>
    rw [hs, hr] at hany
    simp at hany

section
variable (h : Inv s) (hi : s.threads[i]? = some th)
include h hi

theorem Inv.latch (hphase : th.phase = .queued w)
    (hc : s.conflict th = false) : Inv (s.setThread i { th with phase := .latched w }) := by
  refine h.setThread hi ?_ rfl (fun hr => nomatch hr) fun _ _ => trivial
  apply Act.phase h.leader rfl
  · intro t hp
    cases hp
  · intro t j happ
    simp [hphase] at happ
  · intro hs
    cases hs
  · exact fun _ => ⟨rfl, .inr fun o ho hr => not_shared_of_no_conflict hc ho hr⟩

theorem Inv.allow (hphase : th.phase = .latched w)
    (hawake : s.Awake th.range) (hts : checkTsCache th.range (s.ranges th.range).cache w = .ok ts) :
    Inv (s.setThread i { th with phase := .admitted ts }) := by
  refine h.setThread hi ?_ rfl (fun hr => nomatch hr) fun _ _ => trivial
  apply Act.phase h.leader rfl
  · intro t hp
    cases hp
    exact .inr ⟨hawake, floor_lt_of_checkTsCache hts⟩
  · intro t j happ
    simp [hphase] at happ
  · intro hs
    cases hs
  · intro _
    refine ⟨rfl, .inl ?_⟩
    rw [exclusive, hphase]

theorem Inv.propose (hphase : th.phase = .admitted ts) :
    Inv (s.setThread i { th with phase := .proposed (.write ts) }) := by
  refine h.setThread hi ?_ rfl (fun hr => nomatch hr) fun _ _ => trivial
  apply Act.phase h.leader rfl
  · intro t hp
    apply Or.inl
    rw [pending, hphase]
    exact hp
  · intro t j happ
    simp [hphase] at happ
  · intro hs
    cases hs
  · intro _
    refine ⟨rfl, .inl ?_⟩
    rw [exclusive, hphase]

theorem Inv.rouse (hw : th.wake = none) {c : Command}
    (hphase : th.phase = .proposed c) :
    Inv ((s.setRange th.range (s.ranges th.range).unquiesce).setThread i
      { th with wake := (s.ranges th.range).wakeStage, phase := .roused c }) := by
  have hpending : pending { th with wake := (s.ranges th.range).wakeStage, phase := .roused c } =
      th.pending := by
    rw [pending, pending, hphase]
    cases c with
    | _ => rfl
  have hexclusive :
      exclusive { th with wake := (s.ranges th.range).wakeStage, phase := .roused c } =
      th.exclusive := by
    rw [exclusive, exclusive, hphase]
    cases c with
    | _ => rfl
  have a : Act s th { th with wake := (s.ranges th.range).wakeStage, phase := .roused c }
      (s.ranges th.range).unquiesce := by
    have base : Act s th th (s.ranges th.range) := Act.self h.leader
    refine { base with
      asleep := ?asleep, quiet := ?quiet, sleep := ?sleep, wake := ?wake, waking := ?waking,
      registered := ?registered, pending := ?pending
      unstable := ?unstable, shared := ?shared, exclusive := ?exclusive }
    case asleep | quiet =>
      intro hc
      cases hc
    case sleep =>
      intro hq
      exact .inr ⟨.note (s.ranges th.range).sideRegistered, if_pos hq, le_refl _⟩
    case wake =>
      intro w hw'
      rw [hw] at hw'
      cases hw'
    case waking =>
      intro hne
      apply Or.inr
      by_contra hq
      exact hne (if_neg hq)
    case registered =>
      intro hreg
      apply Or.inr
      change (s.ranges th.range).wakeStage = some (.note true)
      rw [LeaderRange.wakeStage, if_pos (h.leader.asleep _ hreg), hreg]
    case pending =>
      intro t hp
      rw [hpending] at hp
      exact .inl hp
    case unstable =>
      intro j t hj hlog
      refine .inl ⟨hj, hlog, ?_⟩
      rw [hphase]
      simp
    case shared =>
      intro hs
      cases hs
    case exclusive =>
      intro he
      rw [hexclusive] at he
      exact ⟨rfl, .inl he⟩
  refine h.onRange hi a (fun hn => absurd hn (not_noting hw))
    (fun hr => absurd hr Bool.false_ne_true) (fun _ _ _ => .inl) ?_
  intro e _
  have hth := h.threads th (mem_of_getElem? hi)
  rw [ThreadOk, hphase] at hth
  cases c with
  | closed T =>
    apply (hth.keep e).mono _ le_rfl
    change _ ≤ (Function.update s.ranges th.range _ th.range).lastIndex
    rw [update_self]
    exact le_refl _
  | noop | write t => trivial

end

theorem getElem?_concat_cases {α : Type} {l : List α} {x y : α} {j : Nat}
    (h : (l ++ [x])[j]? = some y) :
    l[j]? = some y ∨ (j = l.length ∧ x = y) := by
  rcases Nat.lt_trichotomy j l.length with hlt | rfl | hgt
  · rw [getElem?_append_left hlt] at h
    exact .inl h
  · rw [getElem?_concat_length] at h
    exact .inr ⟨rfl, Option.some.inj h⟩
  · rw [getElem?_append_right hgt.le, getElem?_singleton, if_neg (by omega)] at h
    cases h

section
variable (h : Inv s) (hi : s.threads[i]? = some th) (hw : th.wake = none)
include h hi hw

theorem Inv.append {c : Command} (hphase : th.phase = .roused c) :
    Inv ((s.setRange th.range
      { s.ranges th.range with log := (s.ranges th.range).log ++ [c] }).setThread i
      { th with phase := .appended c (s.ranges th.range).log.length }) := by
  obtain ⟨happlied, hlast⟩ := h.leader.bounds th.range
  have hth := h.threads th (mem_of_getElem? hi)
  have a : Act s th { th with phase := .appended c (s.ranges th.range).log.length }
      { s.ranges th.range with log := (s.ranges th.range).log ++ [c] } := by
    have base : Act s th th (s.ranges th.range) := Act.self h.leader
    refine { base with
      bounds := ?bounds, log := ?log, pending := ?pending, unstable := ?unstable, shared := ?shared,
      exclusive := ?exclusive }
    case bounds =>
      refine ⟨happlied, ?_⟩
      change (s.ranges th.range).lastIndex ≤ ((s.ranges th.range).log ++ [c]).length
      rw [length_append]
      omega
    case log =>
      intro j t hlog
      rcases getElem?_concat_cases hlog with hold | ⟨_, rfl⟩
      · exact Or.inl hold
      · apply Or.inr
        rw [pending, hphase]
    case pending =>
      intro t hp
      cases hp
    case unstable =>
      intro j t hj hlog
      rcases getElem?_concat_cases hlog with hold | ⟨rfl, rfl⟩
      · refine .inl ⟨hj, hold, ?_⟩
        rw [hphase]
        simp
      · exact .inr rfl
    case shared =>
      intro hs
      cases hs
    case exclusive =>
      intro he
      refine ⟨rfl, .inl ?_⟩
      rw [exclusive, hphase]
      cases c with
      | write t => rfl
      | noop | closed T => cases he
  refine h.onRange hi a (fun hn => absurd hn (not_noting hw))
    (fun hr => absurd hr Bool.false_ne_true) ?_ fun _ _ => trivial
  intro e p T hlog
  rcases getElem?_concat_cases hlog with hold | ⟨rfl, rfl⟩
  · exact Or.inl hold
  apply Or.inr
  rw [ThreadOk, hphase] at hth
  exact (hth.keep e).mono hlast (le_refl _)

theorem Inv.finishClosed {index : Nat} (hphase : th.phase = .appended (.closed T) index) (k : Nat) :
    Inv ((s.setRange th.range { s.ranges th.range with closedTSLogged := k }).setThread
      i th.finish) := by
  have hnot : ∀ t j, th.phase ≠ .appended (.write t) j := by
    intro t j hc
    simp [hphase] at hc
  have a : Act s th th.finish { s.ranges th.range with closedTSLogged := k } :=
    { Act.finish h fun t j hc => absurd hc (hnot t j) with }
  exact h.onRange hi a (fun hn => absurd hn (not_noting hw)) (fun hr => nomatch hr)
    (fun _ _ _ => .inl)
    fun _ _ => trivial

end

end Writes

section Wakes

theorem Inv.wakeStage (h : Inv s) (hi : s.threads[i]? = some th) {w w' : WakeStage}
    (hw : th.wake = some w) (hlevel : w.level s.groupTS ≤ w'.level s.groupTS) {woken : List RangeID}
    (hwoken : ∀ q ∈ s.woken, q ∈ woken) (hnoting : th.noting → th.range ∈ woken) :
    Inv { s.setThread i { th with wake := some w' } with woken := woken } := by
  have hwake : ∀ x, th.wake = some x →
      (∃ y, some w' = some y ∧ x.level s.groupTS ≤ y.level s.groupTS) ∨
      x.level s.groupTS ≤ (s.ranges th.range).cache.floor := by
    intro x hx
    rw [hw] at hx
    cases hx
    exact .inl ⟨w', rfl, hlevel⟩
  have a : Act s th { th with wake := some w' } (s.ranges th.range) :=
    { (Act.self h.leader : Act s th th (s.ranges th.range)) with
      sleep := .inl, wake := hwake, registered := .inl
      waking := fun _ => .inl (by rw [hw]; exact Option.some_ne_none w) }
  refine Inv.act hi a (update_eq_self _ _).symm rfl rfl h hwoken (fun R hR => ⟨R, hR, rfl⟩)
    (fun hn => .inr (hnoting hn)) (h.round.set hi id) (fun _ _ _ hlog => .inl hlog) ?_ rfl
    fun e f => stream_of_eq h rfl rfl e f
  intro e f
  exact (h.threads th (mem_of_getElem? hi)).keep e (f _) h.leader le_rfl

theorem Act.bump {th' : Thread} (a : Act s th th' (s.ranges th.range)) :
    Act s th th' ((s.ranges th.range).bump T) :=
  { a with
    floor := TsCache.floor_le_bump
    wake := fun w hw => (a.wake w hw).imp id fun hf => le_trans hf TsCache.floor_le_bump }

theorem Inv.wakeBump (h : Inv s) (hi : s.threads[i]? = some th) (hw : th.wake = some (.bump T))
    {R' : LeaderRange} (hR' : R' = (s.ranges th.range).bump T ∨ T = ⊥ ∧ R' = s.ranges th.range) :
    Inv ((s.setThread i { th with wake := none }).setRange th.range R') := by
  have hfloor : T ≤ R'.cache.floor ∧ s.floor th.range ≤ R'.cache.floor := by
    rcases hR' with rfl | ⟨rfl, rfl⟩
    · exact ⟨TsCache.le_floor_bump_whole, TsCache.floor_le_bump⟩
    · exact ⟨bot_le, le_refl _⟩
  have hsame : R' = { s.ranges th.range with cache := R'.cache } := by
    rcases hR' with rfl | ⟨_, rfl⟩
    · rfl
    · rfl
  have hwake : ∀ x, th.wake = some x →
      (∃ y : WakeStage, none = some y ∧ x.level s.groupTS ≤ y.level s.groupTS) ∨
      x.level s.groupTS ≤ R'.cache.floor := by
    intro x hx
    rw [hw] at hx
    cases hx
    exact .inr hfloor.1
  have a : Act s th { th with wake := none } R' := by
    rw [hsame]
    exact { (Act.self h.leader : Act s th th (s.ranges th.range)) with
      floor := hfloor.2, sleep := .inl, wake := hwake, registered := .inl
      waking := fun hc => absurd rfl hc }
  refine h.onRange hi a ?_ id ?_ ?_
  · intro hn
    simp [noting, hw] at hn
  · rw [hsame]
    exact fun _ _ _ hlog => .inl hlog
  · intro e f
    apply (h.threads th (mem_of_getElem? hi)).keep e (f _) h.leader
    change _ ≤ (Function.update s.ranges th.range R' th.range).lastIndex
    rw [update_self, hsame]

end Wakes

end Datax.ClosedTs
