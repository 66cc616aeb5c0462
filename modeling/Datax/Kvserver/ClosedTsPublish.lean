import Datax.Kvserver.ClosedTsSteps

/-!
# Publications

A publication has drained the latches when it bumps the cache, so no write at or
below its target is left behind the last index.
-/

namespace Datax.ClosedTs

open Function List Stores Thread

variable {s : Stores} {i : Nat} {th : Thread}

section Publications
variable {k : Transport} {target : Timestamp} {index : Nat}

theorem not_exclusive_of_not_writing (hc : s.writing th.range = false) {o : Thread}
    (ho : o ∈ s.threads) (hr : o.range = th.range) : o.exclusive = false := by
  have hany := any_eq_false.mp hc o ho
  cases he : o.exclusive with
  | false => rfl
  | true =>
    rw [he, hr] at hany
    simp at hany

theorem Inv.choose (h : Inv s) (hi : s.threads[i]? = some th) (hphase : th.phase = .choosing target)
    (hk : k ≠ .group) :
    Inv (s.setThread i { th with phase := .draining k target }) := by
  refine h.setThread hi (Act.unlatched h.leader rfl ?_ rfl rfl rfl) rfl ?_ fun _ _ => trivial
  · rw [exclusive, hphase]
  · exact fun hr => absurd (eq_of_beq hr) hk

theorem Inv.lock (h : Inv s) (hi : s.threads[i]? = some th) (hphase : th.phase = .draining k target)
    (hwriting : s.writing th.range = false) :
    Inv (s.setThread i { th with phase := .locked k target }) := by
  refine h.setThread hi ?_ rfl ?_ fun _ _ => trivial
  · apply Act.phase h.leader rfl
    · intro t hp
      cases hp
    · intro t j happ
      simp [hphase] at happ
    · exact fun _ => ⟨rfl, .inr fun o ho hr => not_exclusive_of_not_writing hwriting ho hr⟩
    · intro he
      cases he
  · intro hr
    rw [registers, hphase]
    exact hr

theorem covers_of_drained {s' : Stores} (h : Inv s) (hth : th ∈ s.threads)
    (hshared : th.shared = true) (e : Keeps s s')
    (hcame : ∀ o ∈ s'.threads, o ∈ s.threads ∨ o.pending = none) (hfloor :
      target ≤ s'.floor th.range) : s'.Covers th.range (s.ranges th.range).lastIndex target := by
  have hpending : ∀ o ∈ s.threads, o.range = th.range → o.pending = none := by
    intro o ho hr
    cases hp : o.pending with
    | none => rfl
    | some t =>
      have he := exclusive_of_pending hp
      simp [h.leader.latches th hth hshared o ho hr] at he
  constructor
  case backed => exact .inl hfloor
  case log =>
    intro j t hj hlog
    rcases e.log _ j t hlog with hold | ⟨o, ho, hr, hp⟩
    · obtain ⟨o, ho, hr, hphase⟩ := h.leader.unstable _ j t hj hold
      have he := h.leader.latches th hth hshared o ho hr
      simp [exclusive, hphase] at he
    · simp [hpending o ho hr] at hp
  case pending =>
    intro o ho hr t hp
    rcases hcame o ho with hold | hnone
    · simp [hpending o hold hr] at hp
    · simp [hnone] at hp

section
variable (h : Inv s) (hi : s.threads[i]? = some th)
include h hi

theorem Inv.publishBump (hw : th.wake = none)
    (hphase : th.phase = .locked k target) :
    Inv ((s.setRange th.range ((s.ranges th.range).bump target)).setThread i
      { th with phase := .bumped k target }) := by
  have hshared : th.shared = true := by rw [shared, hphase]
  have a : Act s th { th with phase := .bumped k target } (s.ranges th.range) := by
    apply Act.phase h.leader rfl
    · intro t hp
      cases hp
    · intro t j happ
      simp [hphase] at happ
    · exact fun _ => ⟨rfl, .inl hshared⟩
    · intro he
      cases he
  refine h.onRange hi a.bump (fun hn => absurd hn (not_noting hw)) ?_ (fun _ _ _ => .inl) ?_
  · intro hr
    rw [registers, hphase]
    exact hr
  · intro e _
    have hcame : ∀ o ∈ s.threads.set i { th with phase := .bumped k target },
        o ∈ s.threads ∨ o.pending = none := forall_mem_set (.inr rfl) fun _ => .inl
    have hfloor : target ≤
        (Function.update s.ranges th.range ((s.ranges th.range).bump target)
          th.range).cache.floor := by
      rw [update_self]
      exact TsCache.le_floor_bump_whole
    apply (covers_of_drained h (mem_of_getElem? hi) hshared e hcame hfloor).mono _ le_rfl
    change _ ≤ (Function.update s.ranges th.range _ th.range).lastIndex
    rw [update_self]
    exact le_refl _

theorem Inv.publishPhase {p : Phase} (hexclusive : th.exclusive = false)
    {th' : Thread} (hth' : th' = { th with phase := p }) (hpending : th'.pending = none)
    (hshared' : th'.shared = false) (hexclusive' : th'.exclusive = false)
    (hreg : th'.registers = true → th.registers = true) (hok : ThreadOk s th') :
      Inv (s.setThread i th') :=
  h.setThread hi (Act.unlatched h.leader hth' hexclusive hpending hshared' hexclusive')
    (by rw [hth']) hreg
    fun e f => hok.keep e (f _) h.leader le_rfl

theorem Inv.flag (hw : th.wake = none) (hphase : th.phase = .indexed k target index)
    {R' : LeaderRange}
    (hR' : R' = { (s.ranges th.range).promised target with sideRegistered := R'.sideRegistered })
    (hkeep : (s.ranges th.range).sideRegistered = true → R'.sideRegistered = true)
    (hasleep : R'.sideRegistered = true → (s.ranges th.range).quiescent = true)
    (hgroup : k = .group → R'.sideRegistered = true ∧ (s.ranges th.range).log.length ≤ index) :
    Inv ((s.setRange th.range R').setThread i { th with phase := .flagged k target index }) := by
  have hth := h.threads th (mem_of_getElem? hi)
  rw [ThreadOk, hphase] at hth
  have base : Act s th { th with phase := .flagged k target index } (s.ranges th.range) := by
    apply Act.unlatched h.leader rfl _ rfl rfl rfl
    rw [exclusive, hphase]
  have a : Act s th { th with phase := .flagged k target index } R' := by
    rw [hR']
    exact { base with asleep := hasleep, registered := fun hreg => .inl (hkeep hreg) }
  refine h.onRange hi a (fun hn => absurd hn (not_noting hw)) ?_ ?_ ?_
  · intro hr
    rw [registers, hphase]
    exact hr
  · rw [hR']
    exact fun _ _ _ hlog => .inl hlog
  · intro e _
    refine ⟨hth.keep e, fun hk => .inl ⟨?_, ?_⟩⟩
    · change (Function.update s.ranges th.range R' th.range).sideRegistered = true
      rw [update_self]
      exact (hgroup hk).1
    · obtain ⟨hreg, hlen⟩ := hgroup hk
      have hsilent : s.Silent th.range index := by
        constructor
        · intro j t hj hlog
          have hlt := (List.getElem?_eq_some_iff.mp hlog).1
          omega
        · intro o ho hr
          cases hp : o.pending with
          | none => rfl
          | some t =>
            have hq := (h.leader.awake ho hp).1
            simp [hr, hasleep hreg] at hq
      apply hsilent.keep e
      intro ha
      have hq := ha.1
      simp [hasleep hreg] at hq

theorem Inv.sendPromise (hw : th.wake = none) (hphase : th.phase = .flagged k target index)
    {ρ : Option Round} (hρ : ∀ R, s.round = some R → ∃ R', ρ = some R' ∧ R'.wakes = R.wakes)
    (hround : RoundOk (s.threads.set i th.finish) ρ s.groupTS) : Inv { s with
      threads := s.threads.set i th.finish
      queue := s.queue ++ [.promise th.range index target (k == .group)]
      round := ρ } := by
  have hth := h.threads th (mem_of_getElem? hi)
  rw [ThreadOk, hphase] at hth
  have a : Act s th th.finish (s.ranges th.range) := by
    apply Act.finish h
    intro t j happ
    simp [hphase] at happ
  refine Inv.act hi a (update_eq_self _ _).symm rfl rfl h (fun _ hq => hq) hρ
    (fun hn => absurd hn (not_noting hw)) hround (fun _ _ _ => .inl) (fun _ _ => trivial) rfl ?_
  intro e f
  unfold Stores.stream
  rw [← append_assoc]
  have hold := h.stream.keep e f h.leader
  apply StreamOk.concat hold
  · exact hth.1.keep e
  rintro q j (hq | ⟨hk, rfl, rfl⟩)
  · exact hold.left q j hq
  · exact (hth.2 (eq_of_beq hk)).keep e (f _) (h.leader.asleep _)

theorem Inv.publish {s' : Stores} (hw : th.wake = none)
    (hguard : orderly s (.publish i) = true) (hs : s.publish i th th.phase = some s') : Inv s' := by
  simp only [orderly, hi, Option.all_some] at hguard
  have hok := h.threads th (mem_of_getElem? hi)
  cases hphase : th.phase with
  | draining k target =>
    simp only [hphase, Stores.publish] at hs
    split_ifs at hs with hwriting
    cases hs
    exact h.lock hi hphase (Bool.eq_false_of_not_eq_true hwriting)
  | locked k target =>
    rw [hphase] at hs
    cases hs
    exact h.publishBump hi hw hphase
  | bumped k target =>
    rw [hphase] at hs
    cases hs
    rw [ThreadOk, hphase] at hok
    refine h.publishPhase hi ?_ rfl rfl rfl rfl ?_ hok
    · rw [exclusive, hphase]
    · rw [registers, registers, hphase]
      exact id
  | drained k target =>
    rw [ThreadOk, hphase] at hok
    have hexclusive : th.exclusive = false := by rw [exclusive, hphase]
    cases k with
    | log | side =>
      rw [hphase] at hs
      cases hs
      exact h.publishPhase hi hexclusive rfl rfl rfl rfl (by intro hr; cases hr) hok
    | group =>
      rw [hphase] at hs
      cases hs
      refine h.publishPhase hi hexclusive rfl rfl rfl rfl ?_ hok
      rw [registers, registers, hphase]
      exact id
  | indexed k target index =>
    have hside : k ≠ .group →
        (s.setRange th.range ((s.ranges th.range).promised target)).setThread i
        { th with phase := .flagged k target index } = s' → Inv s' := by
      rintro hk rfl
      exact h.flag hi hw hphase rfl id (h.leader.asleep _) fun hc => absurd hc hk
    cases k with
    | log | side =>
      rw [hphase] at hs
      exact hside (by intro hc; cases hc) (Option.some.inj hs)
    | group =>
      simp only [hphase, Stores.publish] at hs
      simp only [hphase] at hguard
      split at hs
      · rename_i hq
        cases hs
        exact h.flag hi hw hphase rfl (fun _ => rfl) (fun _ => hq) fun _ =>
          ⟨rfl, of_decide_eq_true hguard⟩
      · cases hs
        apply h.finishRegistration hi
        rw [registers, hphase]
        rfl
  | flagged k target index =>
    rw [hphase] at hs
    cases hs
    by_cases hk : k = .group
    · subst hk
      refine h.sendPromise hi hw hphase ?_ (h.round.endRegistration hi ?_ rfl)
      · intro R hR
        exact ⟨{ R with registering := false }, congrArg (Option.map _) hR, rfl⟩
      · rw [registers, hphase]
        rfl
    · rw [Stores.endRegistration, if_neg hk]
      exact h.sendPromise hi hw hphase (fun R hR => ⟨R, hR, rfl⟩)
        (h.round.set hi (by intro hr; cases hr))
  | _ =>
    rw [hphase] at hs
    cases hs

end

end Publications

end Datax.ClosedTs
