import Datax.Kvserver.ClosedTsMoves

/-!
# Steps of one thread

`Act` is the move of a thread that changes its own state and its range's.
-/

namespace Datax.ClosedTs

open Function List Stores Thread

variable {α : Type} {i : Nat}

theorem mem_set_of_mem {l : List α} {x z : α} (y : α) (h : l[i]? = some x) (hz : z ∈ l) :
    z ∈ l.set i y ∨ z = x := by
  obtain ⟨j, hj⟩ := mem_iff_getElem?.mp hz
  by_cases hij : i = j
  · subst hij
    exact Or.inr (Option.some.inj (hj.symm.trans h))
  · apply Or.inl
    apply mem_of_getElem? (i := j)
    rw [getElem?_set_ne hij]
    exact hj

theorem mem_set_self {l : List α} {x : α} (y : α) (h : l[i]? = some x) :
    y ∈ l.set i y := List.mem_set (List.getElem?_eq_some_iff.mp h).1 y

theorem forall_mem_set {l : List α} {x : α} {P : α → Prop} (hx : P x) (h : ∀ y ∈ l, P y) :
    ∀ y ∈ l.set i x, P y := by
  intro y hy
  rcases mem_or_eq_of_mem_set hy with hy | rfl
  · exact h y hy
  · exact hx

structure Act (s : Stores) (th th' : Thread) (R' : LeaderRange) : Prop where
  range : th'.range = th.range
  floor : s.floor th.range ≤ R'.cache.floor
  last : (s.ranges th.range).lastIndex ≤ R'.lastIndex
  bounds : R'.applied ≤ R'.lastIndex ∧ R'.lastIndex ≤ R'.log.length
  asleep : R'.sideRegistered = true → R'.quiescent = true
  quiet : R'.quiescent = true → (s.ranges th.range).quiescent = true
  sleep : (s.ranges th.range).quiescent = true → R'.quiescent = true ∨
    ∃ w, th'.wake = some w ∧ s.groupTS ≤ w.level s.groupTS
  wake : ∀ w, th.wake = some w →
    (∃ w', th'.wake = some w' ∧ w.level s.groupTS ≤ w'.level s.groupTS) ∨
      w.level s.groupTS ≤ R'.cache.floor
  waking : th'.wake ≠ none → th.wake ≠ none ∨ (s.ranges th.range).quiescent = true
  registered : (s.ranges th.range).sideRegistered = true → R'.sideRegistered = true ∨ th'.noting
  log : ∀ (j : Nat) (t : Timestamp), R'.log[j]? = some (.write t) →
    (s.ranges th.range).log[j]? = some (.write t) ∨ th.pending = some t
  pending : ∀ t, th'.pending = some t →
    th.pending = some t ∨ (s.Awake th.range ∧ s.floor th.range < t)
  unstable : ∀ (j : Nat) (t : Timestamp), R'.lastIndex ≤ j → R'.log[j]? = some (.write t) →
    ((s.ranges th.range).lastIndex ≤ j ∧ (s.ranges th.range).log[j]? = some (.write t) ∧
      th.phase ≠ .appended (.write t) j) ∨ th'.phase = .appended (.write t) j
  shared : th'.shared = true → th'.exclusive = false ∧
    (th.shared = true ∨ ∀ o ∈ s.threads, o.range = th.range → o.exclusive = false)
  exclusive : th'.exclusive = true → th'.shared = false ∧
    (th.exclusive = true ∨ ∀ o ∈ s.threads, o.range = th.range → o.shared = false)

section Act
variable {s s' : Stores} {i : Nat} {th th' : Thread} {R' : LeaderRange}
  (hi : s.threads[i]? = some th) (a : Act s th th' R')
  (hranges : s'.ranges = Function.update s.ranges th.range R')
  (hthreads : s'.threads = s.threads.set i th') (hgroup : s'.groupTS = s.groupTS)
include hi a hranges hthreads hgroup

theorem Act.move : Move s s' th.range [th] [th'] := by
  have hR : s'.ranges th.range = R' := by rw [hranges, update_self]
  constructor
  case group => exact hgroup.ge
  case other =>
    intro q hq
    rw [hranges, update_of_ne hq]
  case mem => exact forall_mem_singleton.mpr ⟨mem_of_getElem? hi, rfl⟩
  case there =>
    rw [hthreads]
    exact forall_mem_singleton.mpr ⟨mem_set_self th' hi, a.range⟩
  case kept =>
    intro x hx
    rw [hthreads]
    exact (mem_set_of_mem th' hi hx).imp id mem_singleton.mpr
  case came =>
    intro x hx
    rw [hthreads] at hx
    exact (mem_or_eq_of_mem_set hx).imp id mem_singleton.mpr
  case floor =>
    rw [Stores.floor, Stores.floor, hR]
    exact a.floor
  case last =>
    rw [hR]
    exact a.last
  case sleep =>
    rw [hR, hgroup]
    intro hq
    exact (a.sleep hq).imp id fun hw => ⟨th', mem_singleton_self _, hw⟩
  case wake =>
    rw [Stores.floor, hR, hgroup]
    refine forall_mem_singleton.mpr fun w hw => ?_
    exact (a.wake w hw).imp (fun hw' => ⟨th', mem_singleton_self _, hw'⟩) id
  case log =>
    rw [hR]
    intro j t hlog
    exact (a.log j t hlog).imp id fun hp => ⟨th, mem_singleton_self _, hp⟩
  case pending =>
    refine forall_mem_singleton.mpr fun t hp => ?_
    exact (a.pending t hp).imp (fun hp' => ⟨th, mem_singleton_self _, hp'⟩) id

omit hi hgroup in
theorem Act.order : Order s s' th.range [th] [th'] := by
  have hR : s'.ranges th.range = R' := by rw [hranges, update_self]
  constructor
  case bounds =>
    rw [hR]
    exact a.bounds
  case asleep =>
    rw [hR]
    exact a.asleep
  case quiet =>
    rw [hR]
    exact fun hq => .inl (a.quiet hq)
  case waking =>
    refine forall_mem_singleton.mpr fun hw => ?_
    exact (a.waking hw).imp (fun hw' => ⟨th, mem_singleton_self _, hw'⟩) id
  case unstable =>
    rw [hR]
    intro j t hj hlog
    rcases a.unstable j t hj hlog with ⟨hj', hlog', hne⟩ | hphase
    · exact .inl ⟨hj', hlog', forall_mem_singleton.mpr hne⟩
    · exact .inr ⟨th', mem_singleton_self _, hphase⟩
  case shared =>
    refine forall_mem_singleton.mpr fun hshared => ?_
    obtain ⟨hself, hold | hnone⟩ := a.shared hshared
    · exact .inl ⟨th, mem_singleton_self _, hold⟩
    · rw [hthreads]
      exact .inr (forall_mem_set (fun _ => hself) hnone)
  case exclusive =>
    refine forall_mem_singleton.mpr fun hexclusive => ?_
    obtain ⟨hself, hold | hnone⟩ := a.exclusive hexclusive
    · exact .inl ⟨th, mem_singleton_self _, hold⟩
    · rw [hthreads]
      exact .inr (forall_mem_set (fun _ => hself) hnone)

theorem Act.follows (hwoken : ∀ q ∈ s.woken, q ∈ s'.woken)
    (hround : ∀ R, s.round = some R → ∃ R', s'.round = some R' ∧ R'.wakes = R.wakes)
    (hnoting : th.noting → th'.noting ∨ th.range ∈ s'.woken) (q : RangeID) : Follows s s' q := by
  have hR : s'.ranges th.range = R' := by rw [hranges, update_self]
  apply (a.move hi hranges hthreads hgroup).follows hgroup hwoken hround
  · rw [hR]
    intro hreg
    exact (a.registered hreg).imp id fun hn => ⟨th', mem_singleton_self _, hn⟩
  · refine forall_mem_singleton.mpr fun hn => ?_
    exact (hnoting hn).imp (fun hn' => ⟨th', mem_singleton_self _, hn'⟩) id

theorem Inv.act (h : Inv s) (hwoken : ∀ q ∈ s.woken, q ∈ s'.woken)
    (hround : ∀ R, s.round = some R → ∃ R', s'.round = some R' ∧ R'.wakes = R.wakes)
    (hnoting : th.noting → th'.noting ∨ th.range ∈ s'.woken)
    (hroundOk : RoundOk (s.threads.set i th') s'.round s.groupTS)
    (hlogged : Keeps s s' → ∀ p T, R'.log[p]? = some (.closed T) →
      (s.ranges th.range).log[p]? = some (.closed T) ∨ s'.Covers th.range p T)
    (hok : Keeps s s' → (∀ q, Follows s s' q) → ThreadOk s' th') (hrep : s'.replicas = s.replicas)
    (hstream : Keeps s s' → (∀ q, Follows s s' q) → StreamOk s' s'.known s'.stream) : Inv s' := by
  have m := a.move hi hranges hthreads hgroup
  have f := a.follows hi hranges hthreads hgroup hwoken hround hnoting
  apply h.move m (a.order hranges hthreads)
  · rw [hthreads, hgroup]
    exact hroundOk
  · rw [hranges, update_self]
    exact hlogged m.keeps
  · exact m.threads h f (forall_mem_singleton.mpr (hok m.keeps f))
  · exact hrep
  · exact hstream m.keeps f

end Act

section Rounds
variable {threads : List Thread} {round : Option Round} {groupTS : Timestamp} {i : Nat}
  {th th' : Thread}

theorem getElem?_set_cases {j : Nat} {x : Thread} (hi : threads[i]? = some th)
    (hx : (threads.set i th')[j]? = some x) : (j = i ∧ x = th') ∨ threads[j]? = some x := by
  by_cases hij : i = j
  · subst hij
    rw [List.getElem?_set_self (List.getElem?_eq_some_iff.mp hi).1] at hx
    exact .inl ⟨rfl, (Option.some.inj hx).symm⟩
  · rw [getElem?_set_ne hij] at hx
    exact .inr hx

section
variable (h : RoundOk threads round groupTS)
include h

theorem RoundOk.not_registers
    (hnone : ∀ R, round = some R → R.registering = false) :
    ∀ th ∈ threads, th.registers = false := by
  intro th hth
  cases hr : th.registers with
  | false => rfl
  | true =>
    obtain ⟨R, hR, hreg⟩ := h.active th hth hr
    simp [hnone R hR] at hreg

theorem RoundOk.unregistered {round' : Option Round} {groupTS' : Timestamp}
    (hfree : ∀ th ∈ threads, th.registers = false)
    (htarget : ∀ R, round' = some R → R.target ≤ groupTS' ∧ (R.registering = true → R.wakes = [])) :
    RoundOk threads round' groupTS' where
  unique := h.unique
  active := fun th hth hr => absurd hr (by rw [hfree th hth]; exact Bool.false_ne_true)
  target := htarget

theorem RoundOk.set (hi : threads[i]? = some th)
    (hreg : th'.registers = true → th.registers = true) :
    RoundOk (threads.set i th') round groupTS := { h with
  unique := by
    have hold : ∀ (j : Nat) (x : Thread), (threads.set i th')[j]? = some x → x.registers = true →
        ∃ y, threads[j]? = some y ∧ y.registers = true := by
      intro j x hx hr
      rcases getElem?_set_cases hi hx with ⟨rfl, rfl⟩ | hx
      · exact ⟨th, hi, hreg hr⟩
      · exact ⟨x, hx, hr⟩
    intro j k x y hx hy hrx hry
    obtain ⟨x', hx', hrx'⟩ := hold j x hx hrx
    obtain ⟨y', hy', hry'⟩ := hold k y hy hry
    exact h.unique j k x' y' hx' hy' hrx' hry'
  active := forall_mem_set (fun hr => h.active th (mem_of_getElem? hi) (hreg hr)) h.active }

theorem RoundOk.endRegistration (hi : threads[i]? = some th)
    (hreg : th.registers = true) (hend : th'.registers = false) :
    RoundOk (threads.set i th') (round.map fun R => { R with registering := false }) groupTS where
  unique := (h.set hi fun hr => absurd hr (by rw [hend]; exact Bool.false_ne_true)).unique
  active := by
    intro x hx hr
    obtain ⟨j, hj⟩ := mem_iff_getElem?.mp hx
    rcases getElem?_set_cases hi hj with ⟨_, rfl⟩ | hj'
    · simp [hend] at hr
    have hji := h.unique j i x th hj' hi hr hreg
    subst hji
    rw [List.getElem?_set_self (List.getElem?_eq_some_iff.mp hi).1] at hj
    cases hj
    simp [hend] at hr
  target := by
    intro R hR
    obtain ⟨R', hR', rfl⟩ := Option.map_eq_some_iff.mp hR
    exact ⟨(h.target R' hR').1, fun hc => nomatch hc⟩

theorem RoundOk.append (hreg : th.registers = false) : RoundOk (threads ++ [th]) round groupTS where
  unique := by
    have hold : ∀ (j : Nat) (x : Thread), (threads ++ [th])[j]? = some x → x.registers = true →
        threads[j]? = some x := by
      intro j x hx hr
      rcases Nat.lt_or_ge j threads.length with hlt | hge
      · rw [getElem?_append_left hlt] at hx
        exact hx
      · rw [getElem?_append_right hge] at hx
        have hmem := mem_singleton.mp (mem_of_getElem? hx)
        simp [hmem, hreg] at hr
    intro j k x y hx hy hrx hry
    exact h.unique j k x y (hold j x hx hrx) (hold k y hy hry) hrx hry
  active := by
    intro x hx hr
    rcases mem_append.mp hx with hx | hx
    · exact h.active x hx hr
    · simp [mem_singleton.mp hx, hreg] at hr
  target := h.target

theorem RoundOk.register {R : Round} (hround : round = some R) (hnone : R.registering = false)
    (hwakes : R.wakes = []) (dests : Bool) :
    RoundOk (threads ++ [th]) (some { R with dests := dests, registering := true }) groupTS where
  unique := by
    have hno := h.not_registers (by simp [hround, hnone])
    have hlast : ∀ (j : Nat) (x : Thread), (threads ++ [th])[j]? = some x → x.registers = true →
        j = threads.length := by
      intro j x hx hr
      rcases Nat.lt_trichotomy j threads.length with hlt | heq | hgt
      · rw [getElem?_append_left hlt] at hx
        simp [hno x (mem_of_getElem? hx)] at hr
      · exact heq
      · rw [getElem?_append_right hgt.le, getElem?_singleton, if_neg (by omega)] at hx
        cases hx
    intro j k x y hx hy hrx hry
    rw [hlast j x hx hrx, hlast k y hy hry]
  active := fun _ _ _ => ⟨_, rfl, rfl⟩
  target := by
    intro R' hR'
    cases hR'
    exact ⟨(h.target R hround).1, fun _ => hwakes⟩

end

end Rounds

section Phase
variable {s : Stores} {i : Nat} {th : Thread} {p : Phase}

theorem Thread.exclusive_of_shared (th : Thread) (h : th.shared = true) : th.exclusive = false := by
  unfold shared at h
  split at h
  · rename_i hp
    rw [exclusive, hp]
  · rename_i hp
    rw [exclusive, hp]
  · cases h

theorem Thread.shared_of_exclusive (th : Thread) (h : th.exclusive = true) : th.shared = false := by
  cases hs : th.shared with
  | false => rfl
  | true =>
    simp [th.exclusive_of_shared hs] at h

theorem Act.self (hl : LeaderOk s.ranges s.threads) : Act s th th (s.ranges th.range) := by
  constructor
  case range => rfl
  case floor | last => exact le_refl _
  case bounds => exact hl.bounds _
  case asleep => exact hl.asleep _
  case quiet => exact id
  case sleep | waking | registered => exact .inl
  case wake => exact fun w hw => .inl ⟨w, hw, le_refl _⟩
  case log => exact fun _ _ => .inl
  case pending => exact fun _ => .inl
  case unstable =>
    intro j t hj hlog
    by_cases hphase : th.phase = .appended (.write t) j
    · exact .inr hphase
    · exact .inl ⟨hj, hlog, hphase⟩
  case shared => exact fun hs => ⟨th.exclusive_of_shared hs, .inl hs⟩
  case exclusive => exact fun he => ⟨th.shared_of_exclusive he, .inl he⟩

section
variable (hl : LeaderOk s.ranges s.threads) {th' : Thread} (hth' : th' = { th with phase := p })
include hl hth'

theorem Act.phase
    (hpending : ∀ t, th'.pending = some t →
      th.pending = some t ∨ (s.Awake th.range ∧ s.floor th.range < t))
    (happended : ∀ t j, th.phase = .appended (.write t) j →
      j < (s.ranges th.range).lastIndex ∨ p = .appended (.write t) j)
    (hshared : th'.shared = true → th'.exclusive = false ∧
      (th.shared = true ∨ ∀ o ∈ s.threads, o.range = th.range → o.exclusive = false))
    (hexclusive : th'.exclusive = true → th'.shared = false ∧
      (th.exclusive = true ∨ ∀ o ∈ s.threads, o.range = th.range → o.shared = false)) :
    Act s th th' (s.ranges th.range) := by
  subst hth'
  have base : Act s th th (s.ranges th.range) := Act.self hl
  refine { base with
    pending := hpending, unstable := ?_, shared := hshared, exclusive := hexclusive }
  intro j t hj hlog
  refine (base.unstable j t hj hlog).imp id fun hphase => ?_
  rcases happended t j hphase with hlt | hp
  · omega
  · exact hp

theorem Act.unlatched (hexclusive : th.exclusive = false) (hpending : th'.pending = none)
    (hshared' : th'.shared = false) (hexclusive' : th'.exclusive = false) :
    Act s th th' (s.ranges th.range) := by
  apply Act.phase hl hth'
  · simp [hpending]
  · intro t j happ
    simp [Thread.exclusive, happ] at hexclusive
  · simp [hshared']
  · simp [hexclusive']

end

end Phase

end Datax.ClosedTs
