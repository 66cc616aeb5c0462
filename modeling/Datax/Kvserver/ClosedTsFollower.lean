import Datax.Kvserver.ClosedTsRounds

/-!
# The follower

A follower takes a promise from the log, from an update for the range, or from the
group promise for a range it holds registered; each is covered when it comes.
-/

namespace Datax.ClosedTs

open AList List Stores

variable {s s' : Stores} {r : RangeID} {F : FollowerRange} {T : Timestamp}

section Follower

theorem Inv.follower (h : Inv s) (hranges : s'.ranges = s.ranges)
    (hthreads : s'.threads = s.threads) (hgroup : s'.groupTS = s.groupTS)
    (hwoken : s'.woken = s.woken) (hround : s'.round = s.round)
    (hclosed : ∀ r, s.Covers r (s'.replicas r).applied (s'.replicas r).closedTS)
    (hside : ∀ r, s.Covers r (s'.replicas r).applied (s'.replicas r).sideClosedTS)
    (hstream : StreamOk s s'.known s'.stream) : Inv s' := by
  have m : Move s s' 0 [] [] := move_idle hranges hthreads hgroup.ge
  have f : ∀ q, Follows s s' q := by
    apply m.follows hgroup
    · rw [hwoken]
      exact fun _ hq => hq
    · rw [hround]
      exact fun R hR => ⟨R, hR, rfl⟩
    · rw [hranges]
      exact .inl
    · simp
  constructor
  case leader => exact (order_idle h hranges).leader m h.leader
  case round =>
    rw [hthreads, hround, hgroup]
    exact h.round
  case logged =>
    rw [hranges]
    exact fun r p T hp => (h.logged r p T hp).keep m.keeps
  case threads => exact m.threads h f fun th hth => nomatch hth
  case closed => exact fun r => (hclosed r).keep m.keeps
  case side => exact fun r => (hside r).keep m.keeps
  case stream => exact hstream.keep m.keeps f h.leader

theorem Inv.setReplica (h : Inv s) (hclosed : s.Covers r F.applied F.closedTS)
    (hside : s.Covers r F.applied F.sideClosedTS)
    (hs' : s' = { s.setReplica r F with reg := s'.reg, handling := s'.handling })
    (hstream : StreamOk s s'.known s'.stream) : Inv s' := by
  have hrep : s'.replicas = Function.update s.replicas r F := by rw [hs']; rfl
  apply h.follower
  case hranges | hthreads | hgroup | hwoken | hround => rw [hs']; rfl
  case hclosed =>
    rw [hrep]
    exact (Function.forall_update_iff s.replicas fun q F => s.Covers q F.applied F.closedTS).mpr
      ⟨hclosed, fun q _ => h.closed q⟩
  case hside =>
    rw [hrep]
    exact (Function.forall_update_iff s.replicas fun q F => s.Covers q F.applied F.sideClosedTS).mpr
      ⟨hside, fun q _ => h.side q⟩
  case hstream => exact hstream

theorem Inv.applyFollower (h : Inv s) {c : Command}
    (hc : (s.ranges r).log[(s.replicas r).applied]? = some c) :
    Inv (s.setReplica r ((s.replicas r).apply c)) := by
  have hnext : ∀ {T}, s.Covers r (s.replicas r).applied T →
      s.Covers r ((s.replicas r).applied + 1) T :=
    fun h => h.mono (Nat.le_succ _) le_rfl
  refine h.setReplica ?_ ?_ rfl h.stream
  · cases c with
    | closed T => exact (hnext (h.closed r)).max (hnext (h.logged r _ T hc))
    | noop | write t => exact hnext (h.closed r)
  · cases c with
    | closed T | noop | write t => exact hnext (h.side r)

theorem covers_of_accept {F' : FollowerRange} {index : Nat}
    (ha : F.acceptClosedTimestamp index T = some F') (hclosed : s.Covers r F.applied F.closedTS)
    (hside : s.Covers r F.applied F.sideClosedTS) (hT : s.Covers r index T) :
    s.Covers r F'.applied F'.closedTS ∧ s.Covers r F'.applied F'.sideClosedTS := by
  unfold FollowerRange.acceptClosedTimestamp at ha
  split_ifs at ha with hok
  cases ha
  exact ⟨hclosed, hside.max (hT.mono hok.2 le_rfl)⟩

end Follower

variable {env : List Update}

section Network

theorem Inv.flush (h : Inv s) : Inv { s with queue := [], net := s.net ++ [s.queue] } := by
  have hstream : Stores.stream { s with queue := [], net := s.net ++ [s.queue] } = s.stream := by
    simp [Stores.stream]
  refine h.follower rfl rfl rfl rfl rfl h.closed h.side ?_
  rw [hstream]
  exact h.stream

theorem flatten_eraseIdx {α : Type} {l : List (List α)} {k : Nat} {x : List α}
    (h : l[k]? = some x) :
    l.flatten = (l.take k).flatten ++ (x ++ (l.drop (k + 1)).flatten) ∧
      (l.eraseIdx k).flatten = (l.take k).flatten ++ (l.drop (k + 1)).flatten := by
  obtain ⟨hk, rfl⟩ := List.getElem?_eq_some_iff.mp h
  constructor
  · rw [← flatten_cons, ← flatten_append, ← drop_eq_getElem_cons hk, take_append_drop]
  · rw [eraseIdx_eq_take_drop_succ, flatten_append]

theorem Inv.lose (h : Inv s) {k : Nat} (hk : s.net[k]? = some env)
    (hwake : ∀ u ∈ env, u.isWake = false) :
    Inv { s with net := s.net.eraseIdx k } := by
  obtain ⟨hall, hrest⟩ := flatten_eraseIdx hk
  refine h.follower rfl rfl rfl rfl rfl h.closed h.side ?_
  have hstream := h.stream
  unfold Stores.stream at hstream ⊢
  rw [hall] at hstream
  rw [hrest]
  have hsplit : s.handling.flatten ++
      ((s.net.take k).flatten ++ (env ++ (s.net.drop (k + 1)).flatten)) ++
      s.queue = (s.handling.flatten ++ (s.net.take k).flatten) ++
        (env ++ ((s.net.drop (k + 1)).flatten ++ s.queue)) := by simp
  rw [hsplit] at hstream
  have hjoin : s.handling.flatten ++
      ((s.net.take k).flatten ++ (s.net.drop (k + 1)).flatten) ++ s.queue =
      (s.handling.flatten ++ (s.net.take k).flatten) ++
        ((s.net.drop (k + 1)).flatten ++ s.queue) := by
    simp
  rw [hjoin]
  exact hstream.lose hwake

theorem Inv.deliver (h : Inv s) (hk : s.net[0]? = some env) :
    Inv { s with net := s.net.eraseIdx 0, handling := s.handling ++ [env] } := by
  obtain ⟨hall, hrest⟩ := flatten_eraseIdx hk
  have hstream : Stores.stream { s with net := s.net.eraseIdx 0, handling := s.handling ++ [env] } =
      s.stream := by
    simp only [Stores.stream, hall, hrest]
    simp
  refine h.follower rfl rfl rfl rfl rfl h.closed h.side ?_
  rw [hstream]
  exact h.stream

end Network

variable {known : Known} {us : List Update}

section Receive

theorem StreamOk.cons {u : Update} (h : StreamOk s known (u :: us)) :
    Claims s known u ∧ StreamOk s (learn known u) us :=
  ⟨(Runs.along_cons.mp h.claims).1, (Runs.along_cons.mp h.claims).2, h.left⟩

theorem StreamOk.members {rs : List RangeID}
    (hclaim : ∀ r index, known r index → s.Covers r index T) (h : StreamOk s known us) :
    StreamOk s known (rs.map (fun r => .member r T) ++ us) := by
  induction rs with
  | nil => exact h
  | cons r rs ih =>
    exact ⟨Runs.along_cons.mpr ⟨fun index hr => hclaim r index hr, ih.claims⟩, ih.left⟩

theorem erase_le_known (hs' : s'.reg = s.reg.erase r) :
    s'.known ≤ fun q index => q ≠ r ∧ s.known q index := by
  intro q index hq
  rw [Stores.known, hs'] at hq
  by_cases hqr : q = r
  · subst hqr
    simp [lookup_erase] at hq
  · rw [lookup_erase_ne hqr] at hq
    exact ⟨hqr, hq⟩

theorem Inv.receive (h : Inv s) {u : Update} {rest : List Update} {H : List (List Update)}
    (hH : s.handling = (u :: rest) :: H) (hastray : u.astray s = false) :
    Inv { (s.receive u).1 with handling := ((s.receive u).2 ++ rest) :: H } := by
  have hstream := h.stream
  have htail : s.stream = u :: (rest ++ H.flatten ++ s.net.flatten ++ s.queue) := by
    simp [Stores.stream, hH]
  rw [htail] at hstream
  obtain ⟨hclaim, hstream⟩ := hstream.cons
  have hrest : ∀ (us : List Update), (((us ++ rest) :: H).flatten ++ s.net.flatten ++ s.queue) =
      us ++ (rest ++ H.flatten ++ s.net.flatten ++ s.queue) := by
    intro us
    simp
  have hside := h.side
  have hclosed := h.closed
  cases u with
  | wake r =>
    refine h.follower rfl rfl rfl rfl rfl hclosed hside ?_
    exact (congrArg (StreamOk s _) (hrest [])).mpr (hstream.anti (erase_le_known rfl))
  | group T =>
    refine h.follower rfl rfl rfl rfl rfl hclosed hside ?_
    exact (congrArg (StreamOk s _) (hrest _)).mpr (hstream.members hclaim)
  | promise r index T asleep =>
    cases ha : (s.replicas r).acceptClosedTimestamp index T with
    | none =>
      have hout : s.receive (.promise r index T asleep) = (s, []) := by
        simp only [Stores.receive, ha]
      rw [hout]
      refine h.follower rfl rfl rfl rfl rfl hclosed hside ?_
      exact (congrArg (StreamOk s _) (hrest [])).mpr (hstream.anti fun q i hq => .inl hq)
    | some F =>
      obtain ⟨hc, hs⟩ := covers_of_accept ha (hclosed r) (hside r) hclaim
      by_cases hpos : 0 < index
      · have hout : s.receive (.promise r index T asleep) =
            ({ s.setReplica r F with reg := s.reg.insert r (index, asleep) }, []) := by
          simp only [Stores.receive, ha, if_pos hpos]
          rfl
        rw [hout]
        refine h.setReplica hc hs rfl ?_
        refine (congrArg (StreamOk s _) (hrest [])).mpr (hstream.anti ?_)
        intro q i hq
        by_cases hqr : q = r
        · subst hqr
          have heq := (lookup_insert s.reg).symm.trans hq
          cases heq
          exact .inr ⟨rfl, rfl, rfl⟩
        · exact .inl ((lookup_insert_ne hqr).symm.trans hq)
      · have hout : s.receive (.promise r index T asleep) = (s.setReplica r F, []) := by
          simp only [Stores.receive, ha, if_neg hpos]
        rw [hout]
        refine h.setReplica hc hs rfl ?_
        exact (congrArg (StreamOk s _) (hrest [])).mpr (hstream.anti fun q i hq => .inl hq)
  | member r T =>
    cases hlook : s.reg.lookup r with
    | none =>
      have hout : s.receive (.member r T) = (s, []) := by simp only [Stores.receive, hlook]
      rw [hout]
      refine h.follower rfl rfl rfl rfl rfl hclosed hside ?_
      exact (congrArg (StreamOk s _) (hrest [])).mpr hstream
    | some entry =>
      obtain ⟨index, asleep⟩ := entry
      have hknown : s.known r index := by
        simp only [Update.astray, hlook, Option.any_some, Bool.not_eq_false'] at hastray
        rw [Stores.known, hlook, hastray]
      cases ha : (s.replicas r).acceptClosedTimestamp index T with
      | none =>
        have hout : s.receive (.member r T) = ({ s with reg := s.reg.erase r }, []) := by
          simp only [Stores.receive, hlook, ha]
        rw [hout]
        refine h.follower rfl rfl rfl rfl rfl hclosed hside ?_
        refine (congrArg (StreamOk s _) (hrest [])).mpr (hstream.anti ?_)
        exact fun q i hq => (erase_le_known (s := s) rfl q i hq).2
      | some F =>
        have hout : s.receive (.member r T) = (s.setReplica r F, []) := by
          simp only [Stores.receive, hlook, ha]
        rw [hout]
        obtain ⟨hc, hs⟩ := covers_of_accept ha (hclosed r) (hside r) (hclaim index hknown)
        refine h.setReplica hc hs rfl ?_
        exact (congrArg (StreamOk s _) (hrest [])).mpr hstream

end Receive

end Datax.ClosedTs
