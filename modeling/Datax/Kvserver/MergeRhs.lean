import Datax.Kvserver.MergeInvariant

/-!
# The right-hand log keeps the freeze

An entry that leaves the end of a frozen log as it is leaves every trigger's freeze standing; an
unfreeze comes when every trigger is past.
-/

namespace Datax.Merging

open Function List Cluster

variable {s : Cluster} {trig : MergeTrigger}

section RhsLog

variable {k : Nat}

theorem rhsAt_appendRhs (e : RhsEntry) (hk : k ≤ s.rhsLog.length) :
    (s.appendRhs e).rhsAt k = s.rhsAt k := Replay.stateAt_append [e] hk

theorem rhsAt_appendRhs_gt (e : RhsEntry) (hk : s.rhsLog.length < k) :
    (s.appendRhs e).rhsAt k = (s.rhsAt s.rhsLog.length).apply e := Replay.stateAt_concat e hk

variable {e : RhsEntry}

theorem getElem?_appendRhs_of_some {x : RhsEntry} (h : s.rhsLog[k]? = some x) :
    (s.appendRhs e).rhsLog[k]? = some x := by
  obtain ⟨hlt, hget⟩ := List.getElem?_eq_some_iff.mp h
  change (s.rhsLog ++ [e])[k]? = some x
  rw [getElem?_append_left hlt]
  exact h

theorem RhsInv.appendRhs (h : RhsInv s)
    (hchange : ∀ c, e = .change c → Distinct c.desc ∧ (s.rhsAt s.rhsLog.length).frozen = false) :
    RhsInv (s.appendRhs e) := by
  have hlen : (s.appendRhs e).rhsLog.length = s.rhsLog.length + 1 := length_append
  constructor
  case first => exact h.first
  case entries =>
    intro c hc
    rcases mem_append.mp hc with hc | hc
    · exact h.entries c hc
    · exact (hchange c (mem_singleton.mp hc).symm).1
  case quiet =>
    intro k c hk
    change (s.rhsLog ++ [e])[k]? = some _ at hk
    rcases Nat.lt_trichotomy k s.rhsLog.length with hlt | rfl | hgt
    · rw [getElem?_append_left hlt] at hk
      rw [rhsAt_appendRhs e hlt.le]
      exact h.quiet k c hk
    · rw [getElem?_concat_length] at hk
      rw [rhsAt_appendRhs e le_rfl]
      exact (hchange c (Option.some.inj hk)).2
    · rw [getElem?_eq_none_iff.mpr (by rw [length_append, length_singleton]; omega)] at hk
      cases hk
  case changes =>
    intro p hp
    obtain ⟨hle, hfrozen, hdistinct⟩ := h.changes p hp
    refine ⟨by omega, ?_, hdistinct⟩
    rw [rhsAt_appendRhs e hle]
    exact hfrozen
  case reach =>
    intro n
    have := h.reach n
    change s.rhs n ≤ _
    omega

theorem Held.appendRhs (h : s.Held trig) (hreach : trig.rightAppliedIndex ≤ s.rhsLog.length)
    (hkeep : (s.rhsAt s.rhsLog.length).apply e = s.rhsAt s.rhsLog.length) :
    (s.appendRhs e).Held trig := by
  intro k hk
  rcases Nat.lt_or_ge s.rhsLog.length k with hlt | hle
  · rw [rhsAt_appendRhs_gt e hlt, hkeep]
    exact h _ hreach
  · rw [rhsAt_appendRhs e hle]
    exact h k hk

theorem MergeInv.appendRhs (h : MergeInv s) (hkeep : ∀ trig ∈ s.triggers, s.Held trig →
      (s.rhsAt s.rhsLog.length).apply e = s.rhsAt s.rhsLog.length ∨ s.Past trig) :
    MergeInv (s.appendRhs e) := by
  have hlen : (s.appendRhs e).rhsLog.length = s.rhsLog.length + 1 := length_append
  refine { h with triggers := ?_, drivers := ?_ }
  · intro trig ht
    have hbuilt := h.triggers trig ht
    have hreach := hbuilt.reach
    refine { hbuilt with reach := by omega, stands := ?_ }
    rcases hbuilt.stands with hheld | hpast
    · rcases hkeep trig ht hheld with hk | hpast
      · exact .inl (Held.appendRhs hheld hreach hk)
      · exact .inr hpast
    · exact .inr hpast
  · intro d hd
    obtain ⟨hsub, htrig⟩ := h.drivers d hd
    exact ⟨getElem?_appendRhs_of_some hsub, htrig⟩

theorem Inv.appendRhs (h : Inv s)
    (hchange : ∀ c, e = .change c → Distinct c.desc ∧ (s.rhsAt s.rhsLog.length).frozen = false)
    (hkeep : ∀ trig ∈ s.triggers, s.Held trig →
      (s.rhsAt s.rhsLog.length).apply e = s.rhsAt s.rhsLog.length ∨ s.Past trig) :
    Inv (s.appendRhs e) :=
  ⟨h.rhs.appendRhs hchange, { h.lhs with }, h.merge.appendRhs hkeep⟩

theorem frozen_of_held (h : s.Held trig)
    (hreach : trig.rightAppliedIndex ≤ s.rhsLog.length) :
    (s.rhsAt s.rhsLog.length).frozen = true := by
  rw [h _ hreach]

theorem Inv.appendChange (h : Inv s) {p : Proposal} (hp : p ∈ s.changes)
    (hno : ∀ e ∈ s.rhsLog.drop p.seen, e.isSubsume = false) :
    Inv (s.appendRhs (.change p.change)) := by
  obtain ⟨hle, hfrozen, hdistinct⟩ := h.rhs.changes p hp
  have hend := not_frozen_of_no_subsume hfrozen hno hle
  apply h.appendRhs
  · rintro c hc
    cases hc
    exact ⟨hdistinct, hend⟩
  · intro trig ht hheld
    simp [frozen_of_held hheld (h.merge.triggers trig ht).reach] at hend

theorem Inv.appendQuiet (h : Inv s) (he : e = .subsume ∨ e = .command) : Inv (s.appendRhs e) := by
  apply h.appendRhs
  · rintro c rfl
    rcases he with he | he <;> cases he
  intro trig ht hheld
  have hfrozen := frozen_of_held hheld (h.merge.triggers trig ht).reach
  apply Or.inl
  apply apply_eq_self_of_frozen hfrozen
  · rcases he with rfl | rfl <;> rfl
  · rintro c rfl
    rcases he with he | he <;> cases he

theorem Inv.appendUnfreeze (h : Inv s) (hmerged : ∀ x ∈ s.outcomes, x.2.2.isAbsorbed = false)
    (hpast : ∀ trig ∈ s.triggers, ∃ d ∈ s.lhsDescs, trig.left.generation < d.generation) :
    Inv (s.appendRhs .unfreeze) := by
  apply h.appendRhs
  · simp
  intro trig ht _
  apply Or.inr
  obtain ⟨d, hd, hlt⟩ := hpast trig ht
  obtain ⟨n, k, hk, rfl⟩ := h.merge.descs d hd
  have happlied := (h.lhs.replicas n).1
  have hend := (h.lhs.later (le_trans hk happlied)).1
  refine ⟨by omega, ?_⟩
  intro i hi hgen
  have hacc : s.Accepts i trig := ⟨hi, hgen⟩
  have hik : i < k := by
    by_contra hge
    have := (h.lhs.later (not_lt.mp hge)).1
    omega
  obtain ⟨m, hm⟩ := h.merge.recorded i trig n hacc (by omega)
  have hno := hmerged _ hm
  cases hno

end RhsLog

variable {n : NodeID} {st : RhsState}

section Rhs

theorem Inv.setChanges (h : Inv s) {cs : List Proposal}
    (hcs : ∀ p ∈ cs, p.seen ≤ s.rhsLog.length ∧ (s.rhsAt p.seen).frozen = false ∧
      Distinct p.change.desc) :
    Inv { s with changes := cs } :=
  ⟨{ h.rhs with changes := hcs }, { h.lhs with },
    { h.merge with triggers := fun t ht => { h.merge.triggers t ht with } }⟩

theorem Inv.setUnfreezing (h : Inv s) (u : Nat) : Inv { s with unfreezing := u } :=
  ⟨{ h.rhs with }, { h.lhs with },
    { h.merge with triggers := fun t ht => { h.merge.triggers t ht with } }⟩

theorem Inv.setDrivers (h : Inv s) {ds : List Driver} (hds : ∀ d ∈ ds, Driving s d) :
    Inv { s with drivers := ds } :=
  ⟨{ h.rhs with }, { h.lhs with },
    { h.merge with triggers := fun t ht => { h.merge.triggers t ht with }, drivers := hds }⟩

theorem rhsReplica_eq_some (h : s.rhsReplica n = some st) :
    st = s.rhsAt (s.rhs n) ∧ s.detached n = false ∧ n ∈ nodes st.desc := by
  simp only [Cluster.rhsReplica] at h
  split_ifs at h with hc
  cases h
  exact ⟨rfl, hc⟩

theorem Inv.admin (h : Inv s) {req : AdminRequest} {c : RangeChange}
    (hst : s.rhsReplica n = some st) (hbuild : req.build st.frozen n st.desc = some c) :
    Inv { s with changes := ⟨c, s.rhs n⟩ :: s.changes } := by
  obtain ⟨rfl, _, _⟩ := rhsReplica_eq_some hst
  apply h.setChanges
  refine forall_mem_cons.mpr ⟨?_, h.rhs.changes⟩
  exact ⟨h.rhs.reach n, build_frozen hbuild, build_distinct hbuild (h.rhs.distinct _)⟩

theorem Inv.applyRhs (h : Inv s) (hn : s.rhs n < s.rhsLog.length) :
    Inv { s with rhs := Function.update s.rhs n (s.rhs n + 1) } := by
  have hmono : ∀ m, s.rhs m ≤ Function.update s.rhs n (s.rhs n + 1) m := by
    intro m
    by_cases hm : m = n
    · subst hm
      rw [update_self]
      omega
    · rw [update_of_ne hm]
  refine ⟨{ h.rhs with reach := ?_ }, { h.lhs with },
    { h.merge with
    triggers := fun t ht => { h.merge.triggers t ht with }, logged := ?_, drivers := ?_ }⟩
  · intro m
    by_cases hm : m = n
    · subst hm
      dsimp only
      rw [update_self]
      exact hn
    · dsimp only
      rw [update_of_ne hm]
      exact h.rhs.reach m
  · intro trig ht
    obtain ⟨hmem, hreach⟩ := h.merge.logged trig ht
    exact ⟨hmem, fun m hm => le_trans (hreach m hm) (hmono m)⟩
  · intro d hd
    obtain ⟨hsub, htrig⟩ := h.merge.drivers d hd
    refine ⟨hsub, ?_⟩
    intro trig ht
    obtain ⟨hmem, hwait⟩ := htrig trig ht
    refine ⟨hmem, fun m hm => ?_⟩
    rcases hwait m hm with hw | hr
    · exact .inl hw
    · exact .inr (le_trans hr (hmono m))

end Rhs

section Drive

variable {i : Nat}

theorem Inv.applied_le_of_accepts (h : Inv s) (hacc : s.Accepts i trig) (hn : n ∈ nodes trig.right)
    (hattached : s.detached n = false) : (s.lhs n).applied ≤ i := by
  by_contra hgt
  have hdet := h.merge.passed i trig n hacc (not_le.mp hgt) ((h.mem_nodes_iff hacc n).mpr hn)
  simp [hattached] at hdet

variable {d : Driver}

theorem reread_eq_some (h : s.reread d = some trig) : ∃ st, s.rhsReplica d.node = some st ∧
      adminMergeTrigger (s.lhs d.node).desc st.desc
        { appliedIndex := s.rhs d.node } = .ok trig := by
  unfold Cluster.reread at h
  split at h
  · cases h
  · rename_i st hst
    exact ⟨st, hst, Fallible.ok_of_toOption h⟩

theorem Inv.built_reread (h : Inv s) (hd : d ∈ s.drivers) (hsub : d.subsumed < s.rhs d.node)
    (hre : s.reread d = some trig) (hno : ∀ e ∈ s.rhsLog.drop d.subsumed, e.isUnfreeze = false)
    (hsame : sameNodeSet trig.left.replicas trig.right.replicas = true) :
    Built s trig ∧ trig.rightAppliedIndex = s.rhs d.node ∧
      ∀ i other, s.Accepts i other → trig.left.generation ≤ other.left.generation := by
  obtain ⟨st, hst, htrig⟩ := reread_eq_some hre
  obtain ⟨rfl, hattached, hmem⟩ := rhsReplica_eq_some hst
  obtain ⟨_, hleft, hright, hreplicas, hend, hgen, hindex⟩ := adminMergeTrigger_ok htrig
  have hlog := (h.merge.drivers d hd).1
  have hconst : ∀ k, d.subsumed < k →
      (s.rhsAt k).frozen = true ∧ s.rhsAt k = s.rhsAt (d.subsumed + 1) :=
    fun k hk => h.rhs.constant_after_subsume hlog hno hk
  have hheld : s.Held trig := by
    intro k hk
    have hk' : d.subsumed < k := by
      rw [hindex] at hk
      exact lt_of_lt_of_le hsub hk
    rw [(hconst k hk').2, ← (hconst _ hsub).2, hright]
    have hfrozen := (hconst _ hsub).1
    generalize s.rhsAt (s.rhs d.node) = st at hfrozen
    cases st
    cases hfrozen
    rfl
  refine ⟨⟨⟨_, (h.lhs.replicas d.node).1, ?_⟩, hsame, ?_, ?_, ?_, ?_, ?_, .inl hheld⟩, hindex, ?_⟩
  · rw [hleft]
    exact (h.lhs.replicas d.node).2.symm
  · rw [hright]
    exact h.rhs.distinct _
  · rw [hend, hright]
  · rw [hreplicas, hleft]
  · rw [hgen, hleft]
    omega
  · rw [hindex]
    exact h.rhs.reach d.node
  intro i other hacc
  have hnode : d.node ∈ nodes other.right := by
    have hheld' := h.merge.held hacc
    have hk : d.subsumed < max (s.rhs d.node) other.rightAppliedIndex :=
      lt_of_lt_of_le hsub (le_max_left _ _)
    have heq : s.rhsAt (s.rhs d.node) = ⟨other.right, true⟩ := by
      rw [(hconst _ hsub).2, ← (hconst _ hk).2]
      exact hheld' _ (le_max_right _ _)
    rw [heq] at hmem
    exact hmem
  have hle := h.applied_le_of_accepts hacc hnode hattached
  have hlater := (h.lhs.later hle).1
  rw [hleft, (h.lhs.replicas d.node).2, ← hacc.2]
  exact hlater

theorem Inv.reread (h : Inv s) (hd : s.drivers[i]? = some d) (hsub : d.subsumed < s.rhs d.node)
    (hre : s.reread d = some trig) (hno : ∀ e ∈ s.rhsLog.drop d.subsumed, e.isUnfreeze = false)
    (hsame : sameNodeSet trig.left.replicas trig.right.replicas = true) : Inv { s with
      drivers := s.drivers.set i
        { d with trig := some trig, waiting := (nodes trig.right).filter fun n => n != d.node }
      triggers := trig :: s.triggers } := by
  have hmem := mem_of_getElem? hd
  obtain ⟨hbuilt, hindex, hnewest⟩ := h.built_reread hmem hsub hre hno hsame
  refine ⟨{ h.rhs with }, { h.lhs with },
    { h.merge with triggers := ?_, logged := ?_, drivers := ?_, newest := ?_ }⟩
  · intro t ht
    rcases mem_cons.mp ht with rfl | ht
    · exact { hbuilt with }
    · exact { h.merge.triggers t ht with }
  · intro t ht
    obtain ⟨hmem, hreach⟩ := h.merge.logged t ht
    exact ⟨mem_cons_of_mem _ hmem, hreach⟩
  · intro d' hd'
    rcases mem_or_eq_of_mem_set hd' with hd' | rfl
    · obtain ⟨hs', ht'⟩ := h.merge.drivers d' hd'
      refine ⟨hs', fun t ht => ?_⟩
      obtain ⟨hmem, hwait⟩ := ht' t ht
      exact ⟨mem_cons_of_mem _ hmem, hwait⟩
    · refine ⟨(h.merge.drivers d hmem).1, fun t ht => ?_⟩
      cases ht
      refine ⟨mem_cons_self, fun n hn => ?_⟩
      by_cases hself : n = d.node
      · subst hself
        exact .inr hindex.le
      · exact .inl (mem_filter.mpr ⟨hn, by simpa using hself⟩)
  · intro j t hacc
    exact forall_mem_cons.mpr ⟨hnewest j t hacc, h.merge.newest j t hacc⟩

theorem Inv.confirm (h : Inv s) {rest : List NodeID} (hd : s.drivers[i]? = some d)
    (htrig : d.trig = some trig) (hwait : d.waiting = n :: rest)
    (hreach : trig.rightAppliedIndex ≤ s.rhs n) :
    Inv { s with drivers := s.drivers.set i { d with waiting := rest } } := by
  apply h.setDrivers
  intro d' hd'
  rcases mem_or_eq_of_mem_set hd' with hd' | rfl
  · exact h.merge.drivers d' hd'
  obtain ⟨hsub, hold⟩ := h.merge.drivers d (mem_of_getElem? hd)
  refine ⟨hsub, fun t ht => ?_⟩
  obtain ⟨hmem, hw⟩ := hold t ht
  refine ⟨hmem, fun m hm => ?_⟩
  have heq : t = trig := Option.some.inj (ht.symm.trans htrig)
  subst heq
  rcases hw m hm with hw | hr
  · rw [hwait] at hw
    rcases mem_cons.mp hw with rfl | hw
    · exact .inr hreach
    · exact .inl hw
  · exact .inr hr

end Drive

end Datax.Merging
