import Datax.Kvserver.MergeLhs

/-!
# Every node merges the same range

In every run free of the races `unraced` names, no split or membership change applies to a frozen
range, and a merge trigger meets one fate on all nodes. A change whose frozen test came before the
subsume breaks both: it reaches the log behind the freeze, and the nodes that apply it first refuse
the merge the others took.
-/

namespace Datax.Merging

open Bool List Cluster

/-- No split or membership change takes effect while the range is frozen. -/
def FreezeHolds (s : Cluster) : Prop :=
  ∀ k c, s.rhsLog[k]? = some (.change c) → (s.rhsAt k).frozen = true →
    c.stage (s.rhsAt k).desc = none

/-- Nodes that have applied the trigger at one index took the same branch, and the
same range where they absorbed it; none found itself without a replica. -/
def MergesAgree (s : Cluster) : Prop :=
  ∀ x ∈ s.outcomes, x.2.2 ≠ .missing ∧ ∀ y ∈ s.outcomes, x.2.1 = y.2.1 → x.2.2 = y.2.2

variable {s : Cluster}

theorem Inv.freezeHolds (h : Inv s) : FreezeHolds s := by
  intro k c hc hfrozen
  simp [h.rhs.quiet k c hc] at hfrozen

theorem Inv.mergesAgree (h : Inv s) : MergesAgree s := by
  intro x hx
  obtain ⟨trig, htrig, hout⟩ := h.merge.outcomes x hx
  constructor
  · rw [hout]
    split
    · simp
    · simp
  · intro y hy hxy
    obtain ⟨trig', htrig', hout'⟩ := h.merge.outcomes y hy
    rw [← hxy] at htrig' hout'
    have heq := htrig.symm.trans htrig'
    cases heq
    rw [hout, hout']

theorem inv_start {lhs rhs : RangeDescriptor} (hl : Distinct lhs) (hr : Distinct rhs) :
    Inv (Cluster.start lhs rhs) where
  rhs :=
    { first := hr
      entries := fun _ hc => nomatch hc
      quiet := fun _ _ hc => nomatch hc
      changes := fun _ hp => nomatch hp
      reach := fun _ => le_refl _ }
  lhs :=
    { first := hl
      entries := fun _ hc => nomatch hc
      merges := fun _ hc => nomatch hc
      changes := fun _ hp => nomatch hp
      replicas := fun _ => ⟨le_refl _, rfl⟩ }
  merge :=
    { triggers := fun _ ht => nomatch ht
      logged := fun _ ht => nomatch ht
      drivers := fun _ hd => nomatch hd
      newest := fun _ _ hacc => nomatch hacc.1
      detached := fun _ hd => nomatch hd
      passed := fun _ _ _ hacc => nomatch hacc.1
      outcomes := fun _ hx => nomatch hx
      recorded := fun _ _ _ hacc => nomatch hacc.1
      descs := fun _ hd => nomatch hd }

variable {i : Nat}

section Step
variable {s s' : Cluster}

section
variable (h : Inv s)
include h

theorem inv_appendChange (hc : unraced s (.appendChange i) = true)
    (hs : step s (.appendChange i) = some s') : Inv s' := by
  obtain ⟨p, hp, rfl⟩ := Option.map_eq_some_iff.mp hs
  simp only [unraced, hp, Option.all_some, all_eq_true, not_eq_true'] at hc
  have hinv := h.appendChange (mem_of_getElem? hp) hc
  apply hinv.setChanges
  intro q hq
  exact hinv.rhs.changes q (mem_of_mem_eraseIdx hq)

theorem inv_subsume {n : NodeID} (hs : step s (.subsume n) = some s') : Inv s' := by
  simp only [step] at hs
  split at hs
  · cases hs
  split_ifs at hs
  cases hs
  have hinv := h.appendQuiet (.inl rfl)
  apply hinv.setDrivers
  exact forall_mem_cons.mpr ⟨⟨getElem?_concat_length, fun _ ht => nomatch ht⟩, hinv.merge.drivers⟩

theorem inv_reread (hc : unraced s (.reread i) = true) (hs : step s (.reread i) = some s') :
    Inv s' := by
  simp only [step] at hs
  split at hs
  · cases hs
  rename_i d hd
  split_ifs at hs with hen
  obtain ⟨trig, hre, rfl⟩ := Option.map_eq_some_iff.mp hs
  simp only [unraced, hd, hre, Option.all_some, and_eq_true, all_eq_true, not_eq_true'] at hc
  exact h.reread hd hen.2 hre hc.1 hc.2

theorem inv_confirm (hs : step s (.confirm i) = some s') : Inv s' := by
  simp only [step] at hs
  split at hs
  · cases hs
  rename_i d hd
  split at hs
  · rename_i trig n rest htrig hwait
    split_ifs at hs with hen
    cases hs
    exact h.confirm hd htrig hwait hen.2
  · cases hs

theorem inv_propose (hs : step s (.propose i) = some s') : Inv s' := by
  simp only [step] at hs
  split at hs
  · cases hs
  rename_i d hd
  split at hs
  · rename_i trig htrig hwait
    cases hs
    obtain ⟨_, hdriving⟩ := h.merge.drivers d (mem_of_getElem? hd)
    obtain ⟨hmem, hreach⟩ := hdriving trig htrig
    have hinv : Inv (s.appendLhs (.merge trig)) := by
      apply h.appendLhs
      · simp
      intro other hother
      cases hother
      refine ⟨hmem, fun n hn => ?_⟩
      rcases hreach n hn with hw | hle
      · simp [hwait] at hw
      · exact hle
    apply hinv.setDrivers
    intro d' hd'
    exact hinv.merge.drivers d' (mem_of_mem_eraseIdx hd')
  · cases hs

theorem inv_appendUnfreeze (hc : unraced s .appendUnfreeze = true)
    (hs : step s .appendUnfreeze = some s') : Inv s' := by
  simp only [step] at hs
  split_ifs at hs
  cases hs
  simp only [unraced, and_eq_true, all_eq_true, not_eq_true', any_eq_true, decide_eq_true_eq] at hc
  exact (h.appendUnfreeze hc.1 hc.2).setUnfreezing _

theorem inv_lhsChange {a : Action} (hs : step s a = some s')
    (ha : (∃ n req, a = .adminLhs n req) ∨ ∃ i, a = .appendLhsChange i) : Inv s' := by
  rcases ha with ⟨n, req, rfl⟩ | ⟨i, rfl⟩
  · obtain ⟨c, hbuild, rfl⟩ := Option.map_eq_some_iff.mp hs
    apply h.setLhsChanges
    intro c' hc'
    rcases mem_cons.mp hc' with rfl | hc'
    · apply build_distinct hbuild
      rw [(h.lhs.replicas n).2]
      exact h.lhs.distinct _
    · exact h.lhs.changes c' hc'
  · obtain ⟨c, hget, rfl⟩ := Option.map_eq_some_iff.mp hs
    have hinv : Inv (s.appendLhs (.change c)) := by
      apply h.appendLhs
      · intro c' hc'
        cases hc'
        exact h.lhs.changes c (mem_of_getElem? hget)
      · simp
    apply hinv.setLhsChanges
    intro c' hc'
    exact hinv.lhs.changes c' (mem_of_mem_eraseIdx hc')

end

end Step

theorem inv_step (s : Cluster) (a : Action) (s' : Cluster) (h : Inv s) (hc : unraced s a = true)
    (hs : step s a = some s') : Inv s' := by
  cases a with
  | admin n req =>
    simp only [step] at hs
    split at hs
    · cases hs
    rename_i st hst
    obtain ⟨c, hbuild, rfl⟩ := Option.map_eq_some_iff.mp hs
    exact h.admin hst hbuild
  | appendChange i => exact inv_appendChange h hc hs
  | appendCommand =>
    cases hs
    exact h.appendQuiet (.inr rfl)
  | applyRhs n =>
    simp only [step] at hs
    split_ifs at hs with hlt
    cases hs
    exact h.applyRhs hlt
  | subsume n => exact inv_subsume h hs
  | reread i => exact inv_reread h hc hs
  | confirm i => exact inv_confirm h hs
  | propose i => exact inv_propose h hs
  | tryUnfreeze n =>
    simp only [step] at hs
    split at hs
    · cases hs
    split_ifs at hs
    cases hs
    exact h.setUnfreezing _
  | appendUnfreeze => exact inv_appendUnfreeze h hc hs
  | adminLhs n req => exact inv_lhsChange h hs (.inl ⟨n, req, rfl⟩)
  | appendLhsChange i => exact inv_lhsChange h hs (.inr ⟨i, rfl⟩)
  | applyLhs n =>
    simp only [step] at hs
    split_ifs at hs with hn
    exact h.applyLhs hn hs
  | followLhs n m =>
    simp only [step] at hs
    split_ifs at hs with hen
    cases hs
    exact h.followLhs hen.1 hen.2

/-- The freeze holds until the merge and every node merges alike, in every run
without the races the frozen test leaves open. -/
theorem freeze_holds_until_merge (lhs rhs : RangeDescriptor) (hl : Distinct lhs) (hr : Distinct rhs)
    (actions : List Action) (s : Cluster)
    (hrun : Runs.run step (Cluster.start lhs rhs) actions = some s)
    (hguard : Runs.Guarded step (fun s a => unraced s a = true) (Cluster.start lhs rhs) actions) :
    FreezeHolds s ∧ MergesAgree s := by
  have hinv := Runs.invariant_of_run inv_step (inv_start hl hr) hguard hrun
  exact ⟨hinv.freezeHolds, hinv.mergesAgree⟩

def leftRange : RangeDescriptor :=
  { wholeRange with endKey := [128], replicas := [⟨1, 1, 1⟩, ⟨2, 2, 2⟩], nextReplicaID := 3 }

def rightRange : RangeDescriptor :=
  { leftRange with rangeID := 2, startKey := [128], endKey := [255] }

def mergeOnBoth : List Action :=
  [.subsume 1, .applyRhs 1, .applyRhs 2, .reread 0, .confirm 0, .propose 0, .applyLhs 1,
    .applyLhs 2]

theorem freeze_holds_until_merge_on_both :
    ∃ s, Runs.run step (Cluster.start leftRange rightRange) mergeOnBoth = some s ∧
      s.outcomes = [(2, 0, .absorbed rightRange), (1, 0, .absorbed rightRange)] ∧
      FreezeHolds s ∧ MergesAgree s := by
  refine Runs.exists_of_run
    (fun s => s.outcomes = [(2, 0, .absorbed rightRange), (1, 0, .absorbed rightRange)])
      (by decide) ?_
  exact fun s hs hp =>
    ⟨hp, freeze_holds_until_merge leftRange rightRange (by decide) (by decide) mergeOnBoth s hs
      (by decide)⟩

def splitBehindSubsume : List Action :=
  [.admin 1 (.split [192] 3 ⊥), .subsume 1, .applyRhs 1, .applyRhs 2, .reread 0, .confirm 0,
    .propose 0, .appendChange 0, .applyRhs 1, .applyLhs 1, .applyLhs 2]

def breaksFreeze (s : Cluster) : Bool :=
  (List.range s.rhsLog.length).any fun k =>
    (s.rhsAt k).frozen && match s.rhsLog[k]? with
      | some (.change c) => (c.stage (s.rhsAt k).desc).isSome
      | _ => false

theorem not_freezeHolds_of_breaksFreeze (h : breaksFreeze s = true) : ¬ FreezeHolds s := by
  intro hf
  obtain ⟨k, _, hk⟩ := any_eq_true.mp h
  rw [and_eq_true] at hk
  obtain ⟨hfrozen, hk⟩ := hk
  split at hk
  · rename_i c hc
    simp [hf k c hc hfrozen] at hk
  · cases hk

/-- Node 1 has applied the split and refuses the trigger; node 2 has not and absorbs
the range as it was subsumed. -/
theorem split_behind_subsume :
    ∃ s, Runs.run step (Cluster.start leftRange rightRange) splitBehindSubsume = some s ∧
      s.outcomes = [(2, 0, .absorbed rightRange), (1, 0, .refused)] ∧
      ¬ FreezeHolds s ∧ ¬ MergesAgree s := by
  refine Runs.exists_of_run
    (fun s => s.outcomes = [(2, 0, .absorbed rightRange), (1, 0, .refused)] ∧ breaksFreeze s = true)
      (by decide) ?_
  rintro s - ⟨hout, hbreak⟩
  refine ⟨hout, not_freezeHolds_of_breaksFreeze hbreak, fun hagree => ?_⟩
  have hsame :=
    (hagree (2, 0, .absorbed rightRange) (by simp [hout])).2 (1, 0, .refused) (by simp [hout]) rfl
  cases hsame

end Datax.Merging
