import Datax.Kvserver.MergeRhs

/-!
# The left-hand replicas follow their log

A node that applies the next entry arrives where the log says it does: a trigger is taken by every
member or refused by every member.
-/

namespace Datax.Merging

open Function List Cluster

variable {s : Cluster} {trig : MergeTrigger}

section LhsLog
variable {e : LhsEntry}

theorem lhsAt_appendLhs {k : Nat} (e : LhsEntry) (hk : k ≤ s.lhsLog.length) :
    (s.appendLhs e).lhsAt k = s.lhsAt k := Replay.stateAt_append [e] hk

variable {i : Nat}

theorem getElem?_appendLhs {x : LhsEntry} (h : (s.appendLhs e).lhsLog[i]? = some x) :
    (i < s.lhsLog.length ∧ s.lhsLog[i]? = some x) ∨ (i = s.lhsLog.length ∧ e = x) := by
  change (s.lhsLog ++ [e])[i]? = some x at h
  rcases Nat.lt_trichotomy i s.lhsLog.length with hlt | rfl | hgt
  · rw [getElem?_append_left hlt] at h
    exact .inl ⟨hlt, h⟩
  · rw [getElem?_concat_length] at h
    exact .inr ⟨rfl, Option.some.inj h⟩
  · rw [getElem?_eq_none_iff.mpr (by rw [length_append, length_singleton]; omega)] at h
    cases h

theorem getElem?_appendLhs_of_some {x : LhsEntry} (h : s.lhsLog[i]? = some x) :
    i < s.lhsLog.length ∧ (s.appendLhs e).lhsLog[i]? = some x := by
  obtain ⟨hlt, _⟩ := List.getElem?_eq_some_iff.mp h
  refine ⟨hlt, ?_⟩
  change (s.lhsLog ++ [e])[i]? = some x
  rw [getElem?_append_left hlt]
  exact h

theorem Accepts.appendLhs (h : s.Accepts i trig) : (s.appendLhs e).Accepts i trig := by
  obtain ⟨hlt, hget⟩ := getElem?_appendLhs_of_some (e := e) h.1
  refine ⟨hget, ?_⟩
  rw [lhsAt_appendLhs e hlt.le]
  exact h.2

theorem accepts_of_appendLhs (h : (s.appendLhs e).Accepts i trig) :
    s.Accepts i trig ∨ (i = s.lhsLog.length ∧ (s.lhsAt i).generation = trig.left.generation) := by
  obtain ⟨hget, hgen⟩ := h
  rcases getElem?_appendLhs hget with ⟨hlt, hold⟩ | ⟨rfl, _⟩
  · rw [lhsAt_appendLhs e hlt.le] at hgen
    exact .inl ⟨hold, hgen⟩
  · rw [lhsAt_appendLhs e le_rfl] at hgen
    exact .inr ⟨rfl, hgen⟩

theorem LhsInv.appendLhs (h : LhsInv s) (hchange : ∀ c, e = .change c → Distinct c.desc)
    (hmerge : ∀ trig, e = .merge trig →
      Distinct trig.merged ∧ trig.left.generation < trig.merged.generation) :
    LhsInv (s.appendLhs e) := by
  have hlen : (s.appendLhs e).lhsLog.length = s.lhsLog.length + 1 := length_append
  exact { h with
    entries := by
      intro c hc
      rcases mem_append.mp hc with hc | hc
      · exact h.entries c hc
      · exact hchange c (mem_singleton.mp hc).symm
    merges := by
      intro trig ht
      rcases mem_append.mp ht with ht | ht
      · exact h.merges trig ht
      · exact hmerge trig (mem_singleton.mp ht).symm
    replicas := by
      intro n
      obtain ⟨hle, hdesc⟩ := h.replicas n
      refine ⟨by change (s.lhs n).applied ≤ _; omega, ?_⟩
      change (s.lhs n).desc = (s.appendLhs e).lhsAt (s.lhs n).applied
      rw [lhsAt_appendLhs e hle]
      exact hdesc }

theorem Built.appendLhs (h : Built s trig) (hlhs : LhsInv (s.appendLhs e)) :
    Built (s.appendLhs e) trig := by
  have hlen : (s.appendLhs e).lhsLog.length = s.lhsLog.length + 1 := length_append
  refine { h with left := ?_, stands := ?_ }
  · obtain ⟨a, ha, hleft⟩ := h.left
    refine ⟨a, by omega, ?_⟩
    rw [lhsAt_appendLhs e ha]
    exact hleft
  · rcases h.stands with hheld | ⟨hgen, hlog⟩
    · exact Or.inl hheld
    apply Or.inr
    have hmono := (hlhs.later (Nat.le_succ s.lhsLog.length)).1
    rw [lhsAt_appendLhs e (le_refl _)] at hmono
    refine ⟨?_, ?_⟩
    · rw [hlen]
      exact lt_of_lt_of_le hgen hmono
    intro i hi
    rcases getElem?_appendLhs hi with ⟨hlt, hold⟩ | ⟨rfl, _⟩
    · rw [lhsAt_appendLhs e hlt.le]
      exact hlog i hold
    · rw [lhsAt_appendLhs e le_rfl]
      omega

theorem Inv.appendLhs (h : Inv s) (hchange : ∀ c, e = .change c → Distinct c.desc)
    (hmerge : ∀ trig, e = .merge trig → trig ∈ s.triggers ∧
      ∀ n ∈ nodes trig.right, trig.rightAppliedIndex ≤ s.rhs n) : Inv (s.appendLhs e) := by
  have hlhs : LhsInv (s.appendLhs e) := by
    apply h.lhs.appendLhs hchange
    intro trig ht
    have hbuilt := h.merge.triggers trig (hmerge trig ht).1
    obtain ⟨a, _, hleft⟩ := hbuilt.left
    have hdistinct := h.lhs.distinct a
    rw [hleft] at hdistinct
    exact ⟨distinct_of_replicas_eq hbuilt.replicas hdistinct, hbuilt.later⟩
  -- An index that some node has applied is an old one.
  have hold : ∀ i trig n, (s.appendLhs e).Accepts i trig → i < (s.lhs n).applied →
      s.Accepts i trig := by
    intro i trig n hacc hlt
    have hle := (h.lhs.replicas n).1
    rcases accepts_of_appendLhs hacc with hacc | ⟨rfl, _⟩
    · exact hacc
    · omega
  refine ⟨{ h.rhs with }, hlhs, ?_⟩
  constructor
  case triggers => exact fun trig ht => (h.merge.triggers trig ht).appendLhs hlhs
  case logged =>
    intro trig ht
    rcases mem_append.mp ht with ht | ht
    · exact h.merge.logged trig ht
    · exact hmerge trig (mem_singleton.mp ht).symm
  case drivers => exact h.merge.drivers
  case newest =>
    intro i trig hacc other hother
    rcases accepts_of_appendLhs hacc with hacc | ⟨rfl, hgen⟩
    · exact h.merge.newest i trig hacc other hother
    obtain ⟨a, ha, hleft⟩ := (h.merge.triggers other hother).left
    have hmono := (h.lhs.later ha).1
    rw [hleft, hgen] at hmono
    exact hmono
  case detached =>
    intro n hdet
    obtain ⟨i, trig, hacc, hlt⟩ := h.merge.detached n hdet
    exact ⟨i, trig, Accepts.appendLhs hacc, hlt⟩
  case passed =>
    intro i trig n hacc hlt hn
    have hle := (h.lhs.replicas n).1
    change i < (s.lhs n).applied at hlt
    rw [lhsAt_appendLhs e (by omega)] at hn
    exact h.merge.passed i trig n (hold i trig n hacc hlt) hlt hn
  case outcomes =>
    intro x hx
    obtain ⟨trig, hget, ho⟩ := h.merge.outcomes x hx
    obtain ⟨hlt, hget'⟩ := getElem?_appendLhs_of_some (e := e) hget
    refine ⟨trig, hget', ?_⟩
    rw [lhsAt_appendLhs e hlt.le]
    exact ho
  case recorded =>
    intro i trig n hacc hlt
    exact h.merge.recorded i trig n (hold i trig n hacc hlt) hlt
  case descs =>
    intro d hd
    obtain ⟨n, k, hk, hdesc⟩ := h.merge.descs d hd
    have hle := (h.lhs.replicas n).1
    refine ⟨n, k, hk, ?_⟩
    rw [lhsAt_appendLhs e (by omega)]
    exact hdesc

theorem Inv.setLhsChanges (h : Inv s) {cs : List RangeChange} (hcs : ∀ c ∈ cs, Distinct c.desc) :
    Inv { s with lhsChanges := cs } :=
  ⟨{ h.rhs with }, { h.lhs with changes := hcs },
    { h.merge with triggers := fun t ht => { h.merge.triggers t ht with } }⟩

end LhsLog

section Apply

variable {n : NodeID}

theorem Inv.move (h : Inv s) {ds : List RangeDescriptor} {os : List (NodeID × Nat × Outcome)}
    {det : NodeID → Bool} (hlt : (s.lhs n).applied < s.lhsLog.length)
    (hds : ∀ d ∈ ds, d ∈ s.lhsDescs ∨ d = s.lhsAt ((s.lhs n).applied + 1))
    (hos : ∀ x ∈ os, x ∈ s.outcomes ∨ x.2.1 = (s.lhs n).applied ∧
      ∃ trig, s.lhsLog[(s.lhs n).applied]? = some (.merge trig) ∧
        x.2.2 = if (s.lhsAt (s.lhs n).applied).generation = trig.left.generation
          then .absorbed trig.right else .refused) (hkept : ∀ x ∈ s.outcomes, x ∈ os)
    (hrec : ∀ trig, s.Accepts (s.lhs n).applied trig →
      ∃ m, (m, (s.lhs n).applied, .absorbed trig.right) ∈ os)
    (hdet : ∀ m, det m = true → s.detached m = true ∨
      m = n ∧ ∃ trig, s.Accepts (s.lhs n).applied trig)
    (hstill : ∀ m, s.detached m = true → det m = true) (hpassed : ∀ trig,
      s.Accepts (s.lhs n).applied trig → n ∈ nodes (s.lhsAt (s.lhs n).applied) → det n = true) :
    Inv { s with
      lhs := update s.lhs n ⟨(s.lhs n).applied + 1, s.lhsAt ((s.lhs n).applied + 1)⟩
      lhsDescs := ds
      outcomes := os
      detached := det } := by
  -- Only `n` moves, by one entry.
  have hother : ∀ m i, i < (update s.lhs n
      ⟨(s.lhs n).applied + 1, s.lhsAt ((s.lhs n).applied + 1)⟩ m).applied →
      i < (s.lhs m).applied ∨ m = n ∧ i = (s.lhs n).applied := by
    intro m i hi
    by_cases hm : m = n
    · subst hm
      rw [update_self] at hi
      dsimp only at hi
      rcases Nat.lt_or_ge i (s.lhs m).applied with hi' | hi'
      · exact .inl hi'
      · exact .inr ⟨rfl, by omega⟩
    · rw [update_of_ne hm] at hi
      exact .inl hi
  have hmono : ∀ m, (s.lhs m).applied ≤ (update s.lhs n
      ⟨(s.lhs n).applied + 1, s.lhsAt ((s.lhs n).applied + 1)⟩ m).applied := by
    intro m
    by_cases hm : m = n
    · subst hm
      rw [update_self]
      exact Nat.le_succ _
    · rw [update_of_ne hm]
  refine ⟨{ h.rhs with }, { h.lhs with replicas := ?_ },
    { h.merge with
      triggers := fun t ht => { h.merge.triggers t ht with }
      detached := ?_, passed := ?_, outcomes := ?_, recorded := ?_, descs := ?_ }⟩
  · intro m
    dsimp only
    by_cases hm : m = n
    · subst hm
      rw [update_self]
      exact ⟨hlt, rfl⟩
    · rw [update_of_ne hm]
      exact h.lhs.replicas m
  · intro m hm
    rcases hdet m hm with hm | ⟨rfl, trig, hacc⟩
    · obtain ⟨i, trig, hacc, hi⟩ := h.merge.detached m hm
      exact ⟨i, trig, hacc, lt_of_lt_of_le hi (hmono m)⟩
    · refine ⟨_, trig, hacc, ?_⟩
      dsimp only
      rw [update_self]
      exact Nat.lt_succ_self _
  · intro i trig m hacc hi hm
    rcases hother m i hi with hi | ⟨rfl, rfl⟩
    · exact hstill m (h.merge.passed i trig m hacc hi hm)
    · exact hpassed trig hacc hm
  · intro x hx
    rcases hos x hx with hx | ⟨hidx, trig, hget, ho⟩
    · exact h.merge.outcomes x hx
    refine ⟨trig, ?_, ?_⟩
    · rw [hidx]
      exact hget
    · rw [hidx]
      exact ho
  · intro i trig m hacc hi
    rcases hother m i hi with hi | ⟨_, rfl⟩
    · obtain ⟨m', hm'⟩ := h.merge.recorded i trig m hacc hi
      exact ⟨m', hkept _ hm'⟩
    · exact hrec trig hacc
  · intro d hd
    rcases hds d hd with hd | rfl
    · obtain ⟨m, k, hk, hdesc⟩ := h.merge.descs d hd
      exact ⟨m, k, le_trans hk (hmono m), hdesc⟩
    · refine ⟨n, (s.lhs n).applied + 1, ?_, rfl⟩
      dsimp only
      rw [update_self]

theorem Inv.advance (h : Inv s) {e : LhsEntry} (he : s.lhsLog[(s.lhs n).applied]? = some e)
    (hno : ∀ trig, ¬ s.Accepts (s.lhs n).applied trig) {os : List (NodeID × Nat × Outcome)}
    (hos : os = s.outcomes ∨ (∃ trig, e = .merge trig) ∧
      os = (n, (s.lhs n).applied, .refused) :: s.outcomes) :
    Inv { s.advance n (lhsNext (s.lhs n).desc e) with outcomes := os } := by
  have hdesc : lhsNext (s.lhs n).desc e = s.lhsAt ((s.lhs n).applied + 1) := by
    rw [lhsAt_succ he, (h.lhs.replicas n).2]
  rw [hdesc]
  apply h.move (List.getElem?_eq_some_iff.mp he).1
  case hds =>
    intro d hd
    rcases mem_cons.mp hd with rfl | hd
    · exact .inr rfl
    · exact .inl hd
  case hos =>
    intro x hx
    rcases hos with rfl | ⟨⟨trig, rfl⟩, rfl⟩
    · exact .inl hx
    rcases mem_cons.mp hx with rfl | hx
    · refine .inr ⟨rfl, trig, he, ?_⟩
      exact (if_neg fun hgen => hno trig ⟨he, hgen⟩).symm
    · exact .inl hx
  case hkept =>
    intro x hx
    rcases hos with rfl | ⟨_, rfl⟩
    · exact hx
    · exact mem_cons_of_mem _ hx
  case hrec | hpassed => exact fun trig hacc => absurd hacc (hno trig)
  case hdet => exact fun m hm => .inl hm
  case hstill => exact fun m hm => hm

theorem Inv.absorb (h : Inv s) (hacc : s.Accepts (s.lhs n).applied trig) :
    Inv { (s.record n (.absorbed trig.right)).advance n trig.merged with
      detached := update s.detached n true } := by
  rw [← Accepts.next hacc]
  have hunique : ∀ other, s.Accepts (s.lhs n).applied other → other = trig := by
    intro other hother
    have heq := hother.1.symm.trans hacc.1
    cases heq
    rfl
  apply h.move (List.getElem?_eq_some_iff.mp hacc.1).1
  case hds =>
    intro d hd
    rcases mem_cons.mp hd with rfl | hd
    · exact .inr rfl
    · exact .inl hd
  case hos =>
    intro x hx
    rcases mem_cons.mp hx with rfl | hx
    · exact .inr ⟨rfl, trig, hacc.1, (if_pos hacc.2).symm⟩
    · exact .inl hx
  case hkept => exact fun x hx => mem_cons_of_mem _ hx
  case hrec =>
    intro other hother
    rw [hunique other hother]
    exact ⟨n, mem_cons_self⟩
  case hdet =>
    intro m hm
    by_cases hmn : m = n
    · exact .inr ⟨hmn, trig, hacc⟩
    · rw [update_of_ne hmn] at hm
      exact .inl hm
  case hstill =>
    intro m hm
    by_cases hmn : m = n
    · rw [hmn, update_self]
    · rw [update_of_ne hmn]
      exact hm
  case hpassed => exact fun _ _ _ => update_self ..

theorem stageMerge_eq_ok {cur : RangeDescriptor} (hgen : cur.generation = trig.left.generation)
    (hend : trig.merged.endKey = trig.right.endKey) :
    stageMerge cur trig.right trig = .ok trig.merged := by
  rw [stageMerge, if_neg (not_not.mpr hgen), if_neg]
  rintro (hg | he)
  · exact hg rfl
  · exact he hend.symm

section
variable (h : Inv s) {s' : Cluster} (hn : n ∈ nodes (s.lhs n).desc)
include h hn

theorem Inv.applyMerge
    (he : s.lhsLog[(s.lhs n).applied]? = some (.merge trig)) (hs : s.applyMerge n trig = some s') :
    Inv s' := by
  have hdesc := (h.lhs.replicas n).2
  by_cases hgen : (s.lhs n).desc.generation = trig.left.generation
  · have hacc : s.Accepts (s.lhs n).applied trig := by
      refine ⟨he, ?_⟩
      rw [← hdesc]
      exact hgen
    obtain ⟨hrep, hreach⟩ := h.replica_of_accepts hacc hn
    have hstage := stageMerge_eq_ok hgen (h.merge.built hacc).endKey
    simp only [Cluster.applyMerge, hgen, ne_eq, not_true_eq_false, if_false, hrep, hstage] at hs
    rw [if_neg (not_lt.mpr hreach)] at hs
    cases hs
    exact h.absorb hacc
  · simp only [Cluster.applyMerge, ne_eq, hgen, not_false_eq_true, if_true] at hs
    cases hs
    have hnext : lhsNext (s.lhs n).desc (.merge trig) = (s.lhs n).desc := if_neg hgen
    have hno : ∀ other, ¬ s.Accepts (s.lhs n).applied other := by
      intro other hacc
      have heq := hacc.1.symm.trans he
      cases heq
      apply hgen
      rw [hdesc]
      exact hacc.2
    have hinv := h.advance he hno (.inr ⟨⟨trig, rfl⟩, rfl⟩)
    rw [hnext] at hinv
    exact hinv

theorem Inv.applyLhs (hs : s.applyLhs n = some s') : Inv s' := by
  simp only [Cluster.applyLhs] at hs
  have hno : ∀ e, s.lhsLog[(s.lhs n).applied]? = some e → (∀ trig, e ≠ .merge trig) →
      ∀ trig, ¬ s.Accepts (s.lhs n).applied trig := by
    intro e he hne trig hacc
    exact hne trig (Option.some.inj (he.symm.trans hacc.1))
  split at hs
  · cases hs
  · rename_i he
    cases hs
    exact h.advance he (hno _ he fun _ hc => nomatch hc) (.inl rfl)
  · rename_i c he
    cases hs
    exact h.advance he (hno _ he fun _ hc => nomatch hc) (.inl rfl)
  · rename_i trig he
    exact h.applyMerge hn he hs

end

theorem Inv.followLhs (h : Inv s) {m : NodeID} (hn : n ∉ nodes (s.lhs n).desc)
    (hm : (s.lhs m).applied = (s.lhs n).applied + 1) :
    Inv { s with lhs := update s.lhs n (s.lhs m) } := by
  obtain ⟨hle, hdesc⟩ := h.lhs.replicas m
  have heq : s.lhs m = ⟨(s.lhs n).applied + 1, s.lhsAt ((s.lhs n).applied + 1)⟩ := by
    rw [← hm, ← hdesc]
  rw [heq]
  apply @Inv.move s n h s.lhsDescs s.outcomes s.detached (by omega)
  case hds => exact fun d hd => .inl hd
  case hos => exact fun x hx => .inl hx
  case hkept => exact fun x hx => hx
  case hrec => exact fun trig hacc => h.merge.recorded _ trig m hacc (by omega)
  case hdet => exact fun _ hd => .inl hd
  case hstill => exact fun _ hd => hd
  case hpassed =>
    intro trig _ hmem
    rw [← (h.lhs.replicas n).2] at hmem
    exact absurd hmem hn

end Apply

end Datax.Merging
