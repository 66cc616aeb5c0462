import Datax.Shared.Fallible
import Mathlib.Data.List.Perm.Subperm
import Datax.Kvserver.MergeFreeze

/-!
# The freeze holds until the merge

A replica that has applied `k` entries is at `rhsAt k` or `lhsAt k`, where the left-hand side
takes every merge trigger whose generation still matches. While the freeze of a trigger stands,
the right-hand range is the same at every later position, so each node that reaches the trigger
finds the range it names.
-/

namespace Datax.Merging

open Bool List

variable {n : NodeID}

section Nodes
variable {d e : RangeDescriptor}

def Distinct (d : RangeDescriptor) : Prop := (nodes d).Nodup

instance (d : RangeDescriptor) : Decidable (Distinct d) :=
  inferInstanceAs (Decidable (nodes d).Nodup)

theorem nodes_subset_of_sameNodeSet (h : sameNodeSet d.replicas e.replicas = true)
    (hn : n ∈ nodes e) : n ∈ nodes d := by
  simp only [sameNodeSet, and_eq_true, all_eq_true, any_eq_true, beq_iff_eq] at h
  obtain ⟨r, hr, rfl⟩ := mem_map.mp hn
  obtain ⟨x, hx, heq⟩ := h.2 r hr
  exact mem_map.mpr ⟨x, hx, heq⟩

theorem mem_nodes_iff_of_sameNodeSet (h : sameNodeSet d.replicas e.replicas = true)
    (he : Distinct e) : n ∈ nodes d ↔ n ∈ nodes e := by
  have hsub : nodes e ⊆ nodes d := fun m hm => nodes_subset_of_sameNodeSet h hm
  have hlen : (nodes d).length ≤ (nodes e).length := by
    simp only [sameNodeSet, and_eq_true, beq_iff_eq] at h
    simp only [nodes, length_map]
    omega
  exact ((subperm_of_subset he hsub).perm_of_length_le hlen).mem_iff.symm

theorem mem_nodes_iff_of_sameReplicas (h : sameReplicas d.replicas e.replicas = true)
    (hd : Distinct d) : n ∈ nodes d ↔ n ∈ nodes e := by
  simp only [sameReplicas, and_eq_true, beq_iff_eq, all_eq_true, contains_iff_mem] at h
  have hnodup : d.replicas.Nodup := List.Nodup.of_map _ hd
  have hperm := (subperm_of_subset hnodup h.2).perm_of_length_le h.1.ge
  exact (hperm.map ReplicaDescriptor.nodeID).mem_iff

theorem distinct_of_replicas_eq (h : d.replicas = e.replicas) (he : Distinct e) : Distinct d := by
  unfold Distinct nodes
  rw [h]
  exact he

end Nodes

section Build
variable {frozen : Bool} {self : NodeID} {desc : RangeDescriptor} {req : AdminRequest}
  {c : RangeChange}

theorem build_frozen (h : req.build frozen self desc = some c) : frozen = false := by
  cases frozen with
  | false => rfl
  | true =>
    cases req with
    | split => cases h
    | changeReplicas change =>
      cases change with
      | add node | remove node => cases h

theorem adminChangeReplicas_distinct {newDesc : RangeDescriptor} {change : ReplicaChange}
    (h : adminChangeReplicas frozen self desc change = .ok newDesc) (hd : Distinct desc) :
    Distinct newDesc := by
  cases change with
  | add node =>
    simp only [adminChangeReplicas] at h
    split_ifs at h with _ hnone
    cases h
    have hnew : node ∉ nodes desc := by
      intro hmem
      obtain ⟨r, hr, rfl⟩ := mem_map.mp hmem
      apply hnone
      rw [RangeDescriptor.getReplica, find?_isSome]
      exact ⟨r, hr, by simp⟩
    simp only [Distinct, nodes, map_append, map_cons, map_nil]
    rw [nodup_append]
    refine ⟨hd, nodup_singleton _, ?_⟩
    intro a ha b hb
    rw [mem_singleton.mp hb]
    rintro rfl
    exact hnew ha
  | remove node =>
    simp only [adminChangeReplicas] at h
    split at h
    · cases h
    split_ifs at h
    cases h
    exact List.Nodup.sublist (List.Sublist.map _ filter_sublist) hd

theorem build_distinct (h : req.build frozen self desc = some c) (hd : Distinct desc) :
    Distinct c.desc := by
  cases req with
  | split splitKey newID closedTS =>
    obtain ⟨trig, htrig, rfl⟩ := Option.map_eq_some_iff.mp h
    obtain ⟨_, hleft, _⟩ := adminSplit_ok (Fallible.ok_of_toOption htrig)
    apply distinct_of_replicas_eq _ hd
    change trig.left.replicas = desc.replicas
    rw [hleft]
  | changeReplicas change =>
    obtain ⟨newDesc, hnew, rfl⟩ := Option.map_eq_some_iff.mp h
    exact adminChangeReplicas_distinct (Fallible.ok_of_toOption hnew) hd

end Build

/-- A later descriptor of one range: generations tell the sets of nodes apart. -/
def Later (d e : RangeDescriptor) : Prop :=
  d.generation ≤ e.generation ∧ (d.generation = e.generation → ∀ n, n ∈ nodes d ↔ n ∈ nodes e)

theorem Later.refl (d : RangeDescriptor) : Later d d := ⟨le_refl _, fun _ _ => Iff.rfl⟩

theorem Later.trans {a b c : RangeDescriptor} (hab : Later a b) (hbc : Later b c) : Later a c := by
  refine ⟨le_trans hab.1 hbc.1, ?_⟩
  intro hgen n
  have h₁ := hab.1
  have h₂ := hbc.1
  exact (hab.2 (by omega) n).trans (hbc.2 (by omega) n)

theorem stage_spec {cur desc : RangeDescriptor} {c : RangeChange} (h : c.stage cur = some desc)
    (hcur : Distinct cur) : desc = c.desc ∧ Later cur desc := by
  cases c with
  | split trig =>
    obtain ⟨rfl, hgen⟩ := stageSplit_ok (Fallible.ok_of_toOption h)
    exact ⟨rfl, by omega, fun heq => by omega⟩
  | confChange newDesc =>
    obtain ⟨rfl, hgen⟩ := stageConfChange_ok (Fallible.ok_of_toOption h)
    rcases hgen with hgen | hsame
    · exact ⟨rfl, by omega, fun heq => by omega⟩
    simp only [sameDescriptor, and_eq_true, beq_iff_eq] at hsame
    refine ⟨rfl, hsame.1.1.1.2.le, ?_⟩
    exact fun _ n => mem_nodes_iff_of_sameReplicas hsame.2 hcur

/-- What the log makes of the left-hand range when every matching trigger is taken. -/
def lhsNext (cur : RangeDescriptor) : LhsEntry → RangeDescriptor
  | .merge trig => if cur.generation = trig.left.generation then trig.merged else cur
  | .change c => (c.stage cur).getD cur
  | .command => cur

namespace Cluster

def lhsAt (s : Cluster) (k : Nat) : RangeDescriptor := Replay.stateAt lhsNext s.lhsFirst s.lhsLog k

/-- From the trigger's position on, the right-hand range is frozen and unchanged. -/
def Held (s : Cluster) (trig : MergeTrigger) : Prop :=
  ∀ k, trig.rightAppliedIndex ≤ k → s.rhsAt k = ⟨trig.right, true⟩

/-- The left-hand range has moved on; the trigger is refused wherever it stands. -/
def Past (s : Cluster) (trig : MergeTrigger) : Prop :=
  trig.left.generation < (s.lhsAt s.lhsLog.length).generation ∧
    ∀ i, s.lhsLog[i]? = some (.merge trig) → (s.lhsAt i).generation ≠ trig.left.generation

def Accepts (s : Cluster) (i : Nat) (trig : MergeTrigger) : Prop :=
  s.lhsLog[i]? = some (.merge trig) ∧ (s.lhsAt i).generation = trig.left.generation

end Cluster

open Cluster

structure RhsInv (s : Cluster) : Prop where
  first : Distinct s.rhsFirst
  entries : ∀ c, RhsEntry.change c ∈ s.rhsLog → Distinct c.desc
  quiet : ∀ k c, s.rhsLog[k]? = some (.change c) → (s.rhsAt k).frozen = false
  changes : ∀ p ∈ s.changes, p.seen ≤ s.rhsLog.length ∧ (s.rhsAt p.seen).frozen = false ∧
    Distinct p.change.desc
  reach : ∀ n, s.rhs n ≤ s.rhsLog.length

structure LhsInv (s : Cluster) : Prop where
  first : Distinct s.lhsFirst
  entries : ∀ c, LhsEntry.change c ∈ s.lhsLog → Distinct c.desc
  merges : ∀ trig, LhsEntry.merge trig ∈ s.lhsLog →
    Distinct trig.merged ∧ trig.left.generation < trig.merged.generation
  changes : ∀ c ∈ s.lhsChanges, Distinct c.desc
  replicas : ∀ n, (s.lhs n).applied ≤ s.lhsLog.length ∧ (s.lhs n).desc = s.lhsAt (s.lhs n).applied

/-- A trigger that was built from equal node sets, under a freeze that stands or
stood until the left-hand range had moved on. -/
structure Built (s : Cluster) (trig : MergeTrigger) : Prop where
  left : ∃ a, a ≤ s.lhsLog.length ∧ s.lhsAt a = trig.left
  same : sameNodeSet trig.left.replicas trig.right.replicas = true
  right : Distinct trig.right
  endKey : trig.merged.endKey = trig.right.endKey
  replicas : trig.merged.replicas = trig.left.replicas
  later : trig.left.generation < trig.merged.generation
  reach : trig.rightAppliedIndex ≤ s.rhsLog.length
  stands : s.Held trig ∨ s.Past trig

/-- A running merge: its subsume is in the log, and the nodes it no longer waits for
have reached the trigger's position. -/
def Driving (s : Cluster) (d : Driver) : Prop :=
  s.rhsLog[d.subsumed]? = some .subsume ∧ ∀ trig, d.trig = some trig →
    trig ∈ s.triggers ∧ ∀ n ∈ nodes trig.right, n ∈ d.waiting ∨ trig.rightAppliedIndex ≤ s.rhs n

structure MergeInv (s : Cluster) : Prop where
  triggers : ∀ trig ∈ s.triggers, Built s trig
  logged : ∀ trig, LhsEntry.merge trig ∈ s.lhsLog → trig ∈ s.triggers ∧
    ∀ n ∈ nodes trig.right, trig.rightAppliedIndex ≤ s.rhs n
  drivers : ∀ d ∈ s.drivers, Driving s d
  newest : ∀ i trig, s.Accepts i trig →
    ∀ other ∈ s.triggers, other.left.generation ≤ trig.left.generation
  detached : ∀ n, s.detached n = true → ∃ i trig, s.Accepts i trig ∧ i < (s.lhs n).applied
  passed : ∀ i trig n, s.Accepts i trig → i < (s.lhs n).applied → n ∈ nodes (s.lhsAt i) →
    s.detached n = true
  outcomes : ∀ x ∈ s.outcomes, ∃ trig, s.lhsLog[x.2.1]? = some (.merge trig) ∧
    x.2.2 = if (s.lhsAt x.2.1).generation = trig.left.generation then .absorbed trig.right
      else .refused
  recorded : ∀ i trig n, s.Accepts i trig → i < (s.lhs n).applied →
    ∃ m, (m, i, .absorbed trig.right) ∈ s.outcomes
  descs : ∀ d ∈ s.lhsDescs, ∃ n k, k ≤ (s.lhs n).applied ∧ s.lhsAt k = d

structure Inv (s : Cluster) : Prop where
  rhs : RhsInv s
  lhs : LhsInv s
  merge : MergeInv s

section Facts
variable {s : Cluster}

theorem apply_eq_self_of_frozen {st : RhsState} {e : RhsEntry} (hf : st.frozen = true)
    (he : e.isUnfreeze = false) (hc : ∀ c, e ≠ .change c) : st.apply e = st := by
  cases e with
  | subsume =>
    cases st
    cases hf
    rfl
  | unfreeze => cases he
  | change c => exact absurd rfl (hc c)
  | command => rfl

theorem RhsInv.distinct (h : RhsInv s) (k : Nat) : Distinct (s.rhsAt k).desc := by
  apply Replay.stateAt_invariant (P := fun st : RhsState => Distinct st.desc) h.first
  intro st e he hst
  cases e with
  | change c =>
    simp only [RhsState.apply]
    cases hstage : c.stage st.desc with
    | none => exact hst
    | some desc =>
      rw [Option.getD_some, (stage_spec hstage hst).1]
      exact h.entries c he
  | _ => exact hst

variable {k : Nat}

theorem rhsAt_succ {e : RhsEntry} (he : s.rhsLog[k]? = some e) :
    s.rhsAt (k + 1) = (s.rhsAt k).apply e := Replay.stateAt_succ he

theorem rhsAt_succ_of_none (he : s.rhsLog[k]? = none) : s.rhsAt (k + 1) = s.rhsAt k := by
  have hle := getElem?_eq_none_iff.mp he
  unfold Cluster.rhsAt
  rw [Replay.stateAt_of_length_le (Nat.le_succ_of_le hle), ← Replay.stateAt_of_length_le hle]

theorem mem_drop_of_getElem? {ε : Type} {log : List ε} {u : Nat} {e : ε} (he : log[k]? = some e)
    (hk : u ≤ k) : e ∈ log.drop u := by
  have hget : (log.drop u)[k - u]? = some e := by
    rw [getElem?_drop, Nat.add_sub_cancel' hk]
    exact he
  exact mem_of_getElem? hget

theorem RhsInv.constant_after_subsume (h : RhsInv s) {u : Nat} (hu : s.rhsLog[u]? = some .subsume)
    (hno : ∀ e ∈ s.rhsLog.drop u, e.isUnfreeze = false) (hk : u < k) :
    (s.rhsAt k).frozen = true ∧ s.rhsAt k = s.rhsAt (u + 1) := by
  induction k, hk using Nat.le_induction with
  | base =>
    rw [rhsAt_succ hu]
    exact ⟨rfl, rfl⟩
  | succ k hk ih =>
    have hstep : s.rhsAt (k + 1) = s.rhsAt k := by
      cases he : s.rhsLog[k]? with
      | none => exact rhsAt_succ_of_none he
      | some e =>
        rw [rhsAt_succ he]
        apply apply_eq_self_of_frozen ih.1 (hno e (mem_drop_of_getElem? he (by omega)))
        rintro c rfl
        have hquiet := h.quiet k c he
        simp [ih.1] at hquiet
    rw [hstep]
    exact ih

theorem not_frozen_of_no_subsume {p : Nat} (hp : (s.rhsAt p).frozen = false)
    (hno : ∀ e ∈ s.rhsLog.drop p, e.isSubsume = false) (hk : p ≤ k) :
    (s.rhsAt k).frozen = false := by
  induction k, hk using Nat.le_induction with
  | base => exact hp
  | succ k hk ih =>
    cases he : s.rhsLog[k]? with
    | none =>
      rw [rhsAt_succ_of_none he]
      exact ih
    | some e =>
      rw [rhsAt_succ he]
      have hsub := hno e (mem_drop_of_getElem? he hk)
      cases e with
      | subsume => cases hsub
      | unfreeze => rfl
      | change c | command => exact ih

theorem lhsNext_spec {cur : RangeDescriptor} {e : LhsEntry} (hcur : Distinct cur)
    (hchange : ∀ c, e = .change c → Distinct c.desc) (hmerge : ∀ trig, e = .merge trig →
      Distinct trig.merged ∧ trig.left.generation < trig.merged.generation) :
    Distinct (lhsNext cur e) ∧ Later cur (lhsNext cur e) := by
  cases e with
  | merge trig =>
    obtain ⟨hdistinct, hgen⟩ := hmerge trig rfl
    simp only [lhsNext]
    split
    · rename_i hmatch
      exact ⟨hdistinct, by omega, fun heq => by omega⟩
    · exact ⟨hcur, Later.refl cur⟩
  | change c =>
    simp only [lhsNext]
    cases hstage : c.stage cur with
    | none => exact ⟨hcur, Later.refl cur⟩
    | some desc =>
      obtain ⟨hdesc, hlater⟩ := stage_spec hstage hcur
      refine ⟨?_, hlater⟩
      rw [Option.getD_some, hdesc]
      exact hchange c rfl
  | command => exact ⟨hcur, Later.refl cur⟩

theorem LhsInv.distinct (h : LhsInv s) (k : Nat) : Distinct (s.lhsAt k) := by
  apply Replay.stateAt_invariant (P := Distinct) h.first
  intro d e he hd
  refine (lhsNext_spec hd ?_ ?_).1
  · rintro c rfl
    exact h.entries c he
  · rintro trig rfl
    exact h.merges trig he

variable {i : Nat}

theorem LhsInv.later (h : LhsInv s) {j : Nat} (hij : i ≤ j) : Later (s.lhsAt i) (s.lhsAt j) := by
  apply Replay.stateAt_rel Later.refl Later.trans _ hij
  intro k e he
  have hmem := mem_of_getElem? he
  refine (lhsNext_spec (h.distinct k) ?_ ?_).2
  · rintro c rfl
    exact h.entries c hmem
  · rintro trig rfl
    exact h.merges trig hmem

theorem lhsAt_succ {e : LhsEntry} (he : s.lhsLog[i]? = some e) :
    s.lhsAt (i + 1) = lhsNext (s.lhsAt i) e := Replay.stateAt_succ he

variable {trig : MergeTrigger}

theorem Accepts.next (h : s.Accepts i trig) : s.lhsAt (i + 1) = trig.merged := by
  rw [lhsAt_succ h.1]
  exact if_pos h.2

theorem MergeInv.built (h : MergeInv s) (hacc : s.Accepts i trig) :
    Built s trig := h.triggers trig (h.logged trig (mem_of_getElem? hacc.1)).1

theorem MergeInv.held (h : MergeInv s) (hacc : s.Accepts i trig) : s.Held trig := by
  rcases (h.built hacc).stands with hheld | hpast
  · exact hheld
  · exact absurd hacc.2 (hpast.2 i hacc.1)

theorem Inv.mem_nodes_iff (h : Inv s) (hacc : s.Accepts i trig)
    (n : NodeID) : n ∈ nodes (s.lhsAt i) ↔ n ∈ nodes trig.right := by
  have hbuilt := h.merge.built hacc
  obtain ⟨a, _, ha⟩ := hbuilt.left
  have hsame : n ∈ nodes trig.left ↔ n ∈ nodes trig.right :=
    mem_nodes_iff_of_sameNodeSet hbuilt.same hbuilt.right
  have hgen : (s.lhsAt a).generation = (s.lhsAt i).generation := by rw [ha, hacc.2]
  rw [← hsame, ← ha]
  rcases Nat.le_total a i with hle | hle
  · exact ((h.lhs.later hle).2 hgen n).symm
  · exact (h.lhs.later hle).2 hgen.symm n

theorem Inv.replica_of_accepts (h : Inv s) (hacc : s.Accepts (s.lhs n).applied trig)
    (hn : n ∈ nodes (s.lhs n).desc) :
    s.rhsReplica n = some ⟨trig.right, true⟩ ∧ trig.rightAppliedIndex ≤ s.rhs n := by
  have hmem : n ∈ nodes trig.right := by
    rw [(h.lhs.replicas n).2] at hn
    exact (h.mem_nodes_iff hacc n).mp hn
  have hreach := (h.merge.logged trig (mem_of_getElem? hacc.1)).2 n hmem
  have hstate := h.merge.held hacc (s.rhs n) hreach
  have hattached : s.detached n = false := by
    rw [eq_false_iff]
    intro hdet
    obtain ⟨i, other, hother, hlt⟩ := h.merge.detached n hdet
    have hle := h.merge.newest i other hother trig (h.merge.logged trig (mem_of_getElem? hacc.1)).1
    have hlater := (h.merge.built hother).later
    have hmono := (h.lhs.later (Nat.succ_le_of_lt hlt)).1
    rw [Accepts.next hother, hacc.2] at hmono
    omega
  refine ⟨?_, hreach⟩
  simp only [Cluster.rhsReplica, hstate]
  exact if_pos ⟨hattached, hmem⟩

end Facts

end Datax.Merging
