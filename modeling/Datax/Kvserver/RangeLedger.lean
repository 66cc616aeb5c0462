import Datax.Kvserver.RangeLayout

/-!
# The values of the descriptors

A generation names one value of a range's descriptor, since every change raises it, and two values
of successive generations are one change apart.
-/

namespace Datax.Ranges

open Function List

/-- One change leads from `e` to `d`: the range's end moves, or its members change. -/
def Follows (e d : RangeDescriptor) : Prop :=
  d.endKey ≠ e.endKey ∨ ∃ self change, adminChangeReplicas false self e change = .ok d

/-- The values of the descriptors are in order: a live range is at the newest of
its values, a generation names one value, and successive generations are one
change apart. -/
structure Ledger (live : RangeID → Option RangeDescriptor) (past : List RangeDescriptor) :
    Prop where
  own : ∀ id d, live id = some d → d.rangeID = id
  held : ∀ id d, live id = some d → d ∈ past
  newest : ∀ id d, live id = some d → ∀ e ∈ past, e.rangeID = id → e.generation ≤ d.generation
  single : ∀ d ∈ past, ∀ e ∈ past, d.rangeID = e.rangeID → d.generation = e.generation → d = e
  linked : ∀ d ∈ past, ∀ e ∈ past, d.rangeID = e.rangeID →
    d.generation = e.generation + 1 → Follows e d

section Ledgers
variable {live : RangeID → Option RangeDescriptor} {past : List RangeDescriptor}
  {cur d : RangeDescriptor}

section
variable (h : Ledger live past)
include h

theorem Ledger.eq_of_generation {id : RangeID} (hcur : live id = some cur) {e : RangeDescriptor}
    (he : e ∈ past) (hid : e.rangeID = id) (hgen : e.generation = cur.generation) : e = cur :=
  h.single e he cur (h.held id cur hcur) (hid.trans (h.own id cur hcur).symm) hgen

theorem Ledger.adopt (hnewer : ∀ e ∈ past, e.rangeID = d.rangeID →
      e.generation < d.generation ∧ (d.generation = e.generation + 1 → Follows e d)) :
    Ledger (update live d.rangeID (some d)) (d :: past) := by
  have hlive : ∀ id e, update live d.rangeID (some d) id = some e →
      (id = d.rangeID ∧ e = d) ∨ (id ≠ d.rangeID ∧ live id = some e) := by
    intro id e hid
    by_cases heq : id = d.rangeID
    · subst heq
      rw [update_self, Option.some.injEq] at hid
      exact .inl ⟨rfl, hid.symm⟩
    · rw [update_of_ne heq] at hid
      exact .inr ⟨heq, hid⟩
  constructor
  case own =>
    intro id e he
    rcases hlive id e he with ⟨rfl, rfl⟩ | ⟨_, he⟩
    · rfl
    · exact h.own id e he
  case held =>
    intro id e he
    rcases hlive id e he with ⟨_, rfl⟩ | ⟨_, he⟩
    · exact mem_cons_self
    · exact mem_cons_of_mem d (h.held id e he)
  case newest =>
    intro id e he f hf hid
    rcases hlive id e he with ⟨rfl, rfl⟩ | ⟨hne, he'⟩
    · rcases mem_cons.mp hf with rfl | hf'
      · exact le_rfl
      · exact (hnewer f hf' hid).1.le
    · rcases mem_cons.mp hf with rfl | hf'
      · exact absurd hid.symm hne
      · exact h.newest id e he' f hf' hid
  case single =>
    intro e he f hf hid hgen
    rcases mem_cons.mp he with rfl | he'
    · rcases mem_cons.mp hf with rfl | hf'
      · rfl
      · have := (hnewer f hf' hid.symm).1
        omega
    · rcases mem_cons.mp hf with rfl | hf'
      · have := (hnewer e he' hid).1
        omega
      · exact h.single e he' f hf' hid hgen
  case linked =>
    intro e he f hf hid hgen
    rcases mem_cons.mp he with rfl | he'
    · rcases mem_cons.mp hf with rfl | hf'
      · omega
      · exact (hnewer f hf' hid.symm).2 hgen
    · rcases mem_cons.mp hf with rfl | hf'
      · have := (hnewer e he' hid).1
        omega
      · exact h.linked e he' f hf' hid hgen

theorem Ledger.advance (hcur : live d.rangeID = some cur) (hgen : cur.generation < d.generation)
    (hfollows : Follows cur d) : Ledger (update live d.rangeID (some d)) (d :: past) := by
  apply h.adopt
  intro e he hid
  have hle := h.newest d.rangeID cur hcur e he hid
  refine ⟨by omega, ?_⟩
  intro hnext
  rw [h.eq_of_generation hcur he hid (by omega)]
  exact hfollows

theorem Ledger.create (hnew : ∀ e ∈ past, e.rangeID ≠ d.rangeID) :
    Ledger (update live d.rangeID (some d)) (d :: past) :=
  h.adopt fun e he hid => absurd hid (hnew e he)

theorem Ledger.again (hcur : live d.rangeID = some d) :
    Ledger (update live d.rangeID (some d)) (d :: past) := by
  have hsame : update live d.rangeID (some d) = live := by
    rw [← hcur]
    exact update_eq_self d.rangeID live
  have hmem : ∀ e ∈ d :: past, e ∈ past := by
    intro e he
    rcases mem_cons.mp he with rfl | he
    · exact h.held _ _ hcur
    · exact he
  rw [hsame]
  exact { h with
    held := fun id e he => mem_cons_of_mem d (h.held id e he)
    newest := fun id e he f hf => h.newest id e he f (hmem f hf)
    single := fun e he f hf => h.single e (hmem e he) f (hmem f hf)
    linked := fun e he f hf => h.linked e (hmem e he) f (hmem f hf) }

theorem Ledger.drop (id : RangeID) : Ledger (update live id none) past := by
  have hlive : ∀ i e, update live id none i = some e → live i = some e := by
    intro i e he
    by_cases heq : i = id
    · subst heq
      simp [update_self] at he
    · rwa [update_of_ne heq] at he
  exact { h with
    own := fun i e he => h.own i e (hlive i e he)
    held := fun i e he => h.held i e (hlive i e he)
    newest := fun i e he => h.newest i e (hlive i e he) }

end

end Ledgers

variable {node : NodeID} {change : ReplicaChange}

section Members
variable {frozen frozen' : Bool} {self self' : NodeID} {desc d d' : RangeDescriptor}

theorem getReplica_isSome_of_mem {r : ReplicaDescriptor} (hr : r ∈ desc.replicas) :
    (desc.getReplica r.nodeID).isSome = true := by
  unfold RangeDescriptor.getReplica
  rw [find?_isSome]
  exact ⟨r, hr, by simp⟩

theorem exists_mem_of_getReplica (h : (desc.getReplica node).isSome = true) :
    ∃ r ∈ desc.replicas, r.nodeID = node := by
  unfold RangeDescriptor.getReplica at h
  rw [find?_isSome] at h
  obtain ⟨r, hr, heq⟩ := h
  exact ⟨r, hr, by simpa using heq⟩

theorem adminChangeReplicas_add (h : adminChangeReplicas frozen self desc (.add node) = .ok d) :
    (desc.getReplica node).isSome = false ∧ d = { desc with
            replicas := desc.replicas ++ [⟨node, node, desc.nextReplicaID⟩]
            nextReplicaID := desc.nextReplicaID + 1
            generation := desc.generation + 1 } := by
  simp only [adminChangeReplicas] at h
  split_ifs at h with _ hnone
  cases h
  exact ⟨Bool.eq_false_iff.mpr hnone, rfl⟩

theorem adminChangeReplicas_remove
    (h : adminChangeReplicas frozen self desc (.remove node) = .ok d) :
    (desc.getReplica node).isSome = true ∧ d = { desc with
            replicas := desc.replicas.filter fun r => r.nodeID != node
            generation := desc.generation + 1 } := by
  simp only [adminChangeReplicas] at h
  split_ifs at h with _ hsome
  cases h
  refine ⟨?_, rfl⟩
  rwa [Bool.not_eq_true, Option.isNone_eq_false_iff] at hsome

section
variable (h : adminChangeReplicas frozen self desc change = .ok d)
include h

theorem adminChangeReplicas_rangeID : d.rangeID = desc.rangeID := by
  cases change with
  | add node =>
    rw [(adminChangeReplicas_add h).2]
  | remove node =>
    rw [(adminChangeReplicas_remove h).2]

theorem adminChangeReplicas_inj {change' : ReplicaChange}
    (h' : adminChangeReplicas frozen' self' desc change' = .ok d')
    (hsame : sameReplicas d.replicas d'.replicas = true) :
    d = d' := by
  unfold sameReplicas at hsame
  rw [Bool.and_eq_true, all_eq_true, beq_iff_eq] at hsame
  obtain ⟨hlen, hall⟩ := hsame
  cases change with
  | add node =>
    obtain ⟨hnone, rfl⟩ := adminChangeReplicas_add h
    cases change' with
    | add node' =>
      obtain ⟨_, rfl⟩ := adminChangeReplicas_add h'
      have hmem := hall ⟨node, node, desc.nextReplicaID⟩ (by simp)
      rw [contains_iff_mem, mem_append, mem_singleton] at hmem
      rcases hmem with hmem | heq
      · have hsome := getReplica_isSome_of_mem hmem
        simp [hnone] at hsome
      · cases heq
        rfl
    | remove node' =>
      obtain ⟨_, rfl⟩ := adminChangeReplicas_remove h'
      have hle := length_filter_le (fun r : ReplicaDescriptor => r.nodeID != node') desc.replicas
      dsimp only at hlen
      rw [length_append, length_singleton] at hlen
      omega
  | remove node =>
    obtain ⟨_, rfl⟩ := adminChangeReplicas_remove h
    cases change' with
    | add node' =>
      obtain ⟨_, rfl⟩ := adminChangeReplicas_add h'
      have hle := length_filter_le (fun r : ReplicaDescriptor => r.nodeID != node) desc.replicas
      dsimp only at hlen
      rw [length_append, length_singleton] at hlen
      omega
    | remove node' =>
      obtain ⟨hsome, rfl⟩ := adminChangeReplicas_remove h'
      obtain ⟨r, hr, hnode⟩ := exists_mem_of_getReplica hsome
      by_cases heq : node' = node
      · rw [heq]
      have hmem := hall r (by
        rw [mem_filter]
        refine ⟨hr, ?_⟩
        rw [hnode]
        exact bne_iff_ne.mpr heq)
      rw [contains_iff_mem, mem_filter, hnode] at hmem
      exact absurd rfl (bne_iff_ne.mp hmem.2)

end

end Members

end Datax.Ranges
