import Datax.Kvserver.Snapshot

/-!
# What a snapshot transfers

A snapshot should leave its receiver as a replica that applied the log up to the snapshot's
position. The content arrives whole, but the header has no room for the freeze, the merge
target or the closed timestamp: the receiver persists them as empty, and an existing replica
keeps its old ones in memory.
-/

namespace Datax

open Option List

section Content
variable {content : Content} {desc : RangeDescriptor}

theorem lookup_putAll {kvs : List SnapshotKV} (hnd : kvs.NodupKeys) (k : ContentKey) :
    (putAll content kvs).lookup k = (kvs.dlookup k).or (content.lookup k) := by
  induction kvs generalizing content with
  | nil => simp [putAll]
  | cons kv kvs ih =>
    obtain ⟨hnotin, hrest⟩ := nodupKeys_cons.mp hnd
    change (putAll (content.insert kv.1 kv.2) kvs).lookup k = _
    rw [ih hrest]
    by_cases hk : k = kv.1
    · subst hk
      rw [dlookup_eq_none.mpr hnotin, AList.lookup_insert]
      exact (dlookup_cons_eq kvs kv.1 kv.2).symm ▸ rfl
    · rw [AList.lookup_insert_ne hk]
      rw [show (kv :: kvs).dlookup k = kvs.dlookup k from dlookup_cons_ne _ _ hk]

theorem lookup_foldl_erase (ks : List ContentKey) (k : ContentKey) :
    (ks.foldl (fun c k => AList.erase k c) content).lookup k = if k ∈ ks then none
      else content.lookup k := by
  induction ks generalizing content with
  | nil => simp
  | cons k' ks ih =>
    rw [foldl_cons, ih]
    by_cases hk : k = k'
    · subst hk
      simp
    · simp [hk]

theorem lookup_deleteSpan (k : ContentKey) :
    (deleteSpan desc content).lookup k = if inSpan desc k = true then none
      else content.lookup k := by
  rw [deleteSpan, lookup_foldl_erase]
  by_cases hs : inSpan desc k = true
  · split
    · rfl
    rename_i hmem
    rw [AList.lookup_eq_none]
    intro hk
    obtain ⟨b, hb⟩ := mem_keys.mp hk
    exact hmem (mem_map.mpr ⟨⟨k, b⟩, mem_filter.mpr ⟨hb, hs⟩, rfl⟩)
  · rw [if_neg hs, if_neg]
    intro hmem
    obtain ⟨kv, hkv, rfl⟩ := mem_map.mp hmem
    exact hs (mem_filter.mp hkv).2

theorem snapshotSpans_perm :
    (snapshotSpans desc content).flatten.Perm
      (content.entries.filter fun kv => inSpan desc kv.1) := by
  simp only [snapshotSpans, flatten_cons, flatten_nil, append_nil]
  exact filter_append_perm _ _

theorem snapshotSpans_nodupKeys : (snapshotSpans desc content).flatten.NodupKeys := by
  rw [perm_nodupKeys snapshotSpans_perm]
  exact List.NodupKeys.sublist filter_sublist content.nodupKeys

theorem dlookup_snapshotSpans (k : ContentKey) : (snapshotSpans desc content).flatten.dlookup k =
      if inSpan desc k = true then content.lookup k else none := by
  rw [perm_dlookup k snapshotSpans_nodupKeys snapshotSpans_perm]
  have hnd : (content.entries.filter fun kv => inSpan desc kv.1).NodupKeys :=
    List.NodupKeys.sublist filter_sublist content.nodupKeys
  apply Option.ext
  intro b
  by_cases hs : inSpan desc k = true
  · rw [if_pos hs, ← mem_def, ← mem_def, mem_dlookup_iff hnd,
      AList.lookup, mem_dlookup_iff content.nodupKeys, mem_filter]
    exact and_iff_left hs
  · rw [if_neg hs, ← mem_def, mem_dlookup_iff hnd, mem_filter]
    simp [hs]

theorem kvs_streamSnapshot (snap : RangeEngine) (replicaID : ReplicaID) (term : Nat)
    (prior : Option RangeDescriptor) :
    (streamSnapshot snap desc replicaID term prior).kvs =
      (snapshotSpans desc snap.content).flatten := by
  rw [Snapshot.kvs, drain_eq_remaining _ _ (Nat.lt_succ_self _)]
  rfl

end Content

/-- The store a snapshot arrives at: it has no replica of the range, or a replica
that staged the stream when it was `staged` and is now `r`. -/
inductive Receiver where
  | fresh (eng : RangeEngine)
  | existing (staged r : Replica) (eng : RangeEngine)

/-- The replica after the install, when the snapshot is neither refused nor overtaken. -/
def Receiver.receive (s : Snapshot) : Receiver → Option (Replica × RangeEngine)
  | .fresh eng => some (applySnapshotStream eng s)
  | .existing staged r eng =>
    match installSnapshot staged s with
    | .error _ => none
    | .ok p =>
      if r.appliedIndex < p.header.appliedIndex then
        (applySnapshot r eng (some p) p.header.appliedIndex).toOption
      else none

/-- The receiver is, on disk, in memory and after a restart, like the replica that
applied the log. -/
structure Transferred (sender : Replica × RangeEngine) (desc : RangeDescriptor)
    (receiver : Replica × RangeEngine) : Prop where
  persisted : receiver.2.state.toReplicated = sender.1.toReplicated
  memory : receiver.1.toReplicated = sender.1.toReplicated
  restarted : (newReplica receiver.2 desc).toReplicated = sender.1.toReplicated
  content : ∀ k, inSpan desc k = true → receiver.2.content.lookup k = sender.2.content.lookup k

/-- There is nothing that the snapshot leaves behind, and nothing of the receiver's
own that survives it. -/
def NothingForgotten (sender : Replica × RangeEngine) (desc : RangeDescriptor) : Receiver → Prop
  | .fresh eng =>
    (sender.1.frozen = false ∧ sender.1.mergedInto = 0 ∧ sender.1.closedTS = ⊥) ∧
      ∀ k, inSpan desc k = true → sender.2.content.lookup k = none → eng.content.lookup k = none
  | .existing _ r _ =>
    (sender.1.frozen = false ∧ sender.1.mergedInto = 0 ∧ sender.1.closedTS = ⊥) ∧
      r.frozen = false ∧ r.mergedInto = 0 ∧ r.closedTS = ⊥

variable {staged : Replica} {eng eng' : RangeEngine}

section Transfer
variable {sender : Replica × RangeEngine} {desc : RangeDescriptor} {replicaID : ReplicaID}
  {term : Nat} {prior : Option RangeDescriptor}

theorem Replicated.eq_iff {a b : Replicated} :
    a = b ↔ a.appliedIndex = b.appliedIndex ∧ a.gcThreshold = b.gcThreshold ∧
      a.sizeBytes = b.sizeBytes ∧ a.frozen = b.frozen ∧ a.mergedInto = b.mergedInto ∧
      a.closedTS = b.closedTS := by
  cases a
  cases b
  simp

theorem seedState_eq_iff (desc : RangeDescriptor) (replicaID : ReplicaID) (term : Nat)
    (prior : Option RangeDescriptor) (h : Mirrored sender.1 sender.2) :
    (streamSnapshot sender.2 desc replicaID term prior).header.seedState.toReplicated =
      sender.1.toReplicated ↔
      sender.1.frozen = false ∧ sender.1.mergedInto = 0 ∧ sender.1.closedTS = ⊥ := by
  rw [Replicated.eq_iff, ← h]
  simp only [SnapshotHeader.seedState, streamSnapshot, true_and]
  rw [eq_comm, eq_comm (a := 0), eq_comm (a := ⊥)]

theorem receive_existing {s : Snapshot} {r r' : Replica}
    (h : (Receiver.existing staged r eng).receive s = some (r', eng')) :
    r' = r.restore s.header ∧ eng' = commitInstall eng s := by
  simp only [Receiver.receive] at h
  split at h
  · cases h
  rename_i p hinstall
  have hp := installSnapshot_ok hinstall
  subst hp
  split_ifs at h with hlt
  rw [applySnapshot, if_neg (by simp), if_neg (by omega)] at h
  cases h
  exact ⟨rfl, rfl⟩

theorem lookup_putAll_stream (content : Content) (k : ContentKey) (hk : inSpan desc k = true) :
    (putAll content (streamSnapshot sender.2 desc replicaID term prior).kvs).lookup k =
      (sender.2.content.lookup k).or (content.lookup k) := by
  rw [kvs_streamSnapshot, lookup_putAll snapshotSpans_nodupKeys, dlookup_snapshotSpans, if_pos hk]

theorem transferred_fresh_iff (h : Mirrored sender.1 sender.2) (eng : RangeEngine) :
    Transferred sender desc
        (applySnapshotStream eng (streamSnapshot sender.2 desc replicaID term prior)) ↔
      NothingForgotten sender desc (.fresh eng) := by
  have hcontent : (∀ k, inSpan desc k = true →
      (putAll eng.content (streamSnapshot sender.2 desc replicaID term prior).kvs).lookup k =
        sender.2.content.lookup k) ↔
      ∀ k, inSpan desc k = true → sender.2.content.lookup k = none →
        eng.content.lookup k = none := by
    refine forall_congr' fun k => forall_congr' fun hk => ?_
    rw [lookup_putAll_stream eng.content k hk]
    cases sender.2.content.lookup k <;> simp
  constructor
  · intro ht
    exact ⟨(seedState_eq_iff desc replicaID term prior h).mp ht.persisted, hcontent.mp ht.content⟩
  · intro hn
    have hseed := (seedState_eq_iff desc replicaID term prior h).mpr hn.1
    exact ⟨hseed, hseed, hseed, hcontent.mpr hn.2⟩

theorem transferred_existing_iff (h : Mirrored sender.1 sender.2) {r r' : Replica}
    (hreceive : (Receiver.existing staged r eng).receive
      (streamSnapshot sender.2 desc replicaID term prior) = some (r', eng')) :
    Transferred sender desc (r', eng') ↔ NothingForgotten sender desc (.existing staged r eng) := by
  obtain ⟨hr, heng⟩ := receive_existing hreceive
  subst hr heng
  have hcontent : ∀ k, inSpan desc k = true →
      (commitInstall eng (streamSnapshot sender.2 desc replicaID term prior)).content.lookup k =
        sender.2.content.lookup k := by
    intro k hk
    change (putAll (deleteSpan desc eng.content) _).lookup k = _
    rw [lookup_putAll_stream _ k hk, lookup_deleteSpan, if_pos hk, or_none]
  have hseed := seedState_eq_iff desc replicaID term prior h
  have hmemory :
      (r.restore (streamSnapshot sender.2 desc replicaID term prior).header).toReplicated =
      sender.1.toReplicated ↔ r.frozen = sender.1.frozen ∧ r.mergedInto = sender.1.mergedInto ∧
        r.closedTS = sender.1.closedTS := by
    rw [Replicated.eq_iff, ← h]
    simp [Replica.restore, streamSnapshot]
  constructor
  · intro ht
    have hempty := hseed.mp ht.persisted
    obtain ⟨hf, hm, hc⟩ := hmemory.mp ht.memory
    exact ⟨hempty, hf.trans hempty.1, hm.trans hempty.2.1, hc.trans hempty.2.2⟩
  · intro ⟨hempty, hf, hm, hc⟩
    have hpersisted := hseed.mpr hempty
    have hmem :=
      hmemory.mpr ⟨hf.trans hempty.1.symm, hm.trans hempty.2.1.symm, hc.trans hempty.2.2.symm⟩
    exact ⟨hpersisted, hmem, hpersisted, hcontent⟩

end Transfer

/-- A snapshot leaves its receiver like a replica that applied the log exactly
when the sender is not frozen and has no closed timestamp, and the receiver holds
nothing of its own that the install does not overwrite. -/
theorem snapshot_transfers_iff (r₀ : Replica) (eng₀ : RangeEngine) (log : List RaftCommand)
    (hmirror : Mirrored r₀ eng₀) (desc : RangeDescriptor) (replicaID : ReplicaID) (term : Nat)
    (prior : Option RangeDescriptor) (receiver : Receiver) (after : Replica × RangeEngine)
    (hreceive : receiver.receive
      (streamSnapshot (applyLog r₀ eng₀ log).2 desc replicaID term prior) = some after) :
    Transferred (applyLog r₀ eng₀ log) desc after ↔
      NothingForgotten (applyLog r₀ eng₀ log) desc receiver := by
  have h := applyLog_mirrored log hmirror
  cases receiver with
  | fresh eng =>
    cases hreceive
    exact transferred_fresh_iff h eng
  | existing staged r eng => exact transferred_existing_iff h hreceive

def emptyEngine : RangeEngine := ⟨{}, some wholeRange, ∅⟩

def subsumeCommand : RaftCommand := { eval := some, freeze := fun _ => some (.subsume 7) }

def writeCommand : RaftCommand :=
  { eval := fun content => some (content.insert (.mvcc [1] (some ⟨5, 0⟩)) [9]), sizeDelta := 2 }

theorem snapshot_transfers_one_write :
    Transferred (applyLog (newReplica emptyEngine wholeRange) emptyEngine [writeCommand]) wholeRange
      (applySnapshotStream emptyEngine (streamSnapshot
        (applyLog (newReplica emptyEngine wholeRange) emptyEngine [writeCommand]).2 wholeRange
          2 1 none)) :=
  (snapshot_transfers_iff (newReplica emptyEngine wholeRange) emptyEngine [writeCommand] rfl
    wholeRange 2 1 none (.fresh emptyEngine) _ rfl).mpr ⟨⟨rfl, rfl, rfl⟩, fun _ _ _ => rfl⟩

/-- The sender is frozen for a merge; the replica seeded from its snapshot is not,
on disk or in memory. -/
theorem snapshot_loses_freeze :
    (applyLog (newReplica emptyEngine wholeRange) emptyEngine [subsumeCommand]).1.frozen = true ∧
      (applySnapshotStream emptyEngine (streamSnapshot
        (applyLog (newReplica emptyEngine wholeRange) emptyEngine [subsumeCommand]).2
        wholeRange 2 1 none)).1.frozen = false ∧
      ¬ Transferred
        (applyLog (newReplica emptyEngine wholeRange) emptyEngine [subsumeCommand]) wholeRange
        (applySnapshotStream emptyEngine (streamSnapshot
          (applyLog (newReplica emptyEngine wholeRange) emptyEngine [subsumeCommand]).2
          wholeRange 2 1 none)) := by
  refine ⟨rfl, rfl, ?_⟩
  intro h
  have hfrozen := congrArg Replicated.frozen h.persisted
  exact Bool.false_ne_true hfrozen

end Datax
