import Datax.Kvserver.StoreRejoin

/-!
# Replicas that vote stay

Each action of the store is a sequence of the moves that keep the invariant, so every run that
flushes a new replica before it votes does.
-/

namespace Datax.StoreLife

open Function List

variable {s s' : Store} {id : RangeID}

theorem vacant_iff :
    vacant s id = true ↔ (s.state.current id).desc = none ∧ s.raft id = none ∧ id ∉ s.wiping := by
  unfold vacant
  simp [and_assoc]

variable {g : RaftGroup}

theorem not_pending_of_not_awaited (h : awaited s id = false) (hg : s.raft id = some g) {i : Nat}
    (hlt : (s.state.current id).applied < i) (hle : i ≤ g.commit) (splitKey : Key)
    (newID : RangeID) :
    g.log i ≠ some (.split splitKey newID) := by
  intro hlog
  have hyes : awaited s id = true := by
    unfold awaited
    rw [hg, Option.any_some, any_eq_true]
    refine ⟨i, mem_range.mpr (Nat.lt_succ_of_le hle), ?_⟩
    rw [hlog, decide_eq_true hlt]
    rfl
  simp [h] at hyes

theorem Inv.none_of_blank (h : Inv s) (hnone : (s.state.current id).desc = none) :
    s.replicas id = none := by
  cases hr : s.replicas id with
  | none => rfl
  | some o =>
    have hn := (h.running id (by rw [hr]; rfl)).1
    unfold RangeKeys.names at hn
    simp [hnone] at hn

variable {k : RangeKeys} {desc : RangeDescriptor} {node : NodeID}

theorem names_of_getReplica (hk : k.desc = some desc)
    (h : (desc.getReplica node).isSome = true) : k.names node = true := by
  unfold RangeKeys.names
  rw [hk]
  exact h

theorem isSome_of_names (h : k.names node = true) : k.desc.isSome = true := by
  unfold RangeKeys.names at h
  cases hd : k.desc with
  | none =>
    simp [hd] at h
  | some d => rfl

section
variable (h : Inv s) (hvac : vacant s id = true) (hk : k.names s.node = true)
include h hvac hk

theorem Inv.putNew : Inv (s.put id k) := by
  obtain ⟨hnone, hraft, hwipe⟩ := vacant_iff.mp hvac
  have hno : ∀ g, s.raft id ≠ some g := by
    intro g hg
    simp [hraft] at hg
  apply h.put_stays
  · apply h.toHeld.put hwipe (fun _ => hk) (isSome_of_names hk)
    · rw [h.blank id hnone]
      exact Nat.zero_le _
    · exact fun g _ _ hg => absurd hg (hno g)
  · intro hrun
    simp [h.none_of_blank hnone] at hrun

theorem Inv.created : Inv ((s.put id k).startReplica id .created) := by
  obtain ⟨hnone, hraft, hwipe⟩ := vacant_iff.mp hvac
  apply (h.putNew hvac hk).start (h.none_of_blank hnone) hwipe
  · rwa [s.put_self]
  · exact .inr ⟨by decide, hraft⟩
  rintro (hsome | horigin | hdurable)
  · change (s.raft id).isSome = true at hsome
    simp [hraft] at hsome
  · cases horigin
  · have hd := ((h.behind id).resolve_left hwipe).2 hnone
    have hsome := isSome_of_names hdurable
    change (s.state.durable id).desc.isSome = true at hsome
    simp [hd] at hsome

end

theorem inv_createReplica (h : Inv s) {bootstrap : Bool}
    (hvac : vacant s desc.rangeID = true) (hs : createReplica s desc bootstrap = some s') :
    Inv s' := by
  obtain ⟨hnone, hraft, hwipe⟩ := vacant_iff.mp hvac
  unfold createReplica at hs
  split at hs
  case isFalse => cases hs
  case isTrue hmem =>
    have hk := names_of_getReplica
      (k := { s.state.current desc.rangeID with desc := some desc }) rfl hmem
    cases bootstrap with
    | false =>
      cases hs
      exact h.created hvac hk
    | true =>
      cases hs
      apply (h.putNew hvac hk).toHeld.flush.start (h.none_of_blank hnone) hwipe
      · change ((s.put desc.rangeID _).state.current desc.rangeID).names _ = true
        rwa [s.put_self]
      · exact .inr ⟨by decide, hraft⟩
      · exact fun _ => le_rfl

variable {appliedIndex : Nat}

theorem inv_applySnapshotStream (h : Inv s) (hvac : vacant s desc.rangeID = true)
    (hs : applySnapshotStream s desc appliedIndex = some s') : Inv s' := by
  unfold applySnapshotStream at hs
  split at hs
  case isFalse => cases hs
  case isTrue hmem =>
    cases hs
    apply h.created hvac
    exact names_of_getReplica rfl (Bool.and_eq_true_iff.mp hmem).1

theorem Inv.voter (h : Inv s) (hrun : (s.replicas id).isSome = true) (hg : s.raft id = some g) :
    Recoverable s.node s.raft s.state.durable id := by
  apply h.durable
  rw [(h.running id hrun).2, hg]
  rfl

theorem inv_installSnapshot (h : Inv s) (hnone : awaited s id = false)
    (hs : installSnapshot s id appliedIndex = some s') : Inv s' := by
  unfold installSnapshot at hs
  split at hs
  case h_2 => cases hs
  case h_1 o g hr hg =>
    split at hs
    case isFalse => cases hs
    case isTrue hlt =>
      cases hs
      have hrun : (s.replicas id).isSome = true := by rw [hr]; rfl
      have hn := (h.running id hrun).1
      have hdone : ∀ g', s.raft id = some g' → ∀ i id', (s.state.current id).applied < i →
          i ≤ g'.commit → ¬ ∃ splitKey, g'.log i = some (.split splitKey id') := by
        rintro g' hg' i id' hi hle ⟨splitKey, hlog⟩
        exact not_pending_of_not_awaited hnone hg' hi hle splitKey id' hlog
      have hput : Held (s.put id { s.state.current id with applied := appliedIndex }) := by
        refine h.toHeld.put (h.not_wiping hrun) (fun _ => hn) (isSome_of_names hn) hlt.le ?_
        intro g' i id' hg' hp
        exact absurd hp.entry (hdone g' hg' i id' hp.above hp.committed)
      -- after the flush both contents are the one that is past every committed split
      have hpast : ∀ g' i id', s.raft id = some g' →
          ¬ Pending s.node
            (s.put id { s.state.current id with applied := appliedIndex }).state.current
            id g' i id' := by
        intro g' i id' hg' hp
        have habove := hp.above
        rw [s.put_self] at habove
        exact hdone g' hg' i id' (hlt.trans habove) hp.committed hp.entry
      apply hput.flush.setRaft hrun
      · apply Recoverable.loaded
        change ((s.put id _).state.current id).names s.node = true
        rw [s.put_self]
        exact hn
      · exact fun g' i id' hg' hp => absurd hp (hpast g' i id' hg')
      · exact fun g' i id' hg' hp => absurd hp (hpast g' i id' hg')
      · exact fun j hlt' hle => absurd hle (not_le.mpr hlt')

theorem appendLog_of_lt {log : Nat → Option Entry} {first j : Nat} (entries : List Entry)
    (h : j < first) :
    appendLog log first entries j = log j := if_pos h

theorem inv_ready (h : Inv s) {term commit first : Nat} {vote : ReplicaID} {entries : List Entry}
    (hguard : s.replicas id = some .split ∨ (s.state.durable id).names s.node = true)
    (hs : ready s id term vote commit first entries = some s') : Inv s' := by
  unfold ready at hs
  split at hs
  case h_1 => cases hs
  case h_2 o hr =>
    dsimp only at hs
    split at hs
    case isFalse => cases hs
    case isTrue hcond =>
      obtain ⟨hcommit, _, hfirst, hfirst'⟩ := hcond
      cases hs
      have hrun : (s.replicas id).isSome = true := by rw [hr]; rfl
      have hlog : ∀ j, j < first → (if entries.isEmpty = true then ((s.raft id).getD {}).log
            else appendLog ((s.raft id).getD {}).log first entries) j =
            ((s.raft id).getD {}).log j := by
        intro j hj
        split
        · rfl
        · exact appendLog_of_lt entries hj
      have hkeep : ∀ c : RangeID → RangeKeys, ∀ g i id', s.raft id = some g →
          Pending s.node c id g i id' →
          Pending s.node c id
            { term := term, vote := vote, commit := commit,
              log := if entries.isEmpty = true then ((s.raft id).getD {}).log
                else appendLog ((s.raft id).getD {}).log first entries } i id' := by
        intro c g i id' hg hp
        rw [hg, Option.getD_some] at hcommit hfirst hlog ⊢
        have hi : i < first := hp.committed.trans_lt hfirst
        refine ⟨?_, hp.above, hp.committed.trans hcommit, ?_⟩
        · obtain ⟨splitKey, he⟩ := hp.entry
          exact ⟨splitKey, (hlog i hi).trans he⟩
        · intro j hj hji
          obtain ⟨e, he, hstay⟩ := hp.stays j hj hji
          exact ⟨e, (hlog j (hji.trans hi)).trans he, hstay⟩
      apply h.setRaft hrun
      · exact hguard.elim (h.split id) .loaded
      · exact hkeep _
      · exact hkeep _
      intro j hlt hle
      obtain ⟨g, e, hg, he, hstay⟩ := h.stays id hrun (.inr hguard) j hlt hle
      refine ⟨e, (hlog j (hle.trans_lt hfirst')).trans ?_, hstay⟩
      rw [hg]
      exact he

theorem inv_truncate (h : Inv s) {index : Nat} (hs : truncate s id index = some s') : Inv s' := by
  unfold truncate at hs
  split at hs
  case h_2 => cases hs
  case h_1 o g hr hg =>
    split at hs
    case isFalse => cases hs
    case isTrue hindex =>
      cases hs
      have hrun : (s.replicas id).isSome = true := by rw [hr]; rfl
      have hle := ((h.behind id).resolve_left (h.not_wiping hrun)).1
      have hlog : ∀ j, (s.state.durable id).applied < j →
          (if j ≤ index then none else g.log j) = g.log j := by
        intro j hj
        exact if_neg (not_le.mpr (hindex.trans_lt hj))
      have hkeep : ∀ c : RangeID →
          RangeKeys, (s.state.durable id).applied ≤ (c id).applied →
          ∀ g' i id', s.raft id = some g' → Pending s.node c id g' i id' →
          Pending s.node c id
            { g with log := fun j => if j ≤ index then none else g.log j } i id' := by
        intro c hc g' i id' hg' hp
        rw [hg, Option.some.injEq] at hg'
        subst hg'
        refine ⟨?_, hp.above, hp.committed, ?_⟩
        · obtain ⟨splitKey, he⟩ := hp.entry
          exact ⟨splitKey, (hlog i (hc.trans_lt hp.above)).trans he⟩
        · intro j hj hji
          obtain ⟨e, he, hstay⟩ := hp.stays j hj hji
          exact ⟨e, (hlog j (hc.trans_lt hj)).trans he, hstay⟩
      apply h.setRaft hrun (h.voter hrun hg)
      · exact hkeep _ le_rfl
      · exact hkeep _ hle
      intro j hlt hle'
      obtain ⟨g', e, hg', he, hstay⟩ := h.stays id hrun (.inl (by rw [hg]; rfl)) j hlt hle'
      rw [hg, Option.some.injEq] at hg'
      subst hg'
      exact ⟨e, (hlog j hlt).trans he, hstay⟩

theorem Inv.bury (h : Inv s) (hknown : (s.state.current id).unknown = false)
    (hnone : awaited s id = false) :
    Inv (s.bury id) := by
  have hrep : (s.detach id).replicas id = none := update_self _ _ _
  have hvotes : (s.detach id).votes id = none := update_self _ _ _
  apply (h.detach id).putGone hrep hvotes hknown rfl (fun _ => rfl) (.inl ⟨mem_cons_self, rfl⟩)
  · exact fun x hx => ⟨fun hmem => (mem_cons.mp hmem).resolve_left hx, mem_cons_of_mem _⟩
  intro g i id' hg hp
  obtain ⟨splitKey, hlog⟩ := hp.entry
  exact not_pending_of_not_awaited hnone hg hp.above hp.committed splitKey id' hlog

theorem inv_removeReplica (h : Inv s) (hnone : awaited s id = false)
    (hs : removeReplica s id = some s') : Inv s' := by
  unfold removeReplica at hs
  split at hs
  case isFalse => cases hs
  case isTrue hsome =>
    cases hs
    refine h.bury ?_ hnone
    unfold RangeKeys.unknown
    rw [Option.isNone_eq_false_iff.mpr hsome]
    rfl

theorem inv_wipeRaftState (h : Inv s) (hs : wipeRaftState s id = some s') : Inv s' := by
  unfold wipeRaftState at hs
  split at hs
  case isFalse => cases hs
  case isTrue hmem =>
    cases hs
    obtain ⟨hrep, hvotes, hk⟩ := h.buried id (contains_iff_mem.mp hmem)
    have hgone : ¬ Recoverable s.node s.raft s.state.current id :=
      not_recoverable (by rw [hk]; rfl) (by rw [hk]; rfl)
    have hkeep : ∀ x, Recoverable s.node s.raft s.state.current x →
        Recoverable s.node (Function.update s.raft id none) s.state.current x :=
      fun x hx => hx.updateRaft (fun hid => absurd hid hgone)
    refine inv_iff.mpr fun x => ?_
    obtain ⟨hx, -⟩ := inv_iff.mp h x
    have hsplit : s.replicas x = some .split →
        Recoverable s.node (Function.update s.raft id none) s.state.current x :=
      fun ho => .loaded (h.running x (by rw [ho]; rfl)).1
    have hraft : x ≠ id → Function.update s.raft id none x = s.raft x :=
      fun hne => update_of_ne hne _ _
    have hidle : x = id → s.votes x = none ∧ s.replicas x = none := by
      rintro rfl
      exact ⟨hvotes, hrep⟩
    refine ⟨⟨?_, fun hv => hkeep x (hx.current hv), fun hv => hkeep x (hx.current hv), ?_, hsplit,
      fun hw => hx.buried (mem_of_mem_filter hw), fun hu => hu, hx.blank, hx.blank,
      .inr ⟨le_rfl, fun hd => hd⟩⟩, fun _ _ _ hlt hle => absurd hle (not_le.mpr hlt)⟩
    · intro g hg
      refine (hraft fun heq => ?_).trans (hx.kept g hg)
      cases (hidle heq).1.symm.trans hg
    · intro hr
      refine ⟨(hx.running hr).1, (hx.running hr).2.trans (hraft fun heq => ?_).symm⟩
      change (s.replicas x).isSome = true at hr
      simp [(hidle heq).2] at hr

variable {c : RangeID → RangeKeys}

section Apply
variable {cur : RangeDescriptor} {e : Entry}

structure Next (s : Store) (id : RangeID) (g : RaftGroup) (cur : RangeDescriptor) (e : Entry) :
    Prop where
  runs : (s.replicas id).isSome = true
  group : s.raft id = some g
  desc : (s.state.current id).desc = some cur
  committed : (s.state.current id).applied + 1 ≤ g.commit
  entry : g.log ((s.state.current id).applied + 1) = some e

theorem next_of_eq_some (hnext : s.next id = some (cur, e)) : ∃ g, Next s id g cur e := by
  unfold Store.next at hnext
  split at hnext
  case h_2 => cases hnext
  case h_1 o g cur' hr hg hd =>
    split at hnext
    case isFalse => cases hnext
    case isTrue hle =>
      rw [Option.map_eq_some_iff] at hnext
      obtain ⟨e', he, heq⟩ := hnext
      cases heq
      exact ⟨g, by rw [hr]; rfl, hg, hd, hle, he⟩

variable {g : RaftGroup}

theorem Next.names (hn : Next s id g cur e) (h : Inv s) :
    (cur.getReplica s.node).isSome = true := by
  have hnames := (h.running id hn.runs).1
  unfold RangeKeys.names at hnames
  rw [hn.desc] at hnames
  exact hnames

theorem Next.above (hn : Next s id g cur e) {i : Nat} {id' : RangeID}
    (hc : (c id).applied = (s.state.current id).applied) {g' : RaftGroup} (hg : s.raft id = some g')
    (hp : Pending s.node c id g' i id') (hother : ∀ splitKey, e ≠ .split splitKey id') :
    (s.state.current id).applied + 1 < i := by
  rw [hn.group, Option.some.injEq] at hg
  subst hg
  have habove := hp.above
  rw [hc] at habove
  refine lt_of_le_of_ne habove ?_
  intro heq
  obtain ⟨splitKey, hlog⟩ := hp.entry
  rw [← heq, hn.entry, Option.some.injEq] at hlog
  exact hother splitKey hlog

theorem Inv.advance (h : Inv s) (hn : Next s id g cur e) (hstay : e.removes s.node = false)
    (hk : k.names s.node = true) (happlied : k.applied = (s.state.current id).applied + 1)
    (hother : ∀ splitKey newID, e = .split splitKey newID →
      (s.state.current newID).unknown = false) :
    Inv (s.put id k) := by
  apply h.put_stays
  · apply h.toHeld.put (h.not_wiping hn.runs) (fun _ => hk) (isSome_of_names hk)
    · rw [happlied]
      exact Nat.le_succ _
    intro g' i id' hg hp hu
    rw [happlied]
    apply hn.above rfl hg hp
    intro splitKey heq
    simp [hother splitKey id' heq] at hu
  · intro _ j hlt hle
    have hj : j = (s.state.current id).applied + 1 := by omega
    rw [hj]
    exact ⟨g, e, hn.group, hn.entry, hstay⟩

theorem inv_applySplit (h : Inv s) {splitKey : Key} {newID : RangeID}
    (hn : Next s id g cur (.split splitKey newID)) (hu : (s.state.current newID).unknown = true) :
    Inv (applySplit s id cur ((s.state.current id).applied + 1) splitKey newID) := by
  have hmem := hn.names h
  have hunknown := Bool.and_eq_true_iff.mp hu
  have hblank : (s.state.current newID).desc = none := Option.isNone_iff_eq_none.mp hunknown.1
  have hidle := h.none_of_blank hblank
  have hwipe : newID ∉ s.wiping := by
    intro hw
    rw [(h.buried newID hw).2.2] at hu
    cases hu
  have hne : id ≠ newID := by
    intro heq
    have hd := hn.desc
    rw [heq, hblank] at hd
    cases hd
  let right := { s.state.current newID with
    desc := some
      { cur with rangeID := newID, startKey := splitKey, generation := cur.generation + 1 }
    applied := 0 }
  have hright : right.names s.node = true := names_of_getReplica rfl hmem
  have hput : Inv (s.put newID right) := by
    apply h.put_stays
    · apply h.toHeld.put hwipe (fun _ => hright) rfl
      · exact (h.blank newID hblank).le
      · exact fun _ _ _ _ hp _ => (Nat.zero_le _).trans_lt hp.above
    · intro hrun
      rw [hidle] at hrun
      cases hrun
  have hkeep : (s.put newID right).state.current id = s.state.current id := s.put_of_ne hne right
  have hn' : Next (s.put newID right) id g cur (.split splitKey newID) := by
    refine ⟨hn.runs, hn.group, ?_, ?_, ?_⟩
    · rw [hkeep]
      exact hn.desc
    · rw [hkeep]
      exact hn.committed
    · rw [hkeep]
      exact hn.entry
  let left := { s.state.current id with
    desc := some { cur with endKey := splitKey, generation := cur.generation + 1 }
    applied := (s.state.current id).applied + 1 }
  have hboth : Inv ((s.put newID right).put id left) := by
    apply hput.advance hn' rfl
    · exact names_of_getReplica rfl hmem
    · rw [hkeep]
    intro _ _ heq
    cases heq
    rw [s.put_self]
    exact not_unknown_of_names hright
  have hcur : ((s.put newID right).put id left).state.current newID = right := by
    rw [Store.put_of_ne _ hne.symm, s.put_self]
  have hrec : Recoverable s.node s.raft s.state.durable newID := by
    have hle := ((h.behind id).resolve_left (h.not_wiping hn.runs)).1
    refine .replayed (h.voter hn.runs hn.group) hn.group
      ⟨⟨splitKey, hn.entry⟩, ?_, hn.committed, ?_⟩ ?_
    · exact Nat.lt_succ_of_le hle
    · intro j hlt hj
      obtain ⟨g', e, hg, he, hstay⟩ :=
        h.stays id hn.runs (.inl (by rw [hn.group]; rfl)) j hlt (Nat.le_of_lt_succ hj)
      rw [hn.group, Option.some.injEq] at hg
      subst hg
      exact ⟨e, he, hstay⟩
    · exact h.known newID hu
  unfold applySplit
  dsimp only
  split
  case isFalse => exact hboth
  case isTrue =>
    apply hboth.start hidle hwipe
    · rw [hcur]
      exact hright
    · exact .inl hrec
    · intro _
      rw [hcur]
      exact Nat.zero_le _

theorem inv_applyMerge (h : Inv s) {rhs : RangeID} {endKey : Key} {generation : Int}
    (hn : Next s id g cur (.merge rhs endKey generation)) (hrhs : (s.replicas rhs).isSome = true)
    (hne : rhs ≠ id) (hnone : awaited s rhs = false) :
    Inv (applyMerge s id cur ((s.state.current id).applied + 1) rhs endKey generation) := by
  have hbury := h.bury (not_unknown_of_names (h.running rhs hrhs).1) hnone
  have hkeep : (s.bury rhs).state.current id = s.state.current id := update_of_ne hne.symm _ _
  have hrep : (s.bury rhs).replicas id = s.replicas id := update_of_ne hne.symm _ _
  have hn' : Next (s.bury rhs) id g cur (.merge rhs endKey generation) := by
    refine ⟨?_, hn.group, ?_, ?_, ?_⟩
    · rw [hrep]
      exact hn.runs
    · rw [hkeep]
      exact hn.desc
    · rw [hkeep]
      exact hn.committed
    · rw [hkeep]
      exact hn.entry
  apply hbury.advance hn' rfl
  · exact names_of_getReplica rfl (hn.names h)
  · rw [hkeep]
  · simp

theorem inv_applyConfChange (h : Inv s) {replicas : List ReplicaDescriptor} {next : ReplicaID}
    (hn : Next s id g cur (.changeReplicas replicas next)) :
    Inv (applyConfChange s id cur ((s.state.current id).applied + 1) replicas next) := by
  unfold applyConfChange
  dsimp only
  split
  case isTrue hmem =>
    apply h.advance hn
    · rw [Entry.removes, Bool.not_eq_false']
      exact find?_isSome.trans any_eq_true.symm |>.mp hmem
    · exact names_of_getReplica rfl hmem
    · rfl
    · simp
  case isFalse hmem =>
    have hrep : (s.detach id).replicas id = none := update_self _ _ _
    have hvotes : (s.detach id).votes id = none := update_self _ _ _
    have hwipe := h.not_wiping hn.runs
    refine (h.detach id).putGone hrep hvotes (not_unknown_of_names (h.running id hn.runs).1) rfl ?_
      (.inr ⟨hwipe, ?_, rfl⟩) (fun _ _ => Iff.rfl) ?_
    · simp
    · exact ((h.behind id).resolve_left hwipe).1.trans (Nat.le_succ _)
    intro g' i id' hg hp
    have habove := hn.above (c := s.state.current) rfl hg hp (fun _ heq => by cases heq)
    obtain ⟨e, he, hstay⟩ := hp.stays _ (Nat.lt_succ_self _) habove
    have hg' : s.raft id = some g' := hg
    rw [hn.group, Option.some.injEq] at hg'
    subst hg'
    have he' : g.log ((s.state.current id).applied + 1) = some e := he
    rw [hn.entry, Option.some.injEq] at he'
    subst he'
    apply hmem
    rw [Entry.removes, Bool.not_eq_false'] at hstay
    exact (find?_isSome.trans any_eq_true.symm).mpr hstay

end Apply

theorem inv_applyEntry (h : Inv s) (hguard : flushedFirst s (.apply id) = true)
    (hs : applyEntry s id = some s') : Inv s' := by
  dsimp only [flushedFirst] at hguard
  unfold applyEntry at hs
  cases hnext : s.next id with
  | none =>
    simp [hnext] at hs
  | some p =>
    obtain ⟨cur, e⟩ := p
    obtain ⟨g, hn⟩ := next_of_eq_some hnext
    rw [hnext] at hs hguard
    cases e with
    | command =>
      cases hs
      refine h.advance hn rfl (names_of_getReplica hn.desc (hn.names h)) rfl ?_
      simp
    | split splitKey newID =>
      cases hs
      exact inv_applySplit h hn hguard
    | merge rhs endKey generation =>
      dsimp only at hs hguard
      split at hs
      case isFalse => cases hs
      case isTrue hrhs =>
        cases hs
        exact inv_applyMerge h hn hrhs.1 hrhs.2 ((Bool.not_eq_true' _).mp hguard)
    | changeReplicas replicas next =>
      cases hs
      exact inv_applyConfChange h hn

variable {raft : RangeID → Option RaftGroup}

theorem sweep_of_recoverable (h : Recoverable node raft c id) :
    sweepOrphanRaftState c raft id = raft id := by
  apply if_neg
  rw [Bool.and_eq_true]
  rintro ⟨hnone, htomb⟩
  cases h with
  | loaded hn =>
    have hsome := isSome_of_names hn
    simp [Option.isNone_iff_eq_none.mp hnone] at hsome
  | replayed _ _ _ hu =>
    unfold RangeKeys.unknown at hu
    rw [htomb, Bool.and_eq_true] at hu
    cases hu.2

theorem Recoverable.swept (h : Recoverable node raft c id) :
    Recoverable node (sweepOrphanRaftState c raft) c id := by
  apply h.transfer (fun _ => False) _ _ _ not_false
  · exact fun _ _ hn => hn
  · exact fun _ hu => .inl hu
  · intro lhs g i x hl hg hp _
    exact .inr ⟨not_false, g, (sweep_of_recoverable hl).trans hg, hp⟩

theorem restart_replicas (s : Store) (id : RangeID) :
    ((restart s).replicas id).isSome = (s.state.durable id).names s.node := by
  change (if (s.state.durable id).names s.node = true then some Origin.loaded else none).isSome = _
  cases (s.state.durable id).names s.node with
  | false | true => rfl

theorem restart_votes (hg : s.votes id = some g) : (restart s).votes id = some g := by
  change (if (s.state.durable id).names s.node = true then _ else _) = _
  split
  · rw [hg]
    rfl
  · exact hg

theorem inv_restart (h : Inv s) : Inv (restart s) := by
  have hkept : ∀ id g, s.votes id = some g →
      sweepOrphanRaftState s.state.durable s.raft id = some g := by
    intro id g hg
    rw [sweep_of_recoverable (h.durable id (by rw [hg]; rfl))]
    exact h.kept id g hg
  have hvotes : ∀ id, (restart s).votes id = s.votes id ∨ (s.state.durable id).names s.node = true ∧
      (restart s).votes id = sweepOrphanRaftState s.state.durable s.raft id := by
    intro id
    change (if (s.state.durable id).names s.node = true then
      (s.votes id).or (sweepOrphanRaftState s.state.durable s.raft id) else s.votes id) = _ ∨ _ ∧
        (if (s.state.durable id).names s.node = true then
          (s.votes id).or (sweepOrphanRaftState s.state.durable s.raft id) else s.votes id) = _
    split
    case isFalse => exact .inl rfl
    case isTrue hn =>
      cases hv : s.votes id with
      | none => exact .inr ⟨hn, rfl⟩
      | some g => exact .inl rfl
  have hrec : ∀ id, ((restart s).votes id).isSome = true →
      Recoverable s.node (sweepOrphanRaftState s.state.durable s.raft) s.state.durable id := by
    intro id hid
    rcases hvotes id with hold | ⟨hn, _⟩
    · rw [hold] at hid
      exact (h.durable id hid).swept
    · exact .loaded hn
  constructor
  · constructor
    case kept =>
      intro id g hg
      rcases hvotes id with hold | ⟨_, hnew⟩
      · rw [hold] at hg
        exact hkept id g hg
      · rw [← hg]
        exact hnew.symm
    case durable | current => exact hrec
    case running =>
      intro id hid
      rw [restart_replicas] at hid
      refine ⟨hid, ?_⟩
      rcases hvotes id with hold | ⟨_, hnew⟩
      · cases hv : s.votes id with
        | none =>
          change (if (s.state.durable id).names s.node = true then _ else _) = _
          rw [if_pos hid, hv]
          rfl
        | some g =>
          rw [hold, hv]
          exact (hkept id g hv).symm
      · exact hnew
    case split =>
      intro id hid
      change (if (s.state.durable id).names s.node = true then some Origin.loaded else none) =
        _ at hid
      split_ifs at hid
      cases hid
    case buried =>
      intro id hid
      cases hid
    case known => exact fun _ hu => hu
    case blank | blank_durable => exact h.blank_durable
    case behind => exact fun _ => .inr ⟨le_rfl, fun hd => hd⟩
  · exact fun _ _ _ _ hlt hle => absurd hle (not_le.mpr hlt)

theorem inv_empty (node : NodeID) : Inv (Store.empty node) := by
  refine inv_iff.mpr fun id => ⟨?_, fun hr => (by cases hr)⟩
  exact ⟨fun _ hg => (by cases hg), fun hv => (by cases hv), fun hv => (by cases hv), fun hr =>
    (by cases hr), fun hr => (by cases hr), fun hw => (by cases hw), fun hu => hu, fun _ => rfl,
    fun _ => rfl, .inr ⟨le_rfl, fun hd => hd⟩⟩

theorem inv_step (a : Action) (h : Inv s) (hguard : flushedFirst s a = true)
    (hs : step s a = some s') : Inv s' := by
  cases a with
  | createReplica desc bootstrap => exact inv_createReplica h hguard hs
  | applySnapshotStream desc appliedIndex => exact inv_applySnapshotStream h hguard hs
  | installSnapshot id appliedIndex =>
    exact inv_installSnapshot h ((Bool.not_eq_true' _).mp hguard) hs
  | ready id term vote commit first entries =>
    apply inv_ready h _ hs
    rcases Bool.or_eq_true_iff.mp hguard with hsplit | hn
    · exact .inl (of_decide_eq_true hsplit)
    · exact .inr hn
  | apply id => exact inv_applyEntry h hguard hs
  | remove id => exact inv_removeReplica h ((Bool.not_eq_true' _).mp hguard) hs
  | wipe id => exact inv_wipeRaftState h hs
  | truncate id index => exact inv_truncate h hs
  | flush =>
    cases hs
    exact h.toHeld.flush
  | crash =>
    cases hs
    exact inv_restart h

theorem Recoverable.rejoins (h : Recoverable s.node (restart s).raft s.state.durable id) :
    Rejoins (restart s) id := by
  induction h with
  | loaded hn =>
    apply Rejoins.running
    rw [restart_replicas]
    exact hn
  | replayed _ hg hp _ ih => exact .replayed ih hg hp

/-- In every run that flushes a new replica's descriptor before the replica votes,
a crash at any point loses no replica that has voted, nor its vote and log. -/
theorem voters_stay (node : NodeID) (actions : List Action)
    (hguard : Runs.Guarded step (fun s a => flushedFirst s a = true) (Store.empty node) actions)
    (hrun : Runs.run step (Store.empty node) actions = some s) : VotersStay s := by
  have hinv : Inv s :=
    Runs.invariant_of_run (fun _ a _ h hg hs => inv_step a h hg hs) (inv_empty node) hguard hrun
  intro id g hg
  have hafter := inv_restart hinv
  have hvotes := restart_votes hg
  refine ⟨hafter.kept id g hvotes, ?_⟩
  exact (hafter.durable id (by rw [hvotes]; rfl)).rejoins

section Runs

private def pair : RangeDescriptor :=
  { rangeID := 2, startKey := [], endKey := [255]
    replicas := [⟨1, 1, 1⟩, ⟨2, 2, 2⟩], nextReplicaID := 3
    generation := 0 }

/-- A replica is removed, a snapshot brings the range back, and the new replica
votes. A crash before the next flush leaves the tombstone of the first one, and the
restart deletes the vote. -/
theorem readded_voter_swept : ∃ s, Runs.run step (Store.empty 1)
    [.applySnapshotStream pair 10, .remove 2, .wipe 2, .applySnapshotStream pair 20,
      .ready 2 5 2 20 21 []]
      = some s ∧ ¬ VotersStay s := by
  refine Runs.exists_of_run (fun s => (s.votes 2).isSome ∧ ((restart s).raft 2).isNone)
    (by decide) ?_
  rintro s - ⟨hvotes, hraft⟩ hstay
  obtain ⟨g, hg⟩ := Option.isSome_iff_exists.mp hvotes
  have hkept := (hstay 2 g hg).1
  simp [Option.isNone_iff_eq_none.mp hraft] at hkept

theorem voters_stay_split : ∃ s, Runs.run step (Store.empty 1)
    [.createReplica pair true, .ready 2 1 1 0 1 [.split [7] 3], .ready 2 1 1 1 2 [], .apply 2,
      .ready 3 4 2 0 1 []] = some s ∧ (s.votes 3).isSome = true ∧ VotersStay s := by
  refine Runs.exists_of_run (fun s => (s.votes 3).isSome) (by decide) ?_
  exact fun s hrun hp => ⟨hp, voters_stay 1 _ (by decide) hrun⟩

end Runs

end Datax.StoreLife
