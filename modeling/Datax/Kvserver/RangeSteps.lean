import Datax.Kvserver.RangeLedger

/-!
# One change of the ranges

A change that is not refused was built from the very descriptor it meets, since the generations
agree, and cuts a range in two, joins two neighbours or keeps the bounds. Only a membership change
that finds its own outcome may meet another descriptor; that one came from its base by a membership
change too, and is that change's outcome.
-/

namespace Datax.Ranges

open List RangeDescriptor Command

/-- The command was built from descriptors that the ranges have had. -/
def Built (past : List RangeDescriptor) : Command → Prop
  | .split trig => ∃ desc ∈ past, ∃ splitKey newID closedTS,
    adminSplit false desc splitKey newID closedTS = .ok trig
  | .merge trig =>
    ∃ desc ∈ past, ∃ rhsDesc ∈ past, ∃ rhs, adminMergeTrigger desc rhsDesc rhs = .ok trig
  | .confChange newDesc =>
    ∃ desc ∈ past, ∃ self change, adminChangeReplicas false self desc change = .ok newDesc

variable {c : Command}

theorem Built.mono {past past' : List RangeDescriptor} (h : Built past c)
    (hsub : ∀ d ∈ past, d ∈ past') : Built past' c := by
  cases c with
  | split trig | confChange newDesc =>
    obtain ⟨desc, hd, hrest⟩ := h
    exact ⟨desc, hsub desc hd, hrest⟩
  | merge trig =>
    obtain ⟨desc, hd, rhsDesc, hr, hrest⟩ := h
    exact ⟨desc, hsub desc hd, rhsDesc, hsub rhsDesc hr, hrest⟩

/-- Every range ID in use was allocated, and the ID of a split's right-hand side is
its own and is in use only once the split is stale. -/
structure Allocated (s : Layout) : Prop where
  used : ∀ d ∈ s.past, d.rangeID ≤ s.rangeIDGen
  reserved : ∀ trig, split trig ∈ s.proposed → trig.right.rangeID ≤ s.rangeIDGen
  unused : ∀ trig, split trig ∈ s.proposed → ∀ d ∈ s.past, d.rangeID = trig.right.rangeID →
    ∃ e ∈ s.past, e.rangeID = trig.left.rangeID ∧ trig.left.generation ≤ e.generation
  distinct : ∀ trig trig', split trig ∈ s.proposed → split trig' ∈ s.proposed →
    trig.right.rangeID = trig'.right.rangeID → trig = trig'

structure Inv (keyspace : Set Key) (s : Layout) : Prop where
  ledger : Ledger s.live s.past
  partition : s.Partition keyspace
  wide : ∀ id d, s.live id = some d → d.startKey < d.endKey
  allocated : Allocated s
  built : ∀ c ∈ s.proposed, Built s.past c

variable {d newDesc : RangeDescriptor}

section Steps
variable {keyspace : Set Key} {s s' : Layout} {cur : RangeDescriptor} {id : RangeID}

theorem mem_span (h : s.live id = some d) {k : Key} : k ∈ s.span id ↔ d.containsKey k = true := by
  constructor
  · rintro ⟨e, he, hk⟩
    rw [h] at he
    cases he
    exact hk
  · intro hk
    exact ⟨d, h, hk⟩

theorem span_of_none (h : s.live id = none) : s.span id = ∅ := by
  apply Set.eq_empty_of_forall_notMem
  rintro k ⟨e, he, _⟩
  simp [h] at he

theorem span_congr (h : s'.live id = s.live id) : s'.span id = s.span id := by
  unfold Layout.span
  rw [h]

theorem Allocated.adopt (h : Allocated s) {cur : RangeDescriptor} (hcur : cur ∈ s.past)
    (hid : d.rangeID = cur.rangeID) :
    Allocated (s.adopt d) := by
  exact { h with
    used := by
      refine forall_mem_cons.mpr ⟨?_, h.used⟩
      rw [hid]
      exact h.used cur hcur
    unused := by
      intro trig htrig e he hright
      have hold : ∃ f ∈ s.past, f.rangeID = trig.left.rangeID ∧
          trig.left.generation ≤ f.generation := by
        rcases mem_cons.mp he with rfl | he
        · exact h.unused trig htrig cur hcur (hid.symm.trans hright)
        · exact h.unused trig htrig e he hright
      obtain ⟨f, hf, hrest⟩ := hold
      exact ⟨f, mem_cons_of_mem d hf, hrest⟩ }

variable {trig : SplitTrigger}

theorem Allocated.adoptRight (h : Allocated s) (htrig : split trig ∈ s.proposed)
    (hleft : trig.left ∈ s.past) : Allocated (s.adopt trig.right) := by
  exact { h with
    used := by
      exact forall_mem_cons.mpr ⟨h.reserved trig htrig, h.used⟩
    unused := by
      intro trig' htrig' e he hright
      rcases mem_cons.mp he with rfl | he
      · obtain rfl := h.distinct trig trig' htrig htrig' hright
        exact ⟨trig.left, mem_cons_of_mem _ hleft, rfl, le_rfl⟩
      · obtain ⟨f, hf, hrest⟩ := h.unused trig' htrig' e he hright
        exact ⟨f, mem_cons_of_mem _ hf, hrest⟩ }

theorem Inv.cur_mem (h : Inv keyspace s) (hcur : s.live id = some cur) :
    cur ∈ s.past ∧ cur.rangeID = id :=
  ⟨h.ledger.held id cur hcur, h.ledger.own id cur hcur⟩

/-- What an applied command does, when it was built from the live descriptors it
concerns. -/
inductive Changed (s : Layout) : Command → Layout → Prop where
  | split (cur : RangeDescriptor) (trig : SplitTrigger) (splitKey : Key) (newID : RangeID)
      (closedTS : Timestamp) (live : s.live cur.rangeID = some cur)
      (built : adminSplit false cur splitKey newID closedTS = .ok trig)
      (unused : ∀ e ∈ s.past, e.rangeID ≠ trig.right.rangeID) :
      Changed s (.split trig) ((s.adopt trig.left).adopt trig.right)
  | merge (cur rhs : RangeDescriptor) (trig : MergeTrigger) (pos : Replicated)
      (live : s.live cur.rangeID = some cur) (rhsLive : s.live rhs.rangeID = some rhs)
      (built : adminMergeTrigger cur rhs pos = .ok trig) :
      Changed s (.merge trig) ((s.adopt trig.merged).drop rhs.rangeID)
  | confChange (cur newDesc : RangeDescriptor) (self : NodeID) (change : ReplicaChange)
      (live : s.live cur.rangeID = some cur)
      (built : adminChangeReplicas false self cur change = .ok newDesc) :
      Changed s (.confChange newDesc) (s.adopt newDesc)
  | again (cur : RangeDescriptor) (live : s.live cur.rangeID = some cur) :
    Changed s (.confChange cur) (s.adopt cur)

theorem Inv.changed_split (h : Inv keyspace s) (htrig : split trig ∈ s.proposed)
    (hcur : s.live trig.left.rangeID = some cur) (hok : applySplit s cur trig = .ok s') :
    Changed s (.split trig) s' := by
  unfold applySplit at hok
  cases hst : stageSplit cur trig with
  | error e =>
    rw [hst] at hok
    cases hok
  | ok left =>
    rw [hst] at hok
    cases hok
    obtain ⟨rfl, hgen⟩ := stageSplit_ok hst
    obtain ⟨desc, hdesc, splitKey, newID, closedTS, hbuilt⟩ := h.built _ htrig
    obtain ⟨_, _, hleft, _⟩ := adminSplit_eq_ok hbuilt
    have hid : desc.rangeID = trig.left.rangeID := by rw [hleft]
    obtain rfl : desc = cur := by
      apply h.ledger.eq_of_generation hcur hdesc hid
      rw [hleft] at hgen
      dsimp only at hgen
      omega
    rw [← hid] at hcur
    apply Changed.split desc trig splitKey newID closedTS hcur hbuilt
    -- a value of the new range would make the trigger stale
    intro e he hright
    obtain ⟨f, hf, hfid, hle⟩ := h.allocated.unused trig htrig e he hright
    have hnewest := h.ledger.newest _ desc hcur f hf (hfid.trans hid.symm)
    omega

theorem Inv.changed_merge (h : Inv keyspace s) {trig : MergeTrigger}
    (htrig : merge trig ∈ s.proposed) {rhs : RangeDescriptor}
    (hcur : s.live trig.left.rangeID = some cur) (hrhs : s.live trig.right.rangeID = some rhs)
    (hok : applyMerge s cur rhs trig = .ok s') : Changed s (.merge trig) s' := by
  unfold applyMerge at hok
  cases hst : stageMerge cur rhs trig with
  | error e =>
    rw [hst] at hok
    cases hok
  | ok merged =>
    rw [hst] at hok
    cases hok
    obtain ⟨rfl, hgen, hrgen, _⟩ := stageMerge_ok hst
    obtain ⟨desc, hdesc, rhsDesc, hrhsDesc, pos, hbuilt⟩ := h.built _ htrig
    obtain ⟨_, hleft, hright, _⟩ := adminMergeTrigger_ok hbuilt
    obtain rfl : desc = cur :=
      h.ledger.eq_of_generation hcur hdesc (by rw [hleft]) (by rw [hgen, hleft])
    obtain rfl : rhsDesc = rhs :=
      h.ledger.eq_of_generation hrhs hrhsDesc (by rw [hright]) (by rw [hrgen, hright])
    rw [hleft] at hcur
    rw [hright] at hrhs ⊢
    exact Changed.merge desc rhsDesc trig pos hcur hrhs hbuilt

theorem Inv.changed_confChange (h : Inv keyspace s) (hnew : confChange newDesc ∈ s.proposed)
    (hcur : s.live newDesc.rangeID = some cur) (hok : applyConfChange s cur newDesc = .ok s') :
    Changed s (.confChange newDesc) s' := by
  unfold applyConfChange at hok
  cases hst : stageConfChange cur newDesc with
  | error e =>
    rw [hst] at hok
    cases hok
  | ok adopted =>
    rw [hst] at hok
    cases hok
    obtain ⟨rfl, hgen⟩ := stageConfChange_ok hst
    obtain ⟨desc, hdesc, self, change, hbuilt⟩ := h.built _ hnew
    obtain ⟨_, hend, hnext⟩ := adminChangeReplicas_ok hbuilt
    have hid := adminChangeReplicas_rangeID hbuilt
    rcases hgen with hgen | hsame
    · obtain rfl : desc = cur := h.ledger.eq_of_generation hcur hdesc hid.symm (by omega)
      rw [hid] at hcur
      exact Changed.confChange desc adopted self change hcur hbuilt
    · -- the value after the base has the bounds of the base, so it is a membership change of it
      simp only [sameDescriptor, Bool.and_eq_true, beq_iff_eq] at hsame
      obtain ⟨⟨⟨⟨_, hsgen⟩, _⟩, hsend⟩, hsrep⟩ := hsame
      obtain ⟨hmem, hcid⟩ := h.cur_mem hcur
      have hfollows := h.ledger.linked cur hmem desc hdesc (hcid.trans hid) (by omega)
      rcases hfollows with hmoved | ⟨self', change', hbuilt'⟩
      · exact absurd (hsend.trans hend) hmoved
      · obtain rfl := adminChangeReplicas_inj hbuilt' hbuilt hsrep
        exact Changed.again cur hcur

section Keep
variable (h : Inv keyspace s)
include h

theorem Inv.split (htrig : split trig ∈ s.proposed) {splitKey : Key} {newID : RangeID}
    {closedTS : Timestamp} (hcur : s.live cur.rangeID = some cur)
    (hbuilt : adminSplit false cur splitKey newID closedTS = .ok trig)
    (hunused : ∀ e ∈ s.past, e.rangeID ≠ trig.right.rangeID) :
    Inv keyspace ((s.adopt trig.left).adopt trig.right) := by
  obtain ⟨hlo, hhi, hleft, hright⟩ := adminSplit_eq_ok hbuilt
  obtain ⟨hmem, _⟩ := h.cur_mem hcur
  have hid : trig.left.rangeID = cur.rangeID := by rw [hleft]
  have hne : trig.left.rangeID ≠ trig.right.rangeID := by
    rw [hid]
    exact hunused cur hmem
  have hnone : s.live trig.right.rangeID = none := by
    cases hr : s.live trig.right.rangeID with
    | none => rfl
    | some d =>
      obtain ⟨hd, hdid⟩ := h.cur_mem hr
      exact absurd hdid (hunused d hd)
  have hl : ((s.adopt trig.left).adopt trig.right).live trig.left.rangeID = some trig.left := by
    rw [adopt_live_of_ne _ _ hne, adopt_live_self]
  have hr : ((s.adopt trig.left).adopt trig.right).live trig.right.rangeID = some trig.right :=
    adopt_live_self _ _
  have hother : ∀ id, id ≠ trig.left.rangeID → id ≠ trig.right.rangeID →
      ((s.adopt trig.left).adopt trig.right).live id = s.live id := by
    intro id hidl hidr
    rw [adopt_live_of_ne _ _ hidr, adopt_live_of_ne _ _ hidl]
  rw [← hid] at hcur
  constructor
  case ledger =>
    have hledger : Ledger (s.adopt trig.left).live (s.adopt trig.left).past := by
      apply h.ledger.advance hcur
      · rw [hleft]
        dsimp only
        omega
      · apply Or.inl
        rw [hleft]
        exact hhi.ne
    apply hledger.create
    exact forall_mem_cons.mpr ⟨hne, hunused⟩
  case partition =>
    apply h.partition.exchange hne (fun id hidl hidr => span_congr (hother id hidl hidr))
    · intro k
      rw [mem_span hl, mem_span hr, mem_span hcur, span_of_none hnone, hleft, hright]
      simp only [containsKey_iff, Set.mem_empty_iff_false, or_false]
      constructor
      · rintro (⟨hs, hk⟩ | ⟨hs, hk⟩)
        · exact ⟨hs, hk.trans hhi⟩
        · exact ⟨hlo.le.trans hs, hk⟩
      · rintro ⟨hs, hk⟩
        rcases lt_or_ge k splitKey with hlt | hge
        · exact .inl ⟨hs, hlt⟩
        · exact .inr ⟨hge, hk⟩
    · intro k
      rw [mem_span hl, mem_span hr, hleft, hright]
      simp only [containsKey_iff]
      rintro ⟨_, hk⟩ ⟨hs, _⟩
      exact absurd hs (not_le.mpr hk)
  case wide =>
    intro id d hd
    by_cases hidr : id = trig.right.rangeID
    · subst hidr
      rw [hr, Option.some.injEq] at hd
      rw [← hd, hright]
      exact hhi
    · by_cases hidl : id = trig.left.rangeID
      · subst hidl
        rw [hl, Option.some.injEq] at hd
        rw [← hd, hleft]
        exact hlo
      · rw [hother id hidl hidr] at hd
        exact h.wide id d hd
  case allocated =>
    exact (h.allocated.adopt hmem hid).adoptRight htrig mem_cons_self
  case built =>
    intro c hc
    exact (h.built c hc).mono fun d hd => mem_cons_of_mem _ (mem_cons_of_mem _ hd)

theorem Inv.merge {trig : MergeTrigger} {rhs : RangeDescriptor} {pos : Replicated}
    (hcur : s.live cur.rangeID = some cur) (hrhs : s.live rhs.rangeID = some rhs)
    (hbuilt : adminMergeTrigger cur rhs pos = .ok trig) :
    Inv keyspace ((s.adopt trig.merged).drop rhs.rangeID) := by
  have hmerged := adminMergeTrigger_merged hbuilt
  obtain ⟨hmeet, _⟩ := adminMergeTrigger_ok hbuilt
  obtain ⟨hmem, _⟩ := h.cur_mem hcur
  have hlw := h.wide _ _ hcur
  have hrw := h.wide _ _ hrhs
  have hne : cur.rangeID ≠ rhs.rangeID := by
    intro heq
    rw [heq, hrhs, Option.some.injEq] at hcur
    rw [hmeet, hcur] at hrw
    exact lt_irrefl _ hrw
  have hid : trig.merged.rangeID = cur.rangeID := by rw [hmerged]
  have hl : ((s.adopt trig.merged).drop rhs.rangeID).live cur.rangeID = some trig.merged := by
    rw [drop_live_of_ne _ hne, ← hid, adopt_live_self]
  have hr : ((s.adopt trig.merged).drop rhs.rangeID).live rhs.rangeID = none := drop_live_self _ _
  have hother : ∀ id, id ≠ cur.rangeID → id ≠ rhs.rangeID →
      ((s.adopt trig.merged).drop rhs.rangeID).live id = s.live id := by
    intro id hidl hidr
    rw [← hid] at hidl
    rw [drop_live_of_ne _ hidr, adopt_live_of_ne _ _ hidl]
  constructor
  case ledger =>
    apply Ledger.drop
    apply h.ledger.advance (hid.symm ▸ hcur)
    · rw [hmerged]
      dsimp only
      omega
    · apply Or.inl
      rw [hmerged, ← hmeet]
      exact hrw.ne'
  case partition =>
    apply h.partition.exchange hne (fun id hidl hidr => span_congr (hother id hidl hidr))
    · intro k
      rw [mem_span hl, mem_span hcur, mem_span hrhs, span_of_none hr, hmerged]
      simp only [containsKey_iff, Set.mem_empty_iff_false, or_false]
      constructor
      · rintro ⟨hs, hk⟩
        rcases lt_or_ge k cur.endKey with hlt | hge
        · exact .inl ⟨hs, hlt⟩
        · exact .inr ⟨hmeet ▸ hge, hk⟩
      · rintro (⟨hs, hk⟩ | ⟨hs, hk⟩)
        · exact ⟨hs, hk.trans (hmeet ▸ hrw)⟩
        · exact ⟨hlw.le.trans (hmeet ▸ hs), hk⟩
    · intro k _
      rw [span_of_none hr]
      exact Set.notMem_empty k
  case wide =>
    intro id d hd
    by_cases hidr : id = rhs.rangeID
    · subst hidr
      rw [hr] at hd
      cases hd
    · by_cases hidl : id = cur.rangeID
      · subst hidl
        rw [hl, Option.some.injEq] at hd
        rw [← hd, hmerged]
        exact hlw.trans (hmeet ▸ hrw)
      · rw [hother id hidl hidr] at hd
        exact h.wide id d hd
  case allocated =>
    have hadopt := h.allocated.adopt hmem hid
    exact ⟨hadopt.used, hadopt.reserved, hadopt.unused, hadopt.distinct⟩
  case built =>
    intro c hc
    exact (h.built c hc).mono fun d hd => mem_cons_of_mem _ hd

theorem Inv.sameBounds (hcur : s.live newDesc.rangeID = some cur)
    (hstart : newDesc.startKey = cur.startKey) (hend : newDesc.endKey = cur.endKey)
    (hledger : Ledger (s.adopt newDesc).live (s.adopt newDesc).past) :
    Inv keyspace (s.adopt newDesc) := by
  obtain ⟨hmem, hid⟩ := h.cur_mem hcur
  have hself : (s.adopt newDesc).live newDesc.rangeID = some newDesc := adopt_live_self _ _
  have hother : ∀ id, id ≠ newDesc.rangeID → (s.adopt newDesc).live id = s.live id :=
    fun id hne => adopt_live_of_ne _ _ hne
  constructor
  case ledger => exact hledger
  case partition =>
    apply h.partition.congr
    intro id
    by_cases heq : id = newDesc.rangeID
    · subst heq
      ext k
      rw [mem_span hself, mem_span hcur, containsKey_iff, containsKey_iff, hstart, hend]
    · exact span_congr (hother id heq)
  case wide =>
    intro id d hd
    by_cases heq : id = newDesc.rangeID
    · subst heq
      rw [hself, Option.some.injEq] at hd
      rw [← hd, hstart, hend]
      exact h.wide _ _ hcur
    · rw [hother id heq] at hd
      exact h.wide id d hd
  case allocated => exact h.allocated.adopt hmem hid.symm
  case built =>
    intro c hc
    exact (h.built c hc).mono fun d hd => mem_cons_of_mem _ hd

theorem Inv.changed_inv (hc : c ∈ s.proposed) (hch : Changed s c s') : Inv keyspace s' := by
  cases hch with
  | split cur trig splitKey newID closedTS hcur hbuilt hunused =>
    exact h.split hc hcur hbuilt hunused
  | merge cur rhs trig pos hcur hrhs hbuilt => exact h.merge hcur hrhs hbuilt
  | confChange cur newDesc self change hcur hbuilt =>
    obtain ⟨hstart, hend, hnext⟩ := adminChangeReplicas_ok hbuilt
    rw [← adminChangeReplicas_rangeID hbuilt] at hcur
    apply h.sameBounds hcur hstart hend
    exact h.ledger.advance hcur (by omega) (.inr ⟨self, change, hbuilt⟩)
  | again cur hcur => exact h.sameBounds hcur rfl rfl (h.ledger.again hcur)

end Keep

theorem Changed.past (h : Changed s c s') : ∀ d ∈ s.past, d ∈ s'.past := by
  intro d hd
  cases h with
  | split => exact mem_cons_of_mem _ (mem_cons_of_mem _ hd)
  | merge | confChange | again => exact mem_cons_of_mem _ hd

end Steps

end Datax.Ranges
