import Datax.Kvserver.StoreReplicas

/-!
# What a restart can rebuild

A range is recoverable from a content of the state engine and the raft logs when its descriptor
is there, or when it is unknown and a recoverable range will split it off. The invariant asks
this of every voting range: from what a crash would leave of the state engine, and from what a
flush would make durable now.
-/

namespace Datax.StoreLife

open Bool Option Function Store

inductive Recoverable (node : NodeID) (raft : RangeID → Option RaftGroup)
    (c : RangeID → RangeKeys) :
    RangeID → Prop where
  | loaded {id : RangeID} (names : (c id).names node = true) : Recoverable node raft c id
  | replayed {lhs id : RangeID} {g : RaftGroup} {i : Nat} (from_lhs : Recoverable node raft c lhs)
      (group : raft lhs = some g) (pending : Pending node c lhs g i id)
        (unknown : (c id).unknown = true) :
      Recoverable node raft c id

variable {k : RangeKeys} {x : RangeID}

section Contents
variable {node : NodeID} {raft raft' : RangeID → Option RaftGroup} {c c' : RangeID → RangeKeys}

theorem not_unknown_of_names (h : k.names node = true) : k.unknown = false := by
  unfold RangeKeys.names at h
  unfold RangeKeys.unknown
  cases hd : k.desc with
  | none =>
    simp [hd] at h
  | some d => rfl

theorem Recoverable.transfer (dead : RangeID → Prop)
    (hnames : ∀ id, ¬ dead id → (c id).names node = true → (c' id).names node = true)
    (hunknown : ∀ id, (c id).unknown = true → (c' id).unknown = true ∨ (c' id).names node = true)
    (hpending : ∀ lhs g i id, Recoverable node raft c lhs → raft lhs = some g →
      Pending node c lhs g i id →
      (c id).unknown = true → (c' id).names node = true ∨
        ¬ dead lhs ∧ ∃ g', raft' lhs = some g' ∧ Pending node c' lhs g' i id)
    {id : RangeID} (h : Recoverable node raft c id) (hid : ¬ dead id) :
    Recoverable node raft' c' id := by
  induction h with
  | loaded hn => exact .loaded (hnames _ hid hn)
  | replayed hl hg hp hu ih =>
    rcases hpending _ _ _ _ hl hg hp hu with hn | ⟨hlive, g', hg', hp'⟩
    · exact .loaded hn
    rcases hunknown _ hu with hu' | hn
    · exact .replayed (ih hlive) hg' hp' hu'
    · exact .loaded hn

theorem not_recoverable {id : RangeID} (hn : (c id).names node = false)
    (hu : (c id).unknown = false) :
    ¬ Recoverable node raft c id := by
  intro h
  cases h with
  | loaded hn' =>
    rw [hn] at hn'
    cases hn'
  | replayed _ _ _ hu' =>
    rw [hu] at hu'
    cases hu'

theorem Pending.congr {lhs id : RangeID} {g : RaftGroup} {i : Nat} (h : Pending node c lhs g i id)
    (habove : (c' lhs).applied < i) (hle : (c lhs).applied ≤ (c' lhs).applied) :
    Pending node c' lhs g i id :=
  ⟨h.entry, habove, h.committed, fun j hj => h.stays j (hle.trans_lt hj)⟩

theorem Recoverable.update {id : RangeID} (hnames : (c id).names node = true → k.names node = true)
    (hunknown : (c id).unknown = true → k.names node = true)
    (hpending : ∀ g i id', raft id = some g → Pending node c id g i id' → (c id').unknown = true →
      id' ≠ id → k.applied < i ∧ (c id).applied ≤ k.applied)
    (h : Recoverable node raft c x) : Recoverable node raft (Function.update c id k) x := by
  apply h.transfer (fun _ => False) _ _ _ not_false
  · intro y _ hy
    by_cases heq : y = id
    · subst heq
      rw [update_self]
      exact hnames hy
    · rwa [update_of_ne heq]
  · intro y hy
    by_cases heq : y = id
    · subst heq
      rw [update_self]
      exact .inr (hunknown hy)
    · rw [update_of_ne heq]
      exact .inl hy
  · intro lhs g i y _ hg hp hu
    by_cases hy : y = id
    · subst hy
      rw [update_self]
      exact .inl (hunknown hu)
    · refine .inr ⟨not_false, g, hg, ?_⟩
      by_cases hl : lhs = id
      · subst hl
        obtain ⟨hlt, hle⟩ := hpending g i y hg hp hu hy
        apply hp.congr
        · rwa [update_self]
        · rwa [update_self]
      · apply hp.congr
        · rw [update_of_ne hl]
          exact hp.above
        · rw [update_of_ne hl]

theorem Recoverable.update_gone {id : RangeID} (hknown : (c id).unknown = false)
    (hpending : ∀ g i id', raft id = some g → ¬ Pending node c id g i id')
    (h : Recoverable node raft c x) (hx : x ≠ id) :
    Recoverable node raft (Function.update c id k) x := by
  apply h.transfer (fun y => y = id) _ _ _ hx
  · intro y hy hn
    rwa [update_of_ne hy]
  · intro y hy
    have hne : y ≠ id := by
      rintro rfl
      simp [hknown] at hy
    rw [update_of_ne hne]
    exact .inl hy
  · intro lhs g i y hl hg hp hu
    by_cases heq : lhs = id
    · subst heq
      exact absurd hp (hpending g i y hg)
    · refine .inr ⟨heq, g, hg, hp.congr ?_ ?_⟩
      · rw [update_of_ne heq]
        exact hp.above
      · rw [update_of_ne heq]

theorem Recoverable.updateRaft {id : RangeID} {new : Option RaftGroup}
    (hpending : Recoverable node raft c id → ∀ g i id', raft id = some g →
      Pending node c id g i id' →
      ∃ g', new = some g' ∧ Pending node c id g' i id')
    (h : Recoverable node raft c x) : Recoverable node (Function.update raft id new) c x := by
  apply h.transfer (fun _ => False) _ _ _ not_false
  · exact fun y _ hy => hy
  · exact fun y hy => .inl hy
  intro lhs g i y hl hg hp hu
  refine .inr ⟨not_false, ?_⟩
  by_cases heq : lhs = id
  · subst heq
    rw [update_self]
    exact hpending hl g i y hg hp
  · rw [update_of_ne heq]
    exact ⟨g, hg, hp⟩

end Contents

structure Held (s : Store) : Prop where
  kept : ∀ id g, s.votes id = some g → s.raft id = some g
  durable : ∀ id, (s.votes id).isSome = true → Recoverable s.node s.raft s.state.durable id
  current : ∀ id, (s.votes id).isSome = true → Recoverable s.node s.raft s.state.current id
  running : ∀ id, (s.replicas id).isSome = true →
    (s.state.current id).names s.node = true ∧ s.votes id = s.raft id
  split : ∀ id, s.replicas id = some .split → Recoverable s.node s.raft s.state.durable id
  buried : ∀ id ∈ s.wiping, s.replicas id = none ∧ s.votes id = none ∧
    s.state.current id = RangeKeys.removed
  known : ∀ id, (s.state.current id).unknown = true → (s.state.durable id).unknown = true
  blank : ∀ id, (s.state.current id).desc = none → (s.state.current id).applied = 0
  blank_durable : ∀ id, (s.state.durable id).desc = none → (s.state.durable id).applied = 0
  behind : ∀ id, id ∈ s.wiping ∨ (s.state.durable id).applied ≤ (s.state.current id).applied ∧
    ((s.state.current id).desc = none → (s.state.durable id).desc = none)

/-- The replica may have to apply again what it applied since the last flush. -/
def Store.replays (s : Store) (id : RangeID) : Prop :=
  (s.raft id).isSome = true ∨ s.replicas id = some .split ∨ (s.state.durable id).names s.node = true

/-- The log still has the entry, which does not remove the node. -/
def Store.repeatable (s : Store) (id : RangeID) (j : Nat) : Prop :=
  ∃ g e, s.raft id = some g ∧ g.log j = some e ∧ e.removes s.node = false

structure Inv (s : Store) : Prop extends Held s where
  stays : ∀ id, (s.replicas id).isSome = true → s.replays id →
    ∀ j, (s.state.durable id).applied < j → j ≤ (s.state.current id).applied → s.repeatable id j

/-! ### One range of a store -/

structure Share where
  durable : RangeKeys
  current : RangeKeys
  raft : Option RaftGroup
  votes : Option RaftGroup
  replica : Option Origin
  wiping : Prop

def Store.share (s : Store) (id : RangeID) : Share :=
  ⟨s.state.durable id, s.state.current id, s.raft id, s.votes id, s.replicas id, id ∈ s.wiping⟩

/-- The invariant of a range that can be rebuilt `later`, from what a crash leaves, and `now`,
from what a flush makes durable. -/
structure HeldAt (node : NodeID) (later now : Prop) (r : Share) : Prop where
  kept : ∀ g, r.votes = some g → r.raft = some g
  durable : r.votes.isSome = true → later
  current : r.votes.isSome = true → now
  running : r.replica.isSome = true → r.current.names node = true ∧ r.votes = r.raft
  split : r.replica = some .split → later
  buried : r.wiping → r.replica = none ∧ r.votes = none ∧ r.current = RangeKeys.removed
  known : r.current.unknown = true → r.durable.unknown = true
  blank : r.current.desc = none → r.current.applied = 0
  blank_durable : r.durable.desc = none → r.durable.applied = 0
  behind : r.wiping ∨ r.durable.applied ≤ r.current.applied ∧
    (r.current.desc = none → r.durable.desc = none)

def Share.Stays (node : NodeID) (r : Share) : Prop :=
  r.replica.isSome = true →
    r.raft.isSome = true ∨ r.replica = some .split ∨ r.durable.names node = true →
    ∀ j, r.durable.applied < j → j ≤ r.current.applied →
      ∃ g e, r.raft = some g ∧ g.log j = some e ∧ e.removes node = false

theorem HeldAt.imp {node : NodeID} {later now later' now' : Prop} {r : Share}
    (h : HeldAt node later now r) (hlater : later → later') (hnow : now → now') :
    HeldAt node later' now' r :=
  { h with
    durable := fun hv => hlater (h.durable hv)
    current := fun hv => hnow (h.current hv)
    split := fun hr => hlater (h.split hr) }

section Moves
variable {s : Store} {id : RangeID}

theorem held_iff : Held s ↔ ∀ id, HeldAt s.node (Recoverable s.node s.raft s.state.durable id)
    (Recoverable s.node s.raft s.state.current id) (s.share id) := by
  constructor
  · intro h id
    exact ⟨h.kept id, h.durable id, h.current id, h.running id, h.split id, h.buried id,
      h.known id, h.blank id, h.blank_durable id, h.behind id⟩
  · intro h
    exact ⟨fun id => (h id).kept, fun id => (h id).durable, fun id => (h id).current, fun id =>
      (h id).running, fun id => (h id).split, fun id => (h id).buried, fun id => (h id).known,
      fun id => (h id).blank, fun id => (h id).blank_durable, fun id => (h id).behind⟩

theorem inv_iff : Inv s ↔ ∀ id, HeldAt s.node (Recoverable s.node s.raft s.state.durable id)
    (Recoverable s.node s.raft s.state.current id) (s.share id) ∧ (s.share id).Stays s.node := by
  rw [forall_and, ← held_iff]
  exact ⟨fun h => ⟨h.toHeld, h.stays⟩, fun h => ⟨h.1, h.2⟩⟩

theorem Store.put_self (s : Store) (id : RangeID) (k : RangeKeys) :
    (s.put id k).state.current id = k :=
  update_self _ _ _

theorem Store.put_of_ne (s : Store) {id : RangeID} (hne : x ≠ id) (k : RangeKeys) :
    (s.put id k).state.current x = s.state.current x :=
  update_of_ne hne _ _

theorem share_put (k : RangeKeys) {wiping : List RangeID}
    (hwiping : ∀ x, x ≠ id → (x ∈ wiping ↔ x ∈ s.wiping)) (x : RangeID) :
    ({ s.put id k with wiping := wiping } : Store).share x =
      if x = id then { s.share id with current := k, wiping := id ∈ wiping } else s.share x := by
  split
  · rename_i hx
    subst hx
    simp only [share, put, DiskEngine.write, update_self]
  · rename_i hx
    simp only [share, put, DiskEngine.write, update_of_ne hx, hwiping x hx]

theorem share_detach (x : RangeID) : (s.detach id).share x =
    if x = id then { s.share id with votes := none, replica := none } else s.share x := by
  split
  · rename_i hx
    subst hx
    simp only [share, detach, update_self]
  · rename_i hx
    simp only [share, detach, update_of_ne hx]

theorem share_setRaft (g : RaftGroup) (x : RangeID) : (s.setRaft id g).share x =
    if x = id then { s.share id with raft := some g, votes := some g } else s.share x := by
  split
  · rename_i hx
    subst hx
    simp only [share, setRaft, update_self]
  · rename_i hx
    simp only [share, setRaft, update_of_ne hx]

theorem share_startReplica (origin : Origin) (x : RangeID) : (s.startReplica id origin).share x =
    if x = id then
      { s.share id with
        votes := (s.votes id).or (s.raft id), replica := some ((s.replicas id).getD origin) }
    else s.share x := by
  split
  · rename_i hx
    subst hx
    simp only [share, startReplica, update_self]
  · rename_i hx
    simp only [share, startReplica, update_of_ne hx]

theorem Held.not_wiping (h : Held s) (hrun : (s.replicas id).isSome = true) : id ∉ s.wiping := by
  intro hmem
  simp [(h.buried id hmem).1] at hrun

theorem Held.flush (h : Held s) : Inv { s with state := s.state.flush } := { h with
  durable := h.current
  split id hid := .loaded (h.running id (by rw [hid]; rfl)).1
  known _ hu := hu
  blank_durable := h.blank
  behind _ := .inr ⟨le_rfl, fun hd => hd⟩
  stays _ _ _ _ hlt hle := absurd hle (not_le.mpr hlt) }

theorem Inv.detach (h : Inv s) (id : RangeID) : Inv (s.detach id) := by
  refine inv_iff.mpr fun x => ?_
  obtain ⟨hx, hstays⟩ := inv_iff.mp h x
  rw [share_detach]
  split
  · rename_i heq
    subst heq
    refine ⟨{ hx with
      kept := fun _ hg => (by cases hg)
      durable := fun hv => (by cases hv)
      current := fun hv => (by cases hv)
      running := fun hr => (by cases hr)
      split := fun hr => (by cases hr)
      buried := fun hw => ⟨rfl, rfl, (hx.buried hw).2.2⟩ }, fun hr => (by cases hr)⟩
  · exact ⟨hx, hstays⟩

theorem Held.put (h : Held s) (hwipe : id ∉ s.wiping)
    (hnames : (s.state.current id).names s.node = true ∨ (s.state.current id).unknown = true →
      k.names s.node = true) (hdesc : k.desc.isSome = true)
    (hle : (s.state.current id).applied ≤ k.applied)
    (hpending : ∀ g i id', s.raft id = some g → Pending s.node s.state.current id g i id' →
      (s.state.current id').unknown = true → k.applied < i) : Held (s.put id k) := by
  have hsome : k.desc ≠ none := isSome_iff_ne_none.mp hdesc
  refine held_iff.mpr fun x => ?_
  have hx := (held_iff.mp h x).imp (fun hl => hl) fun hnow =>
    hnow.update (k := k) (fun hn => hnames (.inl hn))
    (fun hu => hnames (.inr hu)) fun g i id' hg hp hu _ => ⟨hpending g i id' hg hp hu, hle⟩
  rw [show (s.put id k).share x = _ from share_put k (fun _ _ => Iff.rfl) x]
  split
  · rename_i heq
    subst heq
    exact { hx with
      running := fun hr => ⟨hnames (.inl (hx.running hr).1), (hx.running hr).2⟩
      buried := fun hw => absurd hw hwipe
      known := fun hu => absurd (isNone_iff_eq_none.mp (and_eq_true_iff.mp hu).1) hsome
      blank := fun hnone => absurd hnone hsome
      behind := .inr ⟨(hx.behind.resolve_left hwipe).1.trans hle, fun hnone => absurd hnone hsome⟩ }
  · exact hx

theorem Inv.put_stays (h : Inv s) (hput : Held (s.put id k))
    (hnew : (s.replicas id).isSome = true → ∀ j, (s.state.current id).applied < j → j ≤ k.applied →
      s.repeatable id j) : Inv (s.put id k) := by
  refine ⟨hput, ?_⟩
  intro x hx hrep j hlt hle
  by_cases heq : x = id
  · subst heq
    rw [s.put_self x k] at hle
    rcases le_or_gt j (s.state.current x).applied with hold | hnew'
    · exact h.stays x hx hrep j hlt hold
    · exact hnew hx j hnew' hle
  · rw [s.put_of_ne heq k] at hle
    exact h.stays x hx hrep j hlt hle

theorem Inv.putGone (h : Inv s) {wiping : List RangeID} (hrep : s.replicas id = none)
    (hvotes : s.votes id = none) (hknown : (s.state.current id).unknown = false)
    (hnew : k.unknown = false) (hblank : k.desc = none → k.applied = 0)
    (hle : id ∈ wiping ∧ k = RangeKeys.removed ∨
      id ∉ wiping ∧ (s.state.durable id).applied ≤ k.applied ∧ k.desc.isSome = true)
    (hwiping : ∀ x, x ≠ id → (x ∈ wiping ↔ x ∈ s.wiping))
    (hpending : ∀ g i id', s.raft id = some g → ¬ Pending s.node s.state.current id g i id') :
    Inv { s.put id k with wiping := wiping } := by
  refine inv_iff.mpr fun x => ?_
  obtain ⟨hx, hstays⟩ := inv_iff.mp h x
  rw [share_put k hwiping]
  split
  · rename_i heq
    subst heq
    refine ⟨{ hx with
      current := fun hv =>
        absurd hv (by rw [show (s.share x).votes = none from hvotes]; exact false_ne_true)
      running := fun hr =>
        absurd hr (by rw [show (s.share x).replica = none from hrep]; exact false_ne_true)
      buried := fun hw => ⟨hrep, hvotes, (hle.resolve_right fun hout => hout.1 hw).2⟩
      known := fun hu => absurd (hnew.symm.trans hu) false_ne_true
      blank := hblank
      behind := hle.imp And.left fun hout =>
        ⟨hout.2.1, fun hnone => absurd hnone (isSome_iff_ne_none.mp hout.2.2)⟩ },
      fun hr => absurd hr (by rw [show (s.share x).replica = none from hrep]; exact false_ne_true)⟩
  · rename_i hne
    exact ⟨hx.imp (fun hl => hl) fun hnow => hnow.update_gone hknown hpending hne, hstays⟩

theorem Inv.setRaft (h : Inv s) {new : RaftGroup} (hrun : (s.replicas id).isSome = true)
    (hrec : Recoverable s.node s.raft s.state.durable id)
    (hdurable : ∀ g i id', s.raft id = some g → Pending s.node s.state.durable id g i id' →
      Pending s.node s.state.durable id new i id')
    (hcurrent : ∀ g i id', s.raft id = some g → Pending s.node s.state.current id g i id' →
      Pending s.node s.state.current id new i id')
    (hstays : ∀ j, (s.state.durable id).applied < j → j ≤ (s.state.current id).applied →
      ∃ e, new.log j = some e ∧ e.removes s.node = false) : Inv (s.setRaft id new) := by
  have hlater : ∀ x, Recoverable s.node s.raft s.state.durable x →
      Recoverable s.node (Function.update s.raft id (some new)) s.state.durable x :=
    fun x hx => hx.updateRaft fun _ g i id' hg hp => ⟨new, rfl, hdurable g i id' hg hp⟩
  refine inv_iff.mpr fun x => ?_
  obtain ⟨hx, hstays'⟩ := inv_iff.mp h x
  have hx := hx.imp (hlater x) fun hnow =>
    @Recoverable.updateRaft _ _ _ _ id (some new)
      (fun _ g i id' hg hp => ⟨new, rfl, hcurrent g i id' hg hp⟩) hnow
  rw [share_setRaft]
  split
  · rename_i heq
    subst heq
    have hnames := (hx.running hrun).1
    exact ⟨{ hx with
      kept := fun _ hg => hg
      durable := fun _ => hlater x hrec
      current := fun _ => .loaded hnames
      running := fun _ => ⟨hnames, rfl⟩
      buried := fun hw => absurd hw (h.not_wiping hrun) }, fun _ _ j hlt hle =>
        (hstays j hlt hle).elim fun e he => ⟨new, e, rfl, he⟩⟩
  · exact ⟨hx, hstays'⟩

theorem Inv.start (h : Inv s) {origin : Origin} (hrep : s.replicas id = none)
    (hwipe : id ∉ s.wiping) (hnames : (s.state.current id).names s.node = true)
    (hrec : Recoverable s.node s.raft s.state.durable id ∨ origin ≠ .split ∧ s.raft id = none)
    (hstays : (s.raft id).isSome = true ∨ origin = .split ∨
      (s.state.durable id).names s.node = true →
      (s.state.current id).applied ≤ (s.state.durable id).applied) :
    Inv (s.startReplica id origin) := by
  have hor : (s.votes id).or (s.raft id) = s.raft id := by
    cases hv : s.votes id with
    | none => rfl
    | some g => exact (h.kept id g hv).symm
  refine inv_iff.mpr fun x => ?_
  obtain ⟨hx, hstays'⟩ := inv_iff.mp h x
  rw [share_startReplica, hor, hrep, getD_none]
  split
  · rename_i heq
    subst heq
    refine ⟨{ hx with
      kept := fun _ hg => hg
      durable := fun hv => hrec.resolve_right fun hno =>
        absurd hv (by rw [hno.2]; exact false_ne_true)
      current := fun _ => .loaded hnames
      running := fun _ => ⟨hnames, rfl⟩
      split := fun ho => hrec.resolve_right fun hno => hno.1 (Option.some.inj ho)
      buried := fun hw => absurd hw hwipe }, fun _ hreplay j hlt hle => ?_⟩
    exact absurd (hle.trans (hstays (hreplay.imp_right fun ho => ho.imp_left Option.some.inj)))
      (not_le.mpr hlt)
  · exact ⟨hx, hstays'⟩

end Moves

end Datax.StoreLife
