import Datax.Shared.Fallible
import Datax.Kvserver.Catchup

/-!
# Consistency of a catch-up snapshot

A change that is not refused was built from the current bounds, so a split moves the range's end
below the range it creates, and a merge moves it over ranges that end with the merge. While no
change separates the descriptor a catch-up has read from the engine it snapshots, header and content
are those of one log position.
-/

namespace Datax.Catchup

open Bool Runs

open Option (any_eq_true bind_eq_some_iff)

open List Leader

/-- The snapshot is the range as of the position its header names, and whoever
installs it does not overlap a range that was split off by then. -/
structure Consistent (p : Position) (snap : Snapshot) : Prop where
  desc : snap.header.desc = p.desc
  nodup : snap.kvs.NodupKeys
  keys : ∀ k, snap.kvs.dlookup k = if inSpan p.desc k = true then p.content.lookup k else none
  installed : ∀ (receiver : Receiver) after, receiver.receive snap = some after →
    ∀ sibling ∈ p.siblings, ¬ after.1.desc.Overlaps sibling

theorem not_overlaps_of_le {d e : RangeDescriptor} (h : d.endKey ≤ e.startKey) :
    ¬ d.Overlaps e := by
  rintro ⟨k, hd, he⟩
  simp only [RangeDescriptor.containsKey, and_eq_true, not_eq_true', decide_eq_false_iff_not,
    decide_eq_true_eq] at hd he
  exact he.1 (lt_of_lt_of_le hd.2 h)

theorem receive_desc {snap : Snapshot} {receiver : Receiver} {after : Replica × RangeEngine}
    (h : receiver.receive snap = some after) : after.1.desc = snap.header.desc := by
  cases receiver with
  | fresh eng =>
    cases h
    rfl
  | existing staged r eng =>
    obtain ⟨r', eng'⟩ := after
    obtain ⟨rfl, _⟩ := receive_existing h
    rfl

section Change
variable {cur : RangeDescriptor} {content : Content} {siblings : List RangeDescriptor} {c : Change}

/-- A change is built from the current bounds; it leaves the siblings beyond the end
of the range and moves to a later generation, unless it repeats the current one. -/
theorem change_spec {e : Entry}
    (hbase : ∀ d, e.base = some d → d.generation = cur.generation → d.endKey = cur.endKey)
    (hsib : ∀ s ∈ siblings, cur.endKey ≤ s.startKey) (h : e.change cur content siblings = some c) :
    (∀ s ∈ c.siblings, c.desc.endKey ≤ s.startKey) ∧ (cur.generation < c.desc.generation ∨
        c.desc.generation = cur.generation ∧ c.desc.endKey = cur.endKey) := by
  cases e with
  | command cmd => cases h
  | split base splitKey newID closedTS =>
    obtain ⟨trig, htrig, h⟩ := bind_eq_some_iff.mp h
    obtain ⟨desc, hdesc, h⟩ := bind_eq_some_iff.mp h
    cases h
    obtain ⟨hlt, hleft, hright⟩ := adminSplit_ok (Fallible.ok_of_toOption htrig)
    obtain ⟨rfl, hcur⟩ := stageSplit_ok (Fallible.ok_of_toOption hdesc)
    have hend : trig.left.endKey = splitKey := by rw [hleft]
    have hgen : trig.left.generation = base.generation + 1 := by rw [hleft]
    have hsame : base.endKey = cur.endKey := hbase base rfl (by omega)
    constructor
    · intro s hs
      rcases mem_cons.mp hs with rfl | hs
      · rw [hend, hright]
      rw [hend]
      rw [hsame] at hlt
      exact le_trans (le_of_lt hlt) (hsib s hs)
    · have hlater : cur.generation < trig.left.generation := by omega
      exact .inl hlater
  | merge base rhsDesc rhs applied =>
    obtain ⟨trig, htrig, h⟩ := bind_eq_some_iff.mp h
    obtain ⟨desc, hdesc, h⟩ := bind_eq_some_iff.mp h
    cases h
    obtain ⟨hadj, hleft, hright, _, hend, hgen, _⟩ :=
      adminMergeTrigger_ok (Fallible.ok_of_toOption htrig)
    obtain ⟨rfl, hcur, _, _⟩ := stageMerge_ok (Fallible.ok_of_toOption hdesc)
    have hsame : base.endKey = cur.endKey := hbase base rfl (by rw [hcur, hleft])
    constructor
    · intro s hs
      obtain ⟨hs, hkeep⟩ := mem_filter.mp hs
      have hge : ¬ s.startKey < trig.right.startKey := by
        rw [hright, hadj, hsame]
        exact not_lt.mpr (hsib s hs)
      simp only [hge, decide_false, Bool.false_or, Bool.not_eq_true',
        decide_eq_false_iff_not] at hkeep
      exact not_lt.mp hkeep
    · have hlater : cur.generation < trig.merged.generation := by
        rw [hcur, hleft, hgen]
        omega
      exact .inl hlater
  | replicaChange base self change =>
    obtain ⟨newDesc, hnew, h⟩ := bind_eq_some_iff.mp h
    obtain ⟨desc, hdesc, h⟩ := bind_eq_some_iff.mp h
    cases h
    obtain ⟨_, hend, hgen⟩ := adminChangeReplicas_ok (Fallible.ok_of_toOption hnew)
    obtain ⟨rfl, hcur⟩ := stageConfChange_ok (Fallible.ok_of_toOption hdesc)
    rcases hcur with hcur | hcur
    · have hsame : base.endKey = cur.endKey := hbase base rfl (by omega)
      have hlater : cur.generation < desc.generation := by omega
      refine ⟨?_, .inl hlater⟩
      intro s hs
      rw [hend, hsame]
      exact hsib s hs
    · simp only [sameDescriptor, and_eq_true, beq_iff_eq] at hcur
      refine ⟨?_, .inr ⟨hcur.1.1.1.2.symm, hcur.1.2.symm⟩⟩
      intro s hs
      rw [← hcur.1.2]
      exact hsib s hs

end Change

structure Newest (s : Leader) (p : Position) : Prop where
  head : s.positions.head? = some p
  index : p.index = s.replica.appliedIndex
  applied : s.engine.state.appliedIndex = s.replica.appliedIndex
  persisted : s.engine.desc = some p.desc
  memory : s.unfinished.getD s.replica.desc = p.desc
  content : ∀ k, inSpan p.desc k = true → s.engine.content.lookup k = p.content.lookup k
  siblings : p.siblings = s.siblings
  beyond : ∀ sibling ∈ s.siblings, p.desc.endKey ≤ sibling.startKey
  earlier : ∀ q ∈ s.positions, q.desc.generation ≤ p.desc.generation ∧
    (q.desc.generation = p.desc.generation → q.desc.endKey = p.desc.endKey)
  captured : ∀ c ∈ s.capturing, c.2 = p.desc

structure Inv (s : Leader) : Prop where
  newest : ∃ p, Newest s p
  sent : ∀ snap ∈ s.sent, snap.header.appliedIndex ≤ s.replica.appliedIndex ∧
    ∃ p, s.position snap.header.appliedIndex = some p ∧ Consistent p snap

theorem inv_start (eng : RangeEngine) (desc : RangeDescriptor) : Inv (start eng desc) := by
  refine ⟨⟨⟨eng.state.appliedIndex, desc, eng.content, []⟩, ?_⟩, ?_⟩
  · constructor
    case earlier =>
      intro q hq
      rw [mem_singleton.mp hq]
      exact ⟨le_refl _, fun _ => rfl⟩
    case beyond =>
      intro sibling hs
      cases hs
    case captured =>
      intro c hc
      cases hc
    case content => exact fun k _ => rfl
    all_goals rfl
  · intro snap hs
    cases hs

theorem applyUnchanged_spec (s : Leader) (idx : Nat) (e : Entry) :
    (s.applyUnchanged idx e).1.appliedIndex = idx ∧
      (s.applyUnchanged idx e).2.state.appliedIndex = idx ∧
      (s.applyUnchanged idx e).1.desc = s.replica.desc ∧
      (s.applyUnchanged idx e).2.desc = s.engine.desc := by
  cases e with
  | command cmd => exact applyCommand_spec s.replica s.engine cmd idx
  | _ => exact ⟨rfl, rfl, rfl, rfl⟩

variable {s : Leader} {desc : RangeDescriptor} {p : Replica × RangeEngine}
  {siblings : List RangeDescriptor} {unfinished : Option RangeDescriptor}

theorem position_commit {i : Nat} (h : i < p.1.appliedIndex) :
    (s.commit p desc siblings unfinished).position i = s.position i := by
  simp only [position, commit]
  rw [find?_cons_of_neg]
  simp only [beq_iff_eq]
  omega

theorem sent_commit (h : Inv s) (hidx : p.1.appliedIndex = s.replica.appliedIndex + 1) :
    ∀ snap ∈ s.sent, snap.header.appliedIndex ≤ p.1.appliedIndex ∧
      ∃ q, (s.commit p desc siblings unfinished).position snap.header.appliedIndex = some q ∧
        Consistent q snap := by
  intro snap hs
  obtain ⟨hle, q, hq, hc⟩ := h.sent snap hs
  refine ⟨by omega, q, ?_, hc⟩
  rw [position_commit (by omega), hq]

theorem inv_apply {e : Entry} (h : Inv s) (hun : s.unfinished = none)
    (hbase : ∀ d, e.base = some d → d ∈ s.positions.map Position.desc)
    (hquiet : s.capturing = [] ∨ e.change s.replica.desc s.engine.content s.siblings = none) :
    Inv (s.applyEntry e) := by
  obtain ⟨p, hp⟩ := h.newest
  have hdesc : s.replica.desc = p.desc := by
    have hmem := hp.memory
    rw [hun] at hmem
    exact hmem
  have hsib : ∀ sibling ∈ s.siblings, s.replica.desc.endKey ≤ sibling.startKey := by
    rw [hdesc]
    exact hp.beyond
  unfold applyEntry
  split
  · obtain ⟨hidx, happlied, hd, hpd⟩ := applyUnchanged_spec s (s.replica.appliedIndex + 1) e
    refine ⟨⟨_, rfl, rfl, happlied.trans hidx.symm, ?_, hd, fun k _ => rfl, rfl, hsib, ?_, ?_⟩,
      sent_commit h hidx⟩
    · exact hpd.trans (hp.persisted.trans (congrArg some hdesc.symm))
    · intro q hq
      rcases mem_cons.mp hq with rfl | hq
      · exact ⟨le_refl _, fun _ => rfl⟩
      have hold := hp.earlier q hq
      rw [← hdesc] at hold
      exact hold
    · intro c hc
      exact (hp.captured c hc).trans hdesc.symm
  · rename_i c hchange
    have hcap : s.capturing = [] := by
      rcases hquiet with hq | hq
      · exact hq
      · simp [hchange] at hq
    have hspec := change_spec ?_ hsib hchange
    · refine ⟨⟨_, rfl, rfl, rfl, rfl, rfl, fun k _ => rfl, rfl, hspec.1, ?_, ?_⟩, sent_commit h rfl⟩
      · intro q hq
        rcases mem_cons.mp hq with rfl | hq
        · exact ⟨le_refl _, fun _ => rfl⟩
        have hold := hp.earlier q hq
        rw [← hdesc] at hold
        rcases hspec.2 with hlt | ⟨hgen, hend⟩
        · exact ⟨by dsimp only; omega, fun heq => by dsimp only at heq; omega⟩
        · rw [hgen, hend]
          exact hold
      · intro c hc
        change c ∈ s.capturing at hc
        simp [hcap] at hc
    · intro d hd hgen
      obtain ⟨q, hq, rfl⟩ := mem_map.mp (hbase d hd)
      have hold := hp.earlier q hq
      rw [hdesc] at hgen ⊢
      exact hold.2 hgen

theorem consistent_stream {p : Position} (hp : Newest s p) (target : ReplicaID) (term : Nat) :
    Consistent p (streamSnapshot s.engine p.desc target term none) := by
  constructor
  case desc => rfl
  case nodup =>
    rw [kvs_streamSnapshot]
    exact snapshotSpans_nodupKeys
  case keys =>
    intro k
    rw [kvs_streamSnapshot, dlookup_snapshotSpans]
    split
    · rename_i hk
      exact hp.content k hk
    · rfl
  case installed =>
    intro receiver after hreceive sibling hs
    rw [receive_desc hreceive]
    rw [hp.siblings] at hs
    exact not_overlaps_of_le (hp.beyond sibling hs)

theorem inv_stream {target : ReplicaID} (h : Inv s) (hc : (target, desc) ∈ s.capturing)
    (term : Nat) : Inv { s with
      sent := streamSnapshot s.engine desc target term none :: s.sent
      capturing := s.capturing.filter fun c => c.1 != target } := by
  obtain ⟨p, hp⟩ := h.newest
  refine ⟨⟨p, { hp with captured := ?_ }⟩, ?_⟩
  · intro c hc
    exact hp.captured c (mem_of_mem_filter hc)
  refine forall_mem_cons.mpr ⟨?_, h.sent⟩
  have hdesc : desc = p.desc := hp.captured _ hc
  subst hdesc
  refine ⟨hp.applied.le, p, ?_, consistent_stream hp target term⟩
  have hhead : s.positions.find? (fun q => q.index == s.engine.state.appliedIndex) = some p := by
    obtain ⟨rest, hrest⟩ := head?_eq_some_iff.mp hp.head
    rw [hrest, find?_cons_of_pos]
    rw [hp.applied, hp.index, beq_self_eq_true]
  exact hhead

theorem inv_neighbour {content : Content} (h : Inv s) (hout : ∀ desc, s.engine.desc = some desc →
      ∀ k, inSpan desc k = true → content.lookup k = s.engine.content.lookup k) :
    Inv { s with engine := { s.engine with content := content } } := by
  obtain ⟨p, hp⟩ := h.newest
  refine ⟨⟨p, { hp with content := ?_ }⟩, h.sent⟩
  intro k hk
  rw [hout p.desc hp.persisted k hk]
  exact hp.content k hk

theorem inv_step (s : Leader) (a : Action) (s' : Leader) (h : Inv s) (hc : undisturbed s a = true)
    (hs : step s a = some s') : Inv s' := by
  cases a with
  | apply e =>
    simp only [step] at hs
    split_ifs at hs with hen
    cases hs
    apply inv_apply h (Option.isNone_iff_eq_none.mp hen.1)
    · intro d hd
      have hall := hen.2
      rw [hd] at hall
      exact of_decide_eq_true hall
    · simpa [undisturbed] using hc
  | finish =>
    obtain ⟨desc, hdesc, hs⟩ := Option.map_eq_some_iff.mp hs
    subst hs
    obtain ⟨p, hp⟩ := h.newest
    refine ⟨⟨p, { hp with memory := ?_ }⟩, h.sent⟩
    have hmem := hp.memory
    rw [hdesc] at hmem
    exact hmem
  | capture target =>
    simp only [step] at hs
    split_ifs at hs
    cases hs
    obtain ⟨p, hp⟩ := h.newest
    refine ⟨⟨p, { hp with captured := ?_ }⟩, h.sent⟩
    refine forall_mem_cons.mpr ⟨?_, hp.captured⟩
    have hdesc := hp.memory
    rw [Option.isNone_iff_eq_none.mp hc] at hdesc
    exact hdesc
  | stream target term =>
    obtain ⟨c, hfind, hs⟩ := Option.map_eq_some_iff.mp hs
    subst hs
    have htarget : c.1 = target := by simpa using find?_some hfind
    subst htarget
    exact inv_stream h (mem_of_find?_eq_some hfind) term
  | neighbour key value =>
    simp only [step] at hs
    split_ifs at hs with hout
    cases hs
    apply inv_neighbour h
    intro desc hdesc k hk
    have hne : k ≠ key := by
      rintro rfl
      rw [hdesc] at hout
      exact hout hk
    cases value with
    | none => exact AList.lookup_erase_ne hne
    | some v => exact AList.lookup_insert_ne hne

/-- A catch-up snapshot is the range as of one log position, in every interleaving
in which no descriptor change falls between the two reads of a catch-up. -/
theorem catchup_consistent (eng : RangeEngine) (desc : RangeDescriptor) (actions : List Action)
    (s : Leader) (hrun : run step (start eng desc) actions = some s)
    (hguard : Runs.Guarded step (fun s a => undisturbed s a = true) (start eng desc) actions) :
    ∀ snap ∈ s.sent, ∃ p, s.position snap.header.appliedIndex = some p ∧ Consistent p snap := by
  have hinv := invariant_of_run inv_step (inv_start eng desc) hguard hrun
  intro snap hs
  exact (hinv.sent snap hs).2

def streamThenSplit : List Action :=
  [.apply (.command writeCommand), .capture 2, .stream 2 1,
    .apply (.split wholeRange [128] 2 ⊥), .finish]

theorem catchup_consistent_then_split :
    ∃ s, run step (start emptyEngine wholeRange) streamThenSplit = some s ∧
      s.sent.length = 1 ∧
      ∀ snap ∈ s.sent, ∃ p, s.position snap.header.appliedIndex = some p ∧ Consistent p snap := by
  refine exists_of_run (fun s => s.sent.length = 1) (by decide) ?_
  exact fun s hs hp =>
    ⟨hp, catchup_consistent emptyEngine wholeRange streamThenSplit s hs (by decide)⟩

/-- The catch-up reads the descriptor, the range splits, and the stream is taken. -/
def captureSplitStream : List Action :=
  [.capture 2, .apply (.split wholeRange [128] 2 ⊥), .finish, .stream 2 1]

def emptyFollower : Receiver :=
  .existing (newReplica emptyEngine wholeRange) (newReplica emptyEngine wholeRange) emptyEngine

def overlapsAt (k : Key) (s : Leader) : Bool :=
  s.sent.any fun snap => (s.position snap.header.appliedIndex).any fun p =>
    decide (snap.header.desc ≠ p.desc) && (emptyFollower.receive snap).any fun after =>
      p.siblings.any fun sibling => after.1.desc.containsKey k && sibling.containsKey k

/-- The header names the position after the split with the bounds before it: the
follower's replica overlaps the range that was split off. -/
theorem catchup_overlaps_sibling :
    ∃ s, run step (start emptyEngine wholeRange) captureSplitStream = some s ∧
      ∃ snap ∈ s.sent, ∃ p, s.position snap.header.appliedIndex = some p ∧
        snap.header.desc ≠ p.desc ∧ ∃ after, emptyFollower.receive snap = some after ∧
        ∃ sibling ∈ p.siblings, after.1.desc.Overlaps sibling := by
  refine exists_of_run (fun s => overlapsAt [128] s = true) (by decide) fun s _ hp => ?_
  obtain ⟨snap, hsnap, hp⟩ := any_eq_true.mp hp
  obtain ⟨p, hpos, hp⟩ := (any_eq_true _ _).mp hp
  rw [and_eq_true] at hp
  obtain ⟨after, hafter, ho⟩ := (any_eq_true _ _).mp hp.2
  obtain ⟨sibling, hsib, ho⟩ := any_eq_true.mp ho
  rw [and_eq_true] at ho
  exact ⟨snap, hsnap, p, hpos, of_decide_eq_true hp.1, after, hafter, sibling, hsib, [128], ho⟩

end Datax.Catchup
