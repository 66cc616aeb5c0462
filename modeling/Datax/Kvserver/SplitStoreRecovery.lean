import Datax.Kvserver.SplitStore

/-!
# Restarting a split store

Between installs the durable log covers what the durable state has applied: the truncation point
trails the flushed applied index, and entries are synced before they apply. The hard state need not
commit what is flushed: a batch that only moves the commit index is not synced, and a snapshot's
state is durable before the hard state that commits it is written.
-/

namespace Datax.SplitStore

open List

structure Fits (raft : RaftDisk) (state : ReplicaState) (last : Nat) : Prop where
  sound : Sound raft (loadTruncatedState raft state).index last
  start : (loadTruncatedState raft state).index ≤ state.appliedIndex
  applied : state.appliedIndex ≤ last

variable {state : ReplicaState} {last : Nat} {raft : RaftDisk}

theorem Fits.legal_iff (h : Fits raft state last) :
    Legal raft state ↔ state.appliedIndex ≤ committedIndex raft state :=
  h.sound.legal_iff.trans (and_iff_right h.start)

theorem loadTruncatedState_some {ts : TruncatedState} (h : raft.truncated = some ts)
    (state : ReplicaState) :
    loadTruncatedState raft state = ts := by
  rw [loadTruncatedState, h]
  rfl

theorem loadTruncatedState_none (h : raft.truncated = none) (state : ReplicaState) :
    (loadTruncatedState raft state).index = state.truncatedIndex := by
  rw [loadTruncatedState, h]
  rfl

structure Ready (s : SplitStore) : Prop where
  durable : Fits s.raft.durable s.state.durable s.rs.lastIndex
  current : Fits s.raft.current s.state.durable s.rs.lastIndex
  memory : Sound s.raft.current s.rs.truncated.index s.rs.lastIndex
  truncated : s.rs.truncated.index ≤ s.state.durable.appliedIndex
  ahead : s.state.durable.appliedIndex ≤ s.state.current.appliedIndex
  applied : s.state.current.appliedIndex ≤ s.rs.lastIndex
  committed : s.committed ≤ s.rs.lastIndex
  synced : ∀ c ∈ s.raft.durable.commit, c ≤ s.committed
  written : ∀ c ∈ s.raft.current.commit, c ≤ s.committed
  key : s.raft.current.truncated = none → s.raft.durable.truncated = none
  hint : s.raft.durable.truncated = none →
    s.state.durable.truncatedIndex ≤ s.state.current.truncatedIndex ∧
      s.state.current.truncatedIndex ≤ s.rs.truncated.index

/-- A log that a snapshot at `index` supersedes. -/
structure Outgoing (raft : RaftDisk) (index last : Nat) : Prop where
  commit : ∀ c ∈ raft.commit, c < index
  log : ∃ lo, Sound raft lo last ∧ lo < index ∧ ∀ ts, raft.truncated = some ts → ts.index = lo

structure Installing (s : SplitStore) (h : SnapshotHeader) : Prop where
  seeded : s.state.current = h.seedState
  committed : s.committed = h.appliedIndex
  durable : Outgoing s.raft.durable h.appliedIndex s.rs.lastIndex
  current : Outgoing s.raft.current h.appliedIndex s.rs.lastIndex

structure Unflushed (s : SplitStore) (h : SnapshotHeader) : Prop where
  durable : Fits s.raft.durable s.state.durable s.rs.lastIndex
  current : Fits s.raft.current s.state.durable s.rs.lastIndex

def Inv (s : SplitStore) : Prop :=
  match s.install with
  | .idle | .reset => Ready s
  | .committed h => Installing s h ∧ (s.state.durable = h.seedState ∨ Unflushed s h)
  | .flushed h => Installing s h ∧ s.state.durable = h.seedState

theorem ready_load (h : Legal raft state) : Ready (load raft state) := by
  have hfits : Fits raft state (newRaftStorage raft state).lastIndex := ⟨h.sound, h.1, h.2.1⟩
  have hcommit : ∀ c ∈ raft.commit, c ≤ committedIndex raft state := by
    intro c hc
    rw [committedIndex, Option.mem_def.mp hc]
    exact le_refl c
  refine ⟨hfits, hfits, h.sound, h.1, le_refl _, h.2.1, h.2.2.2.1, hcommit, hcommit, id, ?_⟩
  intro hnone
  exact ⟨le_refl _, (loadTruncatedState_none hnone state).ge⟩

theorem Fits.advance {state' : ReplicaState} {truncated : Nat} (h : Fits raft state last)
    (hahead : state.appliedIndex ≤ state'.appliedIndex) (happlied : state'.appliedIndex ≤ last)
    (htrunc : truncated ≤ state.appliedIndex) (hhint : raft.truncated = none →
      state.truncatedIndex ≤ state'.truncatedIndex ∧ state'.truncatedIndex ≤ truncated) :
    Fits raft state' last := by
  cases hkey : raft.truncated with
  | some ts =>
    have hsame : loadTruncatedState raft state' = loadTruncatedState raft state := by
      rw [loadTruncatedState_some hkey, loadTruncatedState_some hkey]
    refine ⟨?_, ?_, happlied⟩
    · rw [hsame]
      exact h.sound
    · rw [hsame]
      exact le_trans h.start hahead
  | none =>
    obtain ⟨hlo, hhi⟩ := hhint hkey
    have hsound := h.sound
    rw [loadTruncatedState_none hkey] at hsound
    refine ⟨?_, ?_, happlied⟩
    · rw [loadTruncatedState_none hkey]
      exact hsound.mono hlo (by omega)
    · rw [loadTruncatedState_none hkey]
      omega

variable {s : SplitStore}

theorem Ready.flush (h : Ready s) : Ready { s with state := s.state.flush } := { h with
  durable := h.durable.advance h.ahead h.applied h.truncated h.hint
  current := h.current.advance h.ahead h.applied h.truncated fun hnone => h.hint (h.key hnone)
  truncated := le_trans h.truncated h.ahead
  ahead := le_refl _
  hint := fun hnone => ⟨le_refl _, (h.hint hnone).2⟩ }

theorem Ready.sync (h : Ready s) : Ready { s with raft := s.raft.flush } := { h with
  durable := h.current
  synced := h.written
  key := id
  hint := fun hnone => h.hint (h.key hnone) }

theorem Ready.apply (h : Ready s) (hlt : s.state.current.appliedIndex < s.committed)
    (pending : TruncatedState) :
    Ready { s with
      state := s.state.write (stageApplied s.state.current s.rs)
      pendingTrunc := pending } :=
  { h with
    ahead := Nat.le_succ_of_le h.ahead
    applied := le_trans hlt h.committed
    hint := fun hnone => ⟨le_trans (h.hint hnone).1 (h.hint hnone).2, le_refl _⟩ }

variable {rs : RaftStorage}

section Append

variable {first : Nat}

theorem index_entriesFrom {terms : List Nat} {e : LogEntry}
    (he : e ∈ entriesFrom first terms) : first ≤ e.index ∧ e.index < first + terms.length := by
  induction terms generalizing first with
  | nil => cases he
  | cons term terms ih =>
    rw [length_cons]
    rcases mem_cons.mp he with rfl | he
    · dsimp only
      omega
    · have := ih he
      omega

theorem exists_entriesFrom (first : Nat) (terms : List Nat) {i : Nat} (hlo : first ≤ i)
    (hhi : i < first + terms.length) : ∃ e ∈ entriesFrom first terms, e.index = i := by
  induction terms generalizing first with
  | nil =>
    rw [length_nil] at hhi
    omega
  | cons term terms ih =>
    by_cases heq : i = first
    · exact ⟨⟨first, term⟩, mem_cons_self, heq.symm⟩
    rw [length_cons] at hhi
    obtain ⟨e, he, hi⟩ := ih (first + 1) (by omega) (by omega)
    exact ⟨e, mem_cons_of_mem _ he, hi⟩

theorem getLast_entriesFrom (first term : Nat) (terms : List Nat) :
    ∃ e, (entriesFrom first (term :: terms)).getLast? = some e ∧
      e.index = first + terms.length := by
  induction terms generalizing first term with
  | nil => exact ⟨⟨first, term⟩, rfl, rfl⟩
  | cons t terms ih =>
    obtain ⟨e, he, hi⟩ := ih (first + 1) t
    refine ⟨e, ?_, ?_⟩
    · exact he
    · rw [hi, length_cons]
      omega

theorem sound_append {lo commit : Nat} (terms : List Nat) (h : Sound raft lo rs.lastIndex)
    (hlo : lo < first) (hfirst : first ≤ rs.lastIndex + 1)
    (hcommit : commit ≤ (rs.append raft (entriesFrom first terms)).1.lastIndex) :
    Sound { (rs.append raft (entriesFrom first terms)).2 with commit := some commit } lo
      (rs.append raft (entriesFrom first terms)).1.lastIndex := by
  have hbelow : ∀ c ∈ some commit, c ≤ (rs.append raft (entriesFrom first terms)).1.lastIndex := by
    rintro _ ⟨⟩
    exact hcommit
  cases terms with
  | nil => exact ⟨h.le, hbelow, h.within, h.covers⟩
  | cons term terms =>
    obtain ⟨newest, hnewest, hindex⟩ := getLast_entriesFrom first term terms
    have happend : rs.append raft (entriesFrom first (term :: terms)) =
        ({ rs with lastIndex := newest.index },
          { raft with log := (raft.log.filter fun e =>
              (entriesFrom first (term :: terms)).all (fun x => x.index != e.index) &&
                !(decide (newest.index < e.index) && decide (e.index ≤ rs.lastIndex))) ++
            entriesFrom first (term :: terms) }) := by
      rw [RaftStorage.append, hnewest]
    rw [happend] at hbelow ⊢
    have hlast : newest.index + 1 = first + (term :: terms).length := by
      rw [hindex, length_cons]
      omega
    refine ⟨by dsimp only; omega, hbelow, ?_, ?_⟩
    · intro e he
      rcases mem_append.mp he with he | he
      · obtain ⟨hmem, hkeep⟩ := mem_filter.mp he
        have hle := h.within e hmem
        simp only [Bool.and_eq_true, Bool.not_eq_true', Bool.and_eq_false_iff,
          decide_eq_false_iff_not] at hkeep
        rcases hkeep.2 with hk | hk <;> dsimp only <;> omega
      · have := index_entriesFrom he
        dsimp only
        omega
    · intro i hi hle
      dsimp only at hle
      by_cases hold : i < first
      · obtain ⟨e, he, hei⟩ := h.covers i hi (by omega)
        refine ⟨e, mem_append_left _ (mem_filter.mpr ⟨he, ?_⟩), hei⟩
        rw [Bool.and_eq_true, all_eq_true]
        constructor
        · intro x hx
          have := index_entriesFrom hx
          rw [bne_iff_ne]
          omega
        · have hnot : ¬ newest.index < e.index := by omega
          simp [hnot]
      · have hbelow : i < first + (term :: terms).length := by omega
        obtain ⟨e, he, hei⟩ := exists_entriesFrom first (term :: terms) (not_lt.mp hold) hbelow
        exact ⟨e, mem_append_right _ he, hei⟩

theorem append_truncated (rs : RaftStorage) (raft : RaftDisk) (ents : List LogEntry) :
    (rs.append raft ents).1.truncated = rs.truncated ∧
      (rs.append raft ents).2.truncated = raft.truncated := by
  unfold RaftStorage.append
  split <;> exact ⟨rfl, rfl⟩

theorem le_lastIndex_append (raft : RaftDisk) (terms : List Nat) (h : first ≤ rs.lastIndex + 1) :
    first ≤ (rs.append raft (entriesFrom first terms)).1.lastIndex + 1 := by
  cases terms with
  | nil => exact h
  | cons term terms =>
    obtain ⟨newest, hnewest, hindex⟩ := getLast_entriesFrom first term terms
    have hlast : (rs.append raft (entriesFrom first (term :: terms))).1.lastIndex =
        newest.index := by
      rw [RaftStorage.append, hnewest]
    omega

theorem stageReady_current (s : SplitStore) (ents : List LogEntry) (commit : Nat) (vote : Bool) :
    (s.stageReady ents commit vote).raft.current =
      { (s.rs.append s.raft.current ents).2 with commit := some commit } := by
  unfold stageReady
  dsimp only
  split <;> rfl

/-- A batch that is not synced has no entries. -/
theorem stageReady_durable (s : SplitStore) (ents : List LogEntry) (commit : Nat) (vote : Bool) :
    (s.stageReady ents commit vote).raft.durable = (s.stageReady ents commit vote).raft.current ∨
      (s.stageReady ents commit vote).raft.durable = s.raft.durable ∧ ents = [] := by
  unfold stageReady
  dsimp only
  split
  · exact .inl rfl
  · rename_i hsync
    exact .inr ⟨rfl, by simpa using (Bool.or_eq_false_iff.mp (Bool.eq_false_iff.mpr hsync)).2⟩

theorem Ready.stage (h : Ready s) {commit : Nat} {vote : Bool} (terms : List Nat)
    (habove : s.state.current.appliedIndex < first) (hfirst : first ≤ s.rs.lastIndex + 1)
    (hmore : s.committed ≤ commit)
    (hcommit : commit ≤ (s.stageReady (entriesFrom first terms) commit vote).rs.lastIndex) :
    Ready (s.stageReady (entriesFrom first terms) commit vote) := by
  obtain ⟨htrunc, hkey⟩ := append_truncated s.rs s.raft.current (entriesFrom first terms)
  have hlast := le_lastIndex_append s.raft.current terms hfirst
  have hahead := h.ahead
  have hstart := h.current.start
  have htruncated := h.truncated
  let raft : RaftDisk :=
    { (s.rs.append s.raft.current (entriesFrom first terms)).2 with commit := some commit }
  have hcurrent : (s.stageReady (entriesFrom first terms) commit vote).raft.current = raft :=
    stageReady_current ..
  have hload : loadTruncatedState raft s.state.durable =
      loadTruncatedState s.raft.current s.state.durable := by
    change (s.rs.append s.raft.current (entriesFrom first terms)).2.truncated.getD _ = _
    rw [hkey]
    rfl
  have hfits : Fits raft s.state.durable
      (s.rs.append s.raft.current (entriesFrom first terms)).1.lastIndex := by
    refine ⟨?_, ?_, by omega⟩
    · rw [hload]
      exact sound_append terms h.current.sound (by omega) hfirst hcommit
    · rw [hload]
      exact hstart
  have hwritten : ∀ c ∈ raft.commit, c ≤ commit := by
    rintro _ ⟨⟩
    exact le_refl commit
  have hmemory : Sound raft s.rs.truncated.index
      (s.rs.append s.raft.current (entriesFrom first terms)).1.lastIndex :=
    sound_append terms h.memory (by omega) hfirst hcommit
  -- an unsynced batch leaves the log and its end as they were
  have hdisk : (s.stageReady (entriesFrom first terms) commit vote).raft.durable = raft ∨
      (s.stageReady (entriesFrom first terms) commit vote).raft.durable = s.raft.durable ∧
        (s.rs.append s.raft.current (entriesFrom first terms)).1.lastIndex = s.rs.lastIndex := by
    rcases stageReady_durable s (entriesFrom first terms) commit vote with hsync | ⟨hkept, hnil⟩
    · exact .inl (hsync.trans hcurrent)
    · exact .inr ⟨hkept, by rw [hnil]; rfl⟩
  have hnone : raft.truncated = none → s.raft.durable.truncated = none := fun hraft =>
    h.key (hkey.symm.trans hraft)
  have hhint := h.hint
  rw [← htrunc] at htruncated hmemory hhint
  constructor
  case durable =>
    rcases hdisk with hdisk | ⟨hdisk, hsame⟩
    · rw [hdisk]
      exact hfits
    · rw [hdisk]
      exact hsame ▸ h.durable
  case current => exact hcurrent ▸ hfits
  case memory => exact hcurrent ▸ hmemory
  case truncated => exact htruncated
  case ahead => exact hahead
  case applied =>
    change s.state.current.appliedIndex ≤ (s.rs.append _ _).1.lastIndex
    omega
  case committed => exact hcommit
  case synced =>
    rcases hdisk with hdisk | ⟨hdisk, _⟩
    · rw [hdisk]
      exact hwritten
    · rw [hdisk]
      exact fun c hc => le_trans (h.synced c hc) hmore
  case written => exact hcurrent ▸ hwritten
  case key =>
    rw [hcurrent]
    intro hraft
    rcases hdisk with hdisk | ⟨hdisk, _⟩
    · rw [hdisk]
      exact hraft
    · rw [hdisk]
      exact hnone hraft
  case hint =>
    rcases hdisk with hdisk | ⟨hdisk, _⟩
    · rw [hdisk]
      exact fun hraft => hhint (hnone hraft)
    · rw [hdisk]
      exact hhint

end Append

section Truncate
variable {rs rs' : RaftStorage} {raft raft' : RaftDisk} {ts : TruncatedState}

theorem stageTruncate_spec (h : rs.stageTruncate raft ts = some (rs', raft')) :
    rs'.lastIndex = rs.lastIndex ∧ rs'.truncated.index = max rs.truncated.index ts.index ∧
      rs'.truncated.index ≤ max rs.truncated.index rs.lastIndex ∧ raft'.commit = raft.commit ∧
      ∀ e, e ∈ raft'.log ↔
        e ∈ raft.log ∧ (e.index ≤ rs.truncated.index ∨ rs'.truncated.index < e.index) := by
  unfold RaftStorage.stageTruncate at h
  split at h
  · rename_i hold
    cases h
    refine ⟨rfl, by omega, by omega, rfl, ?_⟩
    intro e
    have hcases := le_or_gt e.index rs.truncated.index
    exact (and_iff_left hcases).symm
  · split_ifs at h
    rename_i hnew hlast
    cases h
    refine ⟨rfl, ?_, ?_, rfl, ?_⟩
    · dsimp only
      omega
    · dsimp only
      omega
    · intro e
      simp only [mem_filter, Bool.not_eq_true', Bool.and_eq_false_iff,
        decide_eq_false_iff_not, not_lt, not_le]

theorem sound_truncate {key : Option TruncatedState}
    (h : Sound raft rs.truncated.index rs.lastIndex)
    (hstage : rs.stageTruncate raft ts = some (rs', raft')) :
    Sound { raft' with truncated := key } rs'.truncated.index rs.lastIndex := by
  obtain ⟨_, hindex, hle, hcommit, hlog⟩ := stageTruncate_spec hstage
  have hlast := h.le
  refine ⟨by omega, ?_, ?_, ?_⟩
  · rw [hcommit]
    exact h.commit
  · intro e he
    exact h.within e ((hlog e).mp he).1
  · intro i hi hil
    obtain ⟨e, he, hei⟩ := h.covers i (by omega) hil
    exact ⟨e, (hlog e).mpr ⟨he, .inr (by omega)⟩, hei⟩

theorem Ready.truncate (h : Ready s) (pending : TruncatedState)
    (hflushed : ts.index ≤ s.state.durable.appliedIndex)
    (hstage : s.rs.stageTruncate s.raft.current ts = some (rs', raft')) : Ready { s with
      rs := rs'
      raft := s.raft.write { raft' with truncated := some rs'.truncated }
      pendingTrunc := pending } := by
  obtain ⟨hlast, hindex, _, hcommit, _⟩ := stageTruncate_spec hstage
  have htrunc := h.truncated
  have hwritten := h.written
  have hle : rs'.truncated.index ≤ s.state.durable.appliedIndex := by omega
  have hsound : Sound { raft' with truncated := some rs'.truncated } rs'.truncated.index
      rs'.lastIndex := by
    rw [hlast]
    exact sound_truncate h.memory hstage
  exact { h with
    durable := by
      rw [hlast]
      exact h.durable
    current := by
      refine ⟨hsound, hle, ?_⟩
      rw [hlast]
      exact h.current.applied
    memory := hsound
    truncated := hle
    applied := by
      rw [hlast]
      exact h.applied
    committed := by
      rw [hlast]
      exact h.committed
    written := by
      intro c hc
      rw [← hcommit] at hwritten
      exact hwritten c hc
    key := by
      intro hnone
      cases hnone
    hint := by
      intro hnone
      obtain ⟨hlo, hhi⟩ := h.hint hnone
      refine ⟨hlo, ?_⟩
      change s.state.current.truncatedIndex ≤ rs'.truncated.index
      omega }

end Truncate

section Install
variable {s : SplitStore} {h : SnapshotHeader}

theorem Fits.outgoing {index : Nat} (hfits : Fits raft state last)
    (hlt : state.appliedIndex < index) (hcommit : ∀ c ∈ raft.commit, c < index) :
    Outgoing raft index last := by
  refine ⟨hcommit, _, hfits.sound, lt_of_le_of_lt hfits.start hlt, ?_⟩
  intro ts hts
  rw [loadTruncatedState_some hts]

theorem Ready.commitSnapshot (hready : Ready s)
    (happlied : s.state.current.appliedIndex < h.appliedIndex)
    (hcommit : s.committed < h.appliedIndex) :
    Inv { s with
      state := s.state.write h.seedState
      committed := h.appliedIndex
      install := .committed h } := by
  have hlt : s.state.durable.appliedIndex < h.appliedIndex := lt_of_le_of_lt hready.ahead happlied
  refine ⟨⟨rfl, rfl, hready.durable.outgoing hlt ?_, hready.current.outgoing hlt ?_⟩,
    .inr ⟨hready.durable, hready.current⟩⟩
  · exact fun c hc => lt_of_le_of_lt (hready.synced c hc) hcommit
  · exact fun c hc => lt_of_le_of_lt (hready.written c hc) hcommit

theorem ready_reset (hinst : Installing s h) (hdurable : s.state.durable = h.seedState) :
    Ready (s.resetLog h) := by
  have hcommit : ∀ c ∈ (s.resetLog h).raft.current.commit, c ≤ h.appliedIndex := by
    intro c hc
    exact le_of_lt (hinst.current.commit c hc)
  have hsound : Sound (s.resetLog h).raft.current h.appliedIndex h.appliedIndex := by
    refine ⟨le_refl _, hcommit, ?_, ?_⟩
    · intro e he
      cases he
    · intro i hlo hhi
      omega
  have hflushed : s.state.durable.appliedIndex = h.appliedIndex := by
    rw [hdurable]
    rfl
  have hcurrent : s.state.current.appliedIndex = h.appliedIndex := by
    rw [hinst.seeded]
    rfl
  have hfits : Fits (s.resetLog h).raft.current (s.resetLog h).state.durable h.appliedIndex :=
    ⟨hsound, hflushed.ge, hflushed.le⟩
  rw [← hinst.committed] at hcommit
  refine ⟨hfits, hfits, hsound, hflushed.ge, ?_, hcurrent.le, hinst.committed.le, hcommit, hcommit,
    id, fun hnone => nomatch hnone⟩
  exact (hflushed.trans hcurrent.symm).le

end Install

theorem inv_outside (hi : s.install.running = false) : Inv s ↔ Ready s := by
  unfold Inv
  cases hinst : s.install with
  | idle | reset => rfl
  | committed h | flushed h =>
    rw [hinst] at hi
    cases hi

variable {h : SnapshotHeader}

theorem inv_committed (hi : s.install = .committed h) :
    Inv s ↔ Installing s h ∧ (s.state.durable = h.seedState ∨ Unflushed s h) := by
  rw [Inv, hi]

theorem inv_flushed (hi : s.install = .flushed h) :
    Inv s ↔ Installing s h ∧ s.state.durable = h.seedState := by
  rw [Inv, hi]

theorem Ready.inv (hready : Ready s) (hi : s.install.running = false) : Inv s :=
  (inv_outside hi).mpr hready

theorem Installing.inv_committed (hinst : Installing s h)
    (hstate : s.state.durable = h.seedState ∨ Unflushed s h) (hi : s.install = .committed h) :
    Inv s :=
  (SplitStore.inv_committed hi).mpr ⟨hinst, hstate⟩

theorem Installing.inv_flushed (hinst : Installing s h) (hstate : s.state.durable = h.seedState)
    (hi : s.install = .flushed h) : Inv s :=
  (SplitStore.inv_flushed hi).mpr ⟨hinst, hstate⟩

theorem inv_flush (hinv : Inv s) : Inv { s with state := s.state.flush } := by
  cases hi : s.install with
  | idle | reset =>
    have hout : s.install.running = false := by rw [hi]; rfl
    exact Ready.inv { ((inv_outside hout).mp hinv).flush with } (by rw [← hi]; exact hout)
  | committed h =>
    obtain ⟨hinst, _⟩ := (inv_committed hi).mp hinv
    exact Installing.inv_committed { hinst with } (.inl hinst.seeded) rfl
  | flushed h =>
    obtain ⟨hinst, _⟩ := (inv_flushed hi).mp hinv
    exact Installing.inv_flushed { hinst with } hinst.seeded rfl

theorem inv_sync (hinv : Inv s) : Inv { s with raft := s.raft.flush } := by
  cases hi : s.install with
  | idle | reset =>
    have hout : s.install.running = false := by rw [hi]; rfl
    exact Ready.inv { ((inv_outside hout).mp hinv).sync with } (by rw [← hi]; exact hout)
  | committed h =>
    obtain ⟨hinst, hstate⟩ := (inv_committed hi).mp hinv
    refine Installing.inv_committed { hinst with durable := hinst.current } ?_ rfl
    exact hstate.imp_right fun hstate => { hstate with durable := hstate.current }
  | flushed h =>
    obtain ⟨hinst, hstate⟩ := (inv_flushed hi).mp hinv
    exact Installing.inv_flushed { hinst with durable := hinst.current } hstate rfl

theorem inv_step (s : SplitStore) (a : Action) (s' : SplitStore) (hinv : Inv s)
    (hs : step s a = some s') : Inv s' := by
  cases a <;> simp only [step] at hs
  case ready first terms commit vote =>
    split_ifs at hs with hc
    cases hs
    obtain ⟨hout, habove, hfirst, hmore, hcommit⟩ := hc
    exact (((inv_outside hout).mp hinv).stage terms habove hfirst hmore hcommit).inv rfl
  case apply truncate =>
    split at hs
    · rename_i hi
      split_ifs at hs with hlt
      cases hs
      have hout : s.install.running = false := by rw [hi]; rfl
      exact (((inv_outside hout).mp hinv).apply hlt _).inv hout
    · cases hs
  case flush =>
    cases hs
    exact inv_flush hinv
  case sync =>
    cases hs
    exact inv_sync hinv
  case truncateDeferred =>
    split_ifs at hs with hpending
    obtain ⟨hrunning, hpending⟩ := not_or.mp hpending
    have hout := Bool.eq_false_of_not_eq_true hrunning
    have hready := (inv_outside hout).mp hinv
    split at hs
    · cases hs
      exact Ready.inv { hready with } hout
    · rename_i rs raft hstage
      cases hs
      exact (hready.truncate _ (by omega) hstage).inv hout
  case commitSnapshot h =>
    split at hs
    · rename_i hi
      split_ifs at hs with hc
      cases hs
      exact ((inv_outside (by rw [hi]; rfl)).mp hinv).commitSnapshot hc.1 hc.2
    · cases hs
  case flushSnapshot =>
    split at hs <;> cases hs
    rename_i h hi
    obtain ⟨hinst, _⟩ := (inv_committed hi).mp hinv
    exact Installing.inv_flushed { hinst with } hinst.seeded rfl
  case resetLog =>
    split at hs <;> cases hs
    rename_i h hi
    obtain ⟨hinst, hdurable⟩ := (inv_flushed hi).mp hinv
    exact (ready_reset hinst hdurable).inv rfl
  case restart =>
    split_ifs at hs with hlegal
    cases hs
    exact (ready_load hlegal).inv rfl

/-- The log that a snapshot supersedes commits the snapshot only when it says nothing of its own. -/
theorem Outgoing.legal_iff (hout : Outgoing raft h.appliedIndex last) :
    Legal raft h.seedState ↔ h.appliedIndex ≤ committedIndex raft h.seedState := by
  obtain ⟨hcommit, lo, hsound, hlo, hkey⟩ := hout
  refine ⟨fun hlegal => hlegal.2.2.2.2.1, fun hle => ?_⟩
  have hc : raft.commit = none := by
    cases hc : raft.commit with
    | none => rfl
    | some c =>
      rw [committedIndex, hc] at hle
      exact absurd hle (not_le.mpr (hcommit c hc))
  have ht : raft.truncated = none := by
    cases ht : raft.truncated with
    | none => rfl
    | some ts =>
      rw [committedIndex, hc, Option.getD_none, loadTruncatedState_some ht, hkey ts ht] at hle
      omega
  have hstart := loadTruncatedState_none ht h.seedState
  have hseeded :
      Sound raft (loadTruncatedState raft h.seedState).index (max last h.appliedIndex) := by
    rw [hstart]
    change Sound raft h.appliedIndex _
    refine ⟨le_max_right _ _, ?_, ?_, ?_⟩
    · exact fun c hin => le_trans (hsound.commit c hin) (le_max_left _ _)
    · exact fun e he => le_trans (hsound.within e he) (le_max_left _ _)
    · intro i hi hle
      exact hsound.covers i (by omega) (by omega)
  exact hseeded.legal_iff.mpr ⟨hstart.le, hle⟩

theorem legal_iff_of_inv (hinv : Inv s) :
    Legal s.raft.durable s.state.durable ↔ s.exposed = false := by
  rw [exposed, decide_eq_false_iff_not, not_lt]
  cases hi : s.install with
  | idle | reset => exact ((inv_outside (by rw [hi]; rfl)).mp hinv).durable.legal_iff
  | committed h =>
    obtain ⟨hinst, hstate⟩ := (inv_committed hi).mp hinv
    rcases hstate with hstate | hstate
    · rw [hstate]
      exact hinst.durable.legal_iff
    · exact hstate.durable.legal_iff
  | flushed h =>
    obtain ⟨hinst, hstate⟩ := (inv_flushed hi).mp hinv
    rw [hstate]
    exact hinst.durable.legal_iff

def emptyDisk : RaftDisk := ⟨none, [], none⟩

def snapshotAtTen : SnapshotHeader :=
  { desc := wholeRange, replicaID := 1, appliedIndex := 10, term := 2
    gcThreshold := ⊥, sizeBytes := 0, prior := none }

/-- A replica with four entries, truncated at two, restores a snapshot at ten: its
state is flushed and the log is still to be reset. -/
def flushedOnly : List Action :=
  [.ready 1 [1, 1, 1, 1] 4 true, .apply none, .apply none, .apply none,
    .apply (some ⟨2, 1⟩), .flush, .truncateDeferred, .sync, .commitSnapshot snapshotAtTen,
    .flushSnapshot]

end Datax.SplitStore
