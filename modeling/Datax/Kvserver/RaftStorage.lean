import Datax.Kvserver.Replica

/-!
# The raft log on a split store

The raft engine holds a replica's log, its hard state and the point the log was truncated at. A
restart makes of them what `newRaftStorage` does: the log starts after the truncation point and ends
at the newest entry found. Of the hard state only the commit index plays a part here; there is none
until raft writes one.
-/

namespace Datax

structure LogEntry where
  index : Nat
  term : Nat
deriving DecidableEq

structure RaftDisk where
  truncated : Option TruncatedState
  log : List LogEntry
  commit : Option Nat

structure RaftStorage where
  truncated : TruncatedState
  lastIndex : Nat

def RaftStorage.firstIndex (rs : RaftStorage) : Nat := rs.truncated.index + 1

def loadTruncatedState (raft : RaftDisk) (state : ReplicaState) : TruncatedState :=
  raft.truncated.getD ⟨state.truncatedIndex, state.truncatedTerm⟩

def newestIndex (log : List LogEntry) (last : Nat) : Nat :=
  log.foldl (fun last e => if last < e.index then e.index else last) last

def newRaftStorage (raft : RaftDisk) (state : ReplicaState) : RaftStorage where
  truncated := loadTruncatedState raft state
  lastIndex := newestIndex raft.log (loadTruncatedState raft state).index

def RaftStorage.append (rs : RaftStorage) (raft : RaftDisk) (ents : List LogEntry) :
    RaftStorage × RaftDisk :=
  match ents.getLast? with
  | none => (rs, raft)
  | some newest =>
    let kept := raft.log.filter fun e =>
      ents.all (fun x => x.index != e.index) &&
        !(decide (newest.index < e.index) && decide (e.index ≤ rs.lastIndex))
    ({ rs with lastIndex := newest.index }, { raft with log := kept ++ ents })

def RaftStorage.stageTruncate (rs : RaftStorage) (raft : RaftDisk) (ts : TruncatedState) :
    Option (RaftStorage × RaftDisk) :=
  if ts.index ≤ rs.truncated.index then some (rs, raft)
  else if rs.lastIndex < ts.index then none
  else
    let kept := raft.log.filter fun e =>
      !(decide (rs.truncated.index < e.index) && decide (e.index ≤ ts.index))
    some ({ rs with truncated := ts }, { raft with log := kept })

/-- What raft takes as committed when it starts: without a hard state, what is truncated. -/
def committedIndex (raft : RaftDisk) (state : ReplicaState) : Nat :=
  raft.commit.getD (loadTruncatedState raft state).index

/-- A starting state for raft: the applied and the commit index lie in the log, what is applied is
committed, and the log has no gap. -/
def Legal (raft : RaftDisk) (state : ReplicaState) : Prop :=
  (newRaftStorage raft state).firstIndex - 1 ≤ state.appliedIndex ∧
    state.appliedIndex ≤ (newRaftStorage raft state).lastIndex ∧
    (newRaftStorage raft state).firstIndex - 1 ≤ committedIndex raft state ∧
    committedIndex raft state ≤ (newRaftStorage raft state).lastIndex ∧
    state.appliedIndex ≤ committedIndex raft state ∧
    ∀ i, i ≤ (newRaftStorage raft state).lastIndex →
      (newRaftStorage raft state).truncated.index < i → ∃ e ∈ raft.log, e.index = i

instance (raft : RaftDisk) (state : ReplicaState) : Decidable (Legal raft state) :=
  inferInstanceAs (Decidable (_ ∧ _ ∧ _ ∧ _ ∧ _ ∧ ∀ i, i ≤ _ → _ → _))

theorem newestIndex_cons (e : LogEntry) (log : List LogEntry) (last : Nat) :
    newestIndex (e :: log) last = newestIndex log (max last e.index) := by
  change newestIndex log (if last < e.index then e.index else last) = _
  congr 1
  split <;> omega

theorem le_newestIndex (log : List LogEntry) (last : Nat) : last ≤ newestIndex log last := by
  induction log generalizing last with
  | nil => exact le_refl _
  | cons e log ih =>
    rw [newestIndex_cons]
    exact le_trans (le_max_left _ _) (ih _)

variable {log : List LogEntry}

theorem index_le_newestIndex {e : LogEntry} (he : e ∈ log) (last : Nat) :
    e.index ≤ newestIndex log last := by
  induction log generalizing last with
  | nil => cases he
  | cons x log ih =>
    rw [newestIndex_cons]
    rcases List.mem_cons.mp he with rfl | he
    · exact le_trans (le_max_right _ _) (le_newestIndex log _)
    · exact ih he _

theorem newestIndex_le {last bound : Nat} (hl : last ≤ bound) (h : ∀ e ∈ log, e.index ≤ bound) :
    newestIndex log last ≤ bound := by
  induction log generalizing last with
  | nil => exact hl
  | cons e log ih =>
    rw [newestIndex_cons]
    apply ih
    · exact max_le hl (h e List.mem_cons_self)
    · exact fun x hx => h x (List.mem_cons_of_mem _ hx)

/-- The log holds every index after `lo` up to `last`, and none beyond. -/
structure Sound (raft : RaftDisk) (lo last : Nat) : Prop where
  le : lo ≤ last
  commit : ∀ c ∈ raft.commit, c ≤ last
  within : ∀ e ∈ raft.log, e.index ≤ last
  covers : ∀ i, lo < i → i ≤ last → ∃ e ∈ raft.log, e.index = i

namespace Sound
variable {raft : RaftDisk} {state : ReplicaState} {lo last : Nat}

theorem mono {lo' : Nat} (h : Sound raft lo last) (hlo : lo ≤ lo') (hle : lo' ≤ last) :
    Sound raft lo' last :=
  ⟨hle, h.commit, h.within, fun i hi hl => h.covers i (by omega) hl⟩

section
variable (h : Sound raft (loadTruncatedState raft state).index last)
include h

theorem lastIndex_eq : (newRaftStorage raft state).lastIndex = last := by
  apply le_antisymm (newestIndex_le h.le h.within)
  by_cases heq : (loadTruncatedState raft state).index = last
  · rw [← heq]
    exact le_newestIndex _ _
  · obtain ⟨e, he, hi⟩ := h.covers last (by have := h.le; omega) le_rfl
    rw [← hi]
    exact index_le_newestIndex he _

theorem committedIndex_le : committedIndex raft state ≤ last := by
  unfold committedIndex
  cases hc : raft.commit with
  | none => exact h.le
  | some c => exact h.commit c hc

theorem legal_iff : Legal raft state ↔ (loadTruncatedState raft state).index ≤ state.appliedIndex ∧
    state.appliedIndex ≤ committedIndex raft state := by
  unfold Legal
  rw [h.lastIndex_eq]
  have hcommit := h.committedIndex_le
  constructor
  · intro hlegal
    exact ⟨hlegal.1, hlegal.2.2.2.2.1⟩
  · intro happlied
    exact ⟨happlied.1, le_trans happlied.2 hcommit, le_trans happlied.1 happlied.2, hcommit,
      happlied.2, fun i hi hlo => h.covers i hlo hi⟩

end

end Sound

theorem Legal.sound {raft : RaftDisk} {state : ReplicaState} (h : Legal raft state) :
    Sound raft (loadTruncatedState raft state).index (newRaftStorage raft state).lastIndex where
  le := le_newestIndex _ _
  commit := by
    intro c hc
    have hcommit := h.2.2.2.1
    rw [committedIndex, Option.mem_def.mp hc] at hcommit
    exact hcommit
  within := fun _ he => index_le_newestIndex he _
  covers := fun i hlo hi => h.2.2.2.2.2 i hi hlo

end Datax
