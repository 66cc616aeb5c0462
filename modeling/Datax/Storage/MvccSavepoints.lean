import Datax.Shared.Runs
import Datax.Storage.MvccRewrite
import Datax.Storage.MvccRollback

/-!
# Histories bounded by the live savepoints

A rewrite of an intent prunes its history by the floor that the coordinator sends: one more than
the lowest sequence of a live savepoint. Every live savepoint still finds what it restores, as
long as that sum fits 32 bits.
-/

namespace Datax.Savepoints

open List

open Shared (Chain)

/-- The floor over the sequences of the live savepoints, in the order the map yields them. -/
def updateHistoryFloor (live : List Int) : Int :=
  live.foldl
    (fun floor seq => if floor < 0 ∨ int32 (seq + 1) < floor then int32 (seq + 1) else floor) (-1)

structure State where
  data : KeyHistory
  sequence : Int
  live : List Int
  -- the writes that were not rolled back
  written : List IntentValue

inductive Call where
  | write (txn : TxnMeta) (ts : Timestamp) (value : Option Bytes)
  | writeElsewhere (sequence : Int)
  | setLive (live : List Int)
  | rollback (seq : Int)

def step (id : UUID) (epoch : Int) (key : Key) (s : State) : Call → Option State
  | .write txn ts value =>
    if txn.id = id ∧ txn.epoch = epoch ∧ txn.historyFloor = updateHistoryFloor s.live ∧
        s.sequence ≤ txn.sequence ∧ txn.sequence < 0x80000000 then
      match mvccWrite s.data key ts value (some txn) with
      | .ok h => some { s with
          data := h, sequence := txn.sequence, written := s.written ++ [⟨txn.sequence, value⟩] }
      | .error _ => some { s with sequence := txn.sequence }
    else none
  | .writeElsewhere sequence =>
    if s.sequence ≤ sequence ∧ sequence < 0x80000000 then some { s with sequence := sequence }
    else none
  | .setLive live =>
    if ∀ seq ∈ live, seq ∈ s.live ∨ seq = s.sequence then some { s with live := live } else none
  | .rollback seq =>
    if seq ∈ s.live then
      some { s with
        data := mvccRollbackIntent s.data id seq
        written := s.written.filter fun e => decide (e.sequence ≤ seq) }
    else none

def start (base : KeyHistory) : State := ⟨base, 0, [], []⟩

/-- The call takes no savepoint at the last sequence number. -/
def fits : Call → Bool
  | .setLive live => live.all fun seq => decide (seq < 0x7fffffff)
  | _ => true

def lastWrite (seq : Int) (written : List IntentValue) : Option (Option Bytes) :=
  (written.filter fun e => decide (e.sequence ≤ seq)).getLast?.map IntentValue.value

def Holds (id : UUID) (h : KeyHistory) : Option (Option Bytes) → Prop
  | some v => ∃ i, h.intent = some i ∧ i.txn.id = id ∧ h.versions.get i.timestamp = some v
  | none => ∀ i ∈ h.intent, i.txn.id ≠ id

section Floor
variable {live : List Int}

theorem floor_le (hfit : ∀ seq ∈ live, 0 ≤ seq ∧ seq < 0x7fffffff) (floor : Int)
    (hfloor : floor = -1 ∨ 0 < floor) :
    let f := live.foldl
      (fun floor seq =>
        if floor < 0 ∨ int32 (seq + 1) < floor then int32 (seq + 1) else floor) floor
    (f = -1 ∨ 0 < f) ∧ (0 < floor → 0 < f ∧ f ≤ floor) ∧ ∀ seq ∈ live, 0 < f ∧ f - 1 ≤ seq := by
  induction live generalizing floor with
  | nil => simp [hfloor]
  | cons seq live ih =>
    have hseq := hfit seq mem_cons_self
    have hsum : int32 (seq + 1) = seq + 1 := int32_eq_self (by omega) (by omega)
    simp only [foldl_cons, hsum, mem_cons, forall_eq_or_imp]
    have := ih (fun q hq => hfit q (mem_cons_of_mem seq hq))
      (if floor < 0 ∨ seq + 1 < floor then seq + 1 else floor) (by split_ifs <;> omega)
    obtain ⟨hf, hle, hall⟩ := this
    refine ⟨hf, ?_, ?_, hall⟩
    · split_ifs at hle ⊢ <;> omega
    · split_ifs at hle ⊢ <;> omega

end Floor

section Intent
variable {txn : TxnMeta} {h h' : KeyHistory} {key : Key} {ts : Timestamp}
  {value : Option Bytes} {id : UUID} {epoch seq : Int}

def Own (id : UUID) (epoch : Int) (h : KeyHistory) : Prop :=
  ∀ i ∈ h.intent, i.txn.id = id → i.txn.epoch = epoch ∧ ∃ v, h.versions.get i.timestamp = some v

section
variable (hw : mvccWrite h key ts value (some txn) = .ok h')
include hw

theorem own_write : Own txn.id txn.epoch h' := by
  rw [mvccWrite_eq_rewrite hw]
  rintro _ ⟨⟩ _
  exact ⟨rfl, value, rewrite_provisional txn h value⟩

theorem stateAt_written (hseq : txn.sequence ≤ seq) : stateAt txn.id seq h' = some value := by
  rw [mvccWrite_eq_rewrite hw]
  simp [stateAt, rewrite, hseq, Chain.get_put]

end

theorem stateAt_write (hown : Own txn.id txn.epoch h)
    (hw : mvccWrite h key ts value (some txn) = .ok h') (hfloor : 0 ≤ txn.historyFloor)
    (hlow : txn.historyFloor - 1 ≤ seq) (hseq : seq < txn.sequence) :
    stateAt txn.id seq h' = stateAt txn.id seq h := by
  rw [mvccWrite_eq_rewrite hw]
  cases hi : h.intent with
  | none => simp [stateAt, rewrite, supersededHistory, hi, hseq, restored, restorePoint]
  | some i =>
    have hid := (mvccWrite_txn_ok hw).2 i hi
    obtain ⟨hepoch, v, hv⟩ := hown i hi hid
    simp [stateAt, rewrite, supersededHistory, hi, hid, hepoch, hv, hseq,
      restored_boundedHistory hfloor hlow]

theorem own_rollback (hown : Own id epoch h) (seq : Int) :
    Own id epoch (mvccRollbackIntent h id seq) := by
  unfold mvccRollbackIntent
  cases hi : h.intent with
  | none => exact hown
  | some i =>
    dsimp only
    split_ifs with hsame
    · exact hown
    cases restorePoint seq i.history with
    | none => simp [Own]
    | some p =>
      rintro _ ⟨⟩ hid
      exact ⟨(hown i hi hid).1, p.2.value, by simp [Chain.get_put]⟩

theorem holds_of_stateAt {x : Option (Option Bytes)} (hown : Own id epoch h) (seq : Int)
    (hx : ∀ s ≥ seq, stateAt id s h = x) : Holds id h x := by
  cases hi : h.intent with
  | none =>
    rw [← hx seq le_rfl]
    simp [stateAt, hi, Holds]
  | some i =>
    have hmax := hx (max seq i.txn.sequence) (le_max_left ..)
    by_cases hid : i.txn.id = id
    · obtain ⟨_, v, hv⟩ := hown i hi hid
      obtain rfl : some v = x := by simpa [stateAt, hi, hid, hv] using hmax
      exact ⟨i, hi, hid, hv⟩
    · obtain rfl : none = x := by simpa [stateAt, hi, hid] using hmax
      simpa [Holds, hi] using hid

end Intent

section Writes
variable {seq : Int} {written : List IntentValue}

theorem lastWrite_concat (e : IntentValue) :
    lastWrite seq (written ++ [e]) = if e.sequence ≤ seq then some e.value
      else lastWrite seq written := by
  unfold lastWrite
  by_cases he : e.sequence ≤ seq <;> simp [filter_append, he]

theorem lastWrite_filter (s : Int) :
    lastWrite s (written.filter fun e => decide (e.sequence ≤ seq)) =
      lastWrite (min s seq) written := by
  unfold lastWrite
  simp

end Writes

variable {id : UUID} {epoch : Int} {key : Key} {s s' : State}

/-- Every live savepoint, and any set from now on, finds in the key what was written by its
sequence. -/
structure Inv (id : UUID) (epoch : Int) (s : State) : Prop where
  own : Own id epoch s.data
  pos : 0 ≤ s.sequence
  live : ∀ seq ∈ s.live, 0 ≤ seq ∧ seq < 0x7fffffff
  exact : ∀ seq, seq ∈ s.live ∨ s.sequence ≤ seq → stateAt id seq s.data = lastWrite seq s.written

theorem Inv.step {a : Call} (h : Inv id epoch s) (hfits : fits a = true)
    (hs : step id epoch key s a = some s') :
    Inv id epoch s' := by
  cases a with
  | write txn ts value =>
    simp only [Savepoints.step] at hs
    split_ifs at hs with hg
    obtain ⟨rfl, rfl, hfloor, hle, hmax⟩ := hg
    split at hs
    · rename_i h' hw
      cases hs
      refine ⟨own_write hw, h.pos.trans hle, h.live, fun seq hseq => ?_⟩
      rw [lastWrite_concat]
      split_ifs with hlt
      · exact stateAt_written hw hlt
      have hlive : seq ∈ s.live := by
        rcases hseq with hseq | hseq
        · exact hseq
        · exact absurd hseq hlt
      obtain ⟨hpos, hlow⟩ := (floor_le h.live (-1) (.inl rfl)).2.2 seq hlive
      rw [stateAt_write h.own hw (by rw [hfloor]; exact hpos.le) (by rw [hfloor]; exact hlow)
        (not_le.mp hlt)]
      exact h.exact seq (.inl hlive)
    · cases hs
      exact ⟨h.own, h.pos.trans hle, h.live, fun seq hseq => h.exact seq (hseq.imp_right hle.trans)⟩
  | writeElsewhere sequence =>
    simp only [Savepoints.step] at hs
    split_ifs at hs with hg
    cases hs
    exact ⟨h.own, h.pos.trans hg.1, h.live, fun seq hseq => h.exact seq (hseq.imp_right hg.1.trans)⟩
  | setLive live =>
    simp only [Savepoints.step] at hs
    split_ifs at hs with hg
    cases hs
    simp only [fits, all_eq_true, decide_eq_true_eq] at hfits
    refine ⟨h.own, h.pos, fun seq hseq => ⟨?_, hfits seq hseq⟩, fun seq hseq => h.exact seq ?_⟩
    · rcases hg seq hseq with hold | rfl
      · exact (h.live seq hold).1
      · exact h.pos
    · rcases hseq with hseq | hseq
      · exact (hg seq hseq).imp_right ge_of_eq
      · exact .inr hseq
  | rollback seq =>
    simp only [Savepoints.step] at hs
    split_ifs at hs with hg
    cases hs
    refine ⟨own_rollback h.own seq, h.pos, h.live, fun q hq => ?_⟩
    rw [stateAt_rollback, lastWrite_filter]
    apply h.exact
    rcases le_total q seq with hle | hle
    · rwa [min_eq_left hle]
    · rw [min_eq_right hle]
      exact .inl hg

/-- In every run that sets no savepoint at the last sequence number, a rollback leaves the value of
the last write it keeps, and a write without live savepoints leaves no history. -/
theorem savepoints_restored {base : KeyHistory} {as : List Call}
    (hbase : ∀ i ∈ base.intent, i.txn.id ≠ id)
    (hc : Runs.Guarded (step id epoch key) (fun _ a => fits a = true) (start base) as)
    (hr : Runs.run (step id epoch key) (start base) as = some s) :
    (∀ seq s', step id epoch key s (.rollback seq) = some s' →
      Holds id s'.data (lastWrite seq s.written)) ∧ ∀ txn ts value s', s.live = [] →
    step id epoch key s (.write txn ts value) = some s' →
        mvccWrite s.data key ts value (some txn) = .ok s'.data →
          ∀ i ∈ s'.data.intent, i.history = [] := by
  have hinv : Inv id epoch s := by
    refine Runs.invariant_of_run (fun s a s' h ha hs => h.step ha hs) ?_ hc hr
    refine ⟨fun i hi hid => absurd hid (hbase i hi), le_rfl, by simp [start], fun seq _ => ?_⟩
    cases hi : base.intent with
    | none => simp [stateAt, start, hi, lastWrite]
    | some i => simp [stateAt, start, hi, hbase i hi, lastWrite]
  constructor
  · intro seq s' hs
    simp only [step] at hs
    split_ifs at hs with hg
    cases hs
    refine holds_of_stateAt (own_rollback hinv.own seq) seq fun q hq => ?_
    rw [stateAt_rollback, min_eq_right hq]
    exact hinv.exact seq (.inl hg)
  · intro txn ts value s' hlive hs hw
    simp only [step] at hs
    split_ifs at hs with hg
    rw [hlive] at hg
    rw [mvccWrite_eq_rewrite hw]
    rintro _ ⟨⟩
    exact supersededHistory_of_neg (by rw [hg.2.2.1]; decide) s.data

/-- The floor of savepoints at 1 and at the last sequence number wraps below zero. -/
theorem savepoint_lost : let txn (sequence floor : Int) : TxnMeta :=
  ⟨1, [], 0, ⊥, ⊥, 0, sequence, floor⟩
    ∃ s, Runs.run (step 1 0 []) (start .empty)
      [.write (txn 1 (-1)) ⊥ (some [1]), .setLive [1], .write (txn 0x7fffffff 2) ⊥ (some [2]),
        .setLive [1, 0x7fffffff], .write (txn 0x7fffffff (-0x80000000)) ⊥ (some [3]), .rollback 1] =
        some s ∧
      s.data.intent = none ∧ lastWrite 1 s.written = some (some [1]) := ⟨_, rfl, rfl, rfl⟩

theorem savepoints_restored_twice : let txn (sequence floor : Int) : TxnMeta :=
  ⟨1, [], 0, ⊥, ⊥, 0, sequence, floor⟩
    let calls := [.write (txn 1 (-1)) ⊥ (some [1]), .setLive [1], .write (txn 2 2) ⊥ (some [2])]
    ∃ s, Runs.run (step 1 0 []) (start .empty) calls = some s ∧
      ∀ s', step 1 0 [] s (.rollback 1) = some s' → Holds 1 s'.data (some (some [1])) := by
  intro txn calls
  have hbase : ∀ i ∈ KeyHistory.empty.intent, i.txn.id ≠ 1 := by simp [KeyHistory.empty]
  have hfits : Runs.Guarded (step 1 0 []) (fun _ a => fits a = true) (start .empty) calls := by
    decide +kernel
  exact ⟨_, rfl, (savepoints_restored hbase hfits rfl).1 1⟩

end Datax.Savepoints
