import Mathlib.Data.List.Induction
import Datax.Storage.MvccResolve
import Datax.Storage.MvccScan

/-!
# Rewriting an intent again

The versions a write leaves depend only on what lies beneath the intent and on the value, so the
same writes done again leave the same. A write also puts the superseded value on the intent's
history, replacing one of the same sequence: two or more writes of one sequence leave the same
history however often, a single one only in special cases.
-/

namespace Datax

open List

open Shared (Chain)

section History
variable {prev : List IntentValue} {floor : Int}

/-- The entries that stay when one of sequence `seq` is added at the end. -/
def keptEntries (prev : List IntentValue) (seq : Int) : List IntentValue :=
  match prev.getLast? with
  | some l => if l.sequence = seq then prev.dropLast else prev
  | none => []

/-- The part of `l` that stays when only the last entry at or below `bound` is needed
of those, and an entry of sequence `seq` follows. -/
def cutEntries (bound seq : Int) : List IntentValue → List IntentValue
  | [] => []
  | e :: es =>
    if (es.any fun d => decide (d.sequence ≤ bound)) || decide (seq ≤ bound) then cutEntries
      bound seq es
    else e :: es

def historyBefore (prev : List IntentValue) (seq floor : Int) : List IntentValue :=
  if floor = 0 then keptEntries prev seq else cutEntries (floor - 1) seq (keptEntries prev seq)

theorem lastAtOrBelow_shift (bound : Int) (l : List IntentValue) (i first : Nat) :
    boundedHistory.lastAtOrBelow bound l i first =
      if (l.any fun e => decide (e.sequence ≤ bound)) = true then
        i + boundedHistory.lastAtOrBelow bound l 0 0 else first := by
  induction l generalizing i first with
  | nil => rfl
  | cons d es ih =>
    unfold boundedHistory.lastAtOrBelow
    rw [ih, ih (0 + 1) (if d.sequence ≤ bound then 0 else 0), any_cons]
    by_cases hes : (es.any fun e => decide (e.sequence ≤ bound)) = true
    · rw [if_pos hes, if_pos hes, hes, Bool.or_true, if_pos rfl]
      omega
    · rw [if_neg hes, if_neg hes, ite_self, Bool.not_eq_true _ |>.mp hes, Bool.or_false]
      by_cases hd : d.sequence ≤ bound
      · simp [hd]
      · simp [hd]

theorem drop_lastAtOrBelow (bound : Int) (l : List IntentValue) (add : IntentValue) :
    (l ++ [add]).drop (boundedHistory.lastAtOrBelow bound (l ++ [add]) 0 0) =
      cutEntries bound add.sequence l ++ [add] := by
  induction l with
  | nil => simp [boundedHistory.lastAtOrBelow, cutEntries]
  | cons e es ih =>
    have hstart : boundedHistory.lastAtOrBelow bound (e :: (es ++ [add])) 0 0 =
        boundedHistory.lastAtOrBelow bound (es ++ [add]) (0 + 1) 0 := by
      rw [boundedHistory.lastAtOrBelow, ite_self]
    rw [cons_append, hstart, lastAtOrBelow_shift, cutEntries, any_append]
    have hany : ((es.any fun d => decide (d.sequence ≤ bound)) || [add].any fun d =>
      decide (d.sequence ≤ bound)) =
          ((es.any fun d => decide (d.sequence ≤ bound)) || decide (add.sequence ≤ bound)) := by
      rw [any_cons, any_nil, Bool.or_false]
    rw [hany]
    split
    · rw [Nat.add_comm, Nat.zero_add, drop_succ_cons]
      exact ih
    · rfl

theorem boundedHistory_eq (hfloor : 0 ≤ floor) (add : IntentValue) :
    boundedHistory prev add floor = historyBefore prev add.sequence floor ++ [add] := by
  unfold boundedHistory historyBefore keptEntries
  rw [if_neg (not_lt.mpr hfloor)]
  cases prev.getLast? with
  | none =>
    dsimp only
    split
    · rfl
    · exact drop_lastAtOrBelow _ [] add
  | some l =>
    dsimp only
    by_cases hseq : l.sequence = add.sequence
    · split
      · rfl
      · exact drop_lastAtOrBelow _ _ _
    · split
      · rfl
      · exact drop_lastAtOrBelow _ _ _

theorem boundedHistory_of_neg (hfloor : floor < 0) (add : IntentValue) :
    boundedHistory prev add floor = [] :=
  if_pos hfloor

theorem cutEntries_again (bound seq : Int) (l : List IntentValue) :
    cutEntries bound seq (cutEntries bound seq l) = cutEntries bound seq l := by
  induction l with
  | nil => rfl
  | cons e es ih =>
    rw [cutEntries]
    split
    · exact ih
    · rename_i hkeep
      rw [cutEntries, if_neg hkeep]

theorem keptEntries_concat (l : List IntentValue) (e : IntentValue) :
    keptEntries (l ++ [e]) e.sequence = l := by
  unfold keptEntries
  simp

theorem boundedHistory_again {x y : IntentValue} (hseq : x.sequence = y.sequence) :
    boundedHistory (boundedHistory prev x floor) y floor = boundedHistory prev y floor := by
  rcases lt_or_ge floor 0 with hneg | hfloor
  · rw [boundedHistory_of_neg hneg, boundedHistory_of_neg hneg]
  rw [boundedHistory_eq hfloor, boundedHistory_eq hfloor, boundedHistory_eq hfloor, ← hseq]
  congr 1
  unfold historyBefore
  rw [keptEntries_concat]
  split
  · rfl
  · exact cutEntries_again _ _ _

end History

section Rewrite
variable {txn : TxnMeta} {h h' : KeyHistory} {key : Key} {ts : Timestamp} {value : Option Bytes}

/-- The history of an intent that replaces what the key has. -/
def supersededHistory (txn : TxnMeta) (h : KeyHistory) : List IntentValue :=
  match h.intent with
  | none => []
  | some i =>
    if i.txn.epoch = txn.epoch then
      match h.versions.get i.timestamp with
      | some old => boundedHistory i.history ⟨i.txn.sequence, old⟩ txn.historyFloor
      | none => []
    else []

def rewrite (txn : TxnMeta) (h : KeyHistory) (value : Option Bytes) : KeyHistory where
  intent := some ⟨txn, txn.writeTimestamp, supersededHistory txn h⟩
  versions := h.beneath.put txn.writeTimestamp value

theorem mvccWrite_own {i : MVCCMetadata} (hi : h.intent = some i) (hid : i.txn.id = txn.id) :
    mvccWrite h key ts value (some txn) = .ok (rewrite txn h value) := by
  unfold mvccWrite rewrite supersededHistory KeyHistory.beneath
  simp only [hi, if_pos hid]
  rfl

theorem mvccWrite_eq_rewrite (hw : mvccWrite h key ts value (some txn) = .ok h') :
    h' = rewrite txn h value := by
  cases hi : h.intent with
  | some i =>
    rw [mvccWrite_own hi ((mvccWrite_txn_ok hw).2 i hi)] at hw
    exact (Except.ok.inj hw).symm
  | none =>
    have hlaid : layIntent h txn value [] = rewrite txn h value := by
      unfold layIntent rewrite supersededHistory KeyHistory.beneath
      rw [hi]
    rw [← hlaid]
    unfold mvccWrite at hw
    rw [hi] at hw
    dsimp only at hw
    split at hw
    · split_ifs at hw
      rename_i heq _
      cases heq
      exact (Except.ok.inj hw).symm
    · rename_i heq
      cases heq
      exact (Except.ok.inj hw).symm
    · rename_i heq
      cases heq
    · rename_i heq
      cases heq

section
variable (txn h value)

theorem rewrite_beneath : (rewrite txn h value).beneath = h.beneath.delete txn.writeTimestamp :=
  Chain.delete_put _ _ _

theorem rewrite_provisional :
    (rewrite txn h value).versions.get txn.writeTimestamp = some value := by
  change (h.beneath.put txn.writeTimestamp value).get txn.writeTimestamp = some value
  rw [Chain.get_put, if_pos rfl]

theorem supersededHistory_rewrite : supersededHistory txn (rewrite txn h value) =
      boundedHistory (supersededHistory txn h) ⟨txn.sequence, value⟩ txn.historyFloor := by
  have hget := rewrite_provisional txn h value
  unfold supersededHistory
  unfold rewrite at hget ⊢
  dsimp only at hget ⊢
  rw [if_pos rfl, hget]
  rfl

end

def rewriteAll (txn : TxnMeta) (h : KeyHistory) (values : List (Option Bytes)) : KeyHistory :=
  values.foldl (rewrite txn) h

variable {values : List (Option Bytes)}

section
variable (txn h values) (v : Option Bytes)

theorem rewriteAll_concat :
    rewriteAll txn h (values ++ [v]) = rewrite txn (rewriteAll txn h values) v := by
  unfold rewriteAll
  rw [foldl_append]
  rfl

theorem rewriteAll_beneath :
    (rewriteAll txn h (values ++ [v])).beneath = h.beneath.delete txn.writeTimestamp := by
  rw [rewriteAll_concat, rewrite_beneath]
  induction values using List.reverseRecOn with
  | nil => rfl
  | append_singleton values w ih =>
    rw [rewriteAll_concat, rewrite_beneath, ih]
    exact Chain.delete_eq_self_iff.mpr (by rw [Chain.get_delete, if_pos rfl])

theorem rewriteAll_eq : rewriteAll txn h (values ++ [v]) =
      ⟨some ⟨txn, txn.writeTimestamp, supersededHistory txn (rewriteAll txn h values)⟩,
        h.beneath.put txn.writeTimestamp v⟩ := by
  have hput : (rewriteAll txn h values).beneath.put txn.writeTimestamp v =
      h.beneath.put txn.writeTimestamp v := by
    rcases values.eq_nil_or_concat with rfl | ⟨before, w, rfl⟩
    · rfl
    · rw [concat_eq_append, rewriteAll_beneath, Chain.put_delete]
  rw [rewriteAll_concat, ← hput]
  rfl

theorem supersededHistory_rewriteAll : supersededHistory txn (rewriteAll txn h (values ++ [v])) =
      boundedHistory (supersededHistory txn h) ⟨txn.sequence, v⟩ txn.historyFloor := by
  induction values using List.reverseRecOn generalizing v with
  | nil => exact supersededHistory_rewrite txn h v
  | append_singleton values w ih =>
    rw [rewriteAll_concat, supersededHistory_rewrite, ih]
    exact boundedHistory_again rfl

end

theorem supersededHistory_of_neg (hfloor : txn.historyFloor < 0) (h : KeyHistory) :
    supersededHistory txn h = [] := by
  unfold supersededHistory
  split
  · rfl
  split
  · split
    · exact boundedHistory_of_neg hfloor _
    · rfl
  · rfl

/-- The key is under an intent of the transaction's epoch and sequence that holds the
value already. -/
def AlreadyHolds (txn : TxnMeta) (h : KeyHistory) (value : Option Bytes) : Prop :=
  ∃ i, h.intent = some i ∧ i.txn.epoch = txn.epoch ∧ i.txn.sequence = txn.sequence ∧
    h.versions.get i.timestamp = some value

theorem supersededHistory_eq_add_iff (h : KeyHistory) (value : Option Bytes) :
    boundedHistory (supersededHistory txn h) ⟨txn.sequence, value⟩ txn.historyFloor =
      supersededHistory txn h ↔
      txn.historyFloor < 0 ∨ AlreadyHolds txn h value := by
  rcases lt_or_ge txn.historyFloor 0 with hneg | hfloor
  · rw [boundedHistory_of_neg hneg, supersededHistory_of_neg hneg]
    exact ⟨fun _ => .inl hneg, fun _ => rfl⟩
  constructor
  · intro heq
    right
    rw [boundedHistory_eq hfloor] at heq
    unfold supersededHistory at heq
    split at heq
    · exact absurd heq (by simp)
    rename_i i hi
    split at heq
    · rename_i hepoch
      split at heq
      · rename_i old hold
        rw [boundedHistory_eq hfloor ⟨i.txn.sequence, old⟩] at heq
        have hlast := append_inj_right' heq rfl
        rw [singleton_inj, IntentValue.mk.injEq] at hlast
        refine ⟨i, hi, hepoch, hlast.1.symm, ?_⟩
        rw [hlast.2]
        exact hold
      · exact absurd heq (by simp)
    · exact absurd heq (by simp)
  · rintro (hneg | ⟨i, hi, hepoch, hseq, hold⟩)
    · exact absurd hneg (not_lt.mpr hfloor)
    have hnow : supersededHistory txn h =
        boundedHistory i.history ⟨txn.sequence, value⟩ txn.historyFloor := by
      unfold supersededHistory
      rw [hi]
      dsimp only
      rw [if_pos hepoch, hold, hseq]
    rw [hnow]
    exact boundedHistory_again rfl

/-- The same writes once more change nothing exactly when there are none or several,
no history is kept, or the only one found its own value in place. -/
theorem rewriteAll_again_iff (txn : TxnMeta) (h : KeyHistory) (values : List (Option Bytes)) :
    rewriteAll txn (rewriteAll txn h values) values = rewriteAll txn h values ↔
      txn.historyFloor < 0 ∨ ∀ v, values = [v] → AlreadyHolds txn h v := by
  rcases values.eq_nil_or_concat with rfl | ⟨before, v, rfl⟩
  · constructor
    · intro _
      right
      simp
    · exact fun _ => rfl
  · rw [concat_eq_append]
    -- the versions agree anyway, so the histories decide
    have hhist : rewriteAll txn (rewriteAll txn h (before ++ [v])) (before ++ [v]) =
        rewriteAll txn h (before ++ [v]) ↔
          supersededHistory txn (rewriteAll txn (rewriteAll txn h (before ++ [v])) before) =
            supersededHistory txn (rewriteAll txn h before) := by
      rw [rewriteAll_eq txn (rewriteAll txn h (before ++ [v])), rewriteAll_beneath,
        Chain.put_delete]
      generalize supersededHistory txn
        (rewriteAll txn (rewriteAll txn h (before ++ [v])) before) = again
      rw [rewriteAll_eq]
      simp
    rw [hhist]
    rcases before.eq_nil_or_concat with rfl | ⟨init, w, rfl⟩
    · change supersededHistory txn (rewrite txn h v) = supersededHistory txn h ↔ _
      rw [supersededHistory_rewrite, supersededHistory_eq_add_iff]
      refine or_congr_right ⟨?_, fun hall => hall v rfl⟩
      intro hhold v' heq
      cases heq
      exact hhold
    · rw [concat_eq_append, supersededHistory_rewriteAll, supersededHistory_rewriteAll,
        supersededHistory_rewriteAll]
      refine iff_of_true (boundedHistory_again rfl) (.inr ?_)
      intro v' heq
      have hlen := congrArg List.length heq
      simp at hlen

end Rewrite

end Datax
