import Datax.Storage.Mvcc

/-!
# MVCC writes

Transactional writes lay an intent at the transaction's write timestamp,
one-phase commits write bare versions under the same conflict rules, and
resolution turns an intent into a committed version or removes it.
-/

namespace Datax

open Shared (Chain)

/-- The intent history after a rewrite in the same epoch adds the superseded value. -/
def boundedHistory (prev : List IntentValue) (add : IntentValue) (floor : Int) : List IntentValue :=
  if floor < 0 then []
  else
    let history :=
      match prev.getLast? with
      | some l => if l.sequence = add.sequence then prev.dropLast ++ [add] else prev ++ [add]
      | none => [add]
    if floor = 0 then history
    else history.drop (lastAtOrBelow (floor - 1) history 0 0)
where
  lastAtOrBelow (seq : Int) : List IntentValue → Nat → Nat → Nat
    | [], _, first => first
    | e :: es, i, first => lastAtOrBelow seq es (i + 1) (if e.sequence ≤ seq then i else first)

def layIntent (h : KeyHistory) (txn : TxnMeta) (value : Option Bytes) (history : List IntentValue) :
    KeyHistory :=
  { intent := some ⟨txn, txn.writeTimestamp, history⟩
    versions := h.versions.put txn.writeTimestamp value }

def mvccWrite (h : KeyHistory) (key : Key) (ts : Timestamp) (value : Option Bytes)
    (txn : Option TxnMeta) : Except StorageError KeyHistory :=
  match h.intent with
  | some intent =>
    match txn with
    | none => .error (.writeIntent [⟨key, intent.txn⟩])
    | some txn =>
      if intent.txn.id = txn.id then
        let history :=
          if intent.txn.epoch = txn.epoch then
            match h.versions.get intent.timestamp with
            | some old => boundedHistory intent.history ⟨intent.txn.sequence, old⟩ txn.historyFloor
            | none => []
          else []
        .ok (layIntent { h with versions := h.versions.delete intent.timestamp } txn value history)
      else .error (.writeIntent [⟨key, intent.txn⟩])
  | none =>
    match h.versions.entries.head?, txn with
    | some (vts, _), some txn =>
      if ts.lessEq vts then .error (.writeTooOld ts vts.next) else .ok (layIntent h txn value [])
    | none, some txn => .ok (layIntent h txn value [])
    | some (vts, _), none =>
      -- blind writes serialize after what is there
      .ok { h with versions := h.versions.put (if ts.lessEq vts then vts.next else ts) value }
    | none, none => .ok { h with versions := h.versions.put ts value }

def mvccWriteCommitted (h : KeyHistory) (key : Key) (ts : Timestamp) (value : Option Bytes) :
    Except StorageError KeyHistory :=
  match h.intent with
  | some intent => .error (.writeIntent [⟨key, intent.txn⟩])
  | none =>
    match h.versions.entries.head? with
    | some (vts, _) =>
      if ts.lessEq vts then .error (.writeTooOld ts vts.next)
      else .ok { h with versions := h.versions.put ts value }
    | none => .ok { h with versions := h.versions.put ts value }

def mvccResolveIntent (h : KeyHistory) (key : Key) (txnID : UUID) (status : TxnStatus)
    (commitTS : Timestamp) : Except StorageError KeyHistory :=
  if status = .pending then .error .resolvePending
  else
    match h.intent with
    | none => .ok h
    | some intent =>
      if intent.txn.id ≠ txnID then .ok h
      else if status = .aborted then
        .ok { intent := none, versions := h.versions.delete intent.timestamp }
      else if commitTS.isEmpty || commitTS = intent.timestamp then .ok { h with intent := none }
      else
        match h.versions.get intent.timestamp with
        | none => .error (.noProvisionalValue key intent.timestamp none)
        | some value =>
          .ok
            { intent := none
              versions := (h.versions.delete intent.timestamp).put commitTS value }

def KeyHistory.Below (h : KeyHistory) (ts : Timestamp) : Prop :=
  ∀ v ∈ h.versions.entries.head?, v.1 < ts

instance (h : KeyHistory) (ts : Timestamp) : Decidable (h.Below ts) :=
  inferInstanceAs (Decidable (∀ v ∈ h.versions.entries.head?, v.1 < ts))

variable {txn : Option TxnMeta} {intents : List Intent} {status : TxnStatus} {commitTS : Timestamp}

section Intents
variable {h h' : KeyHistory} {key : Key} {ts : Timestamp} {value : Option Bytes}

theorem mvccWrite_txn_ok {txn : TxnMeta} (hw : mvccWrite h key ts value (some txn) = .ok h') :
    (∃ history, h'.intent = some ⟨txn, txn.writeTimestamp, history⟩) ∧
      ∀ intent, h.intent = some intent → intent.txn.id = txn.id := by
  unfold mvccWrite at hw
  cases hi : h.intent with
  | some intent =>
    simp only [hi] at hw
    split at hw
    · rename_i hid
      cases hw
      refine ⟨⟨_, rfl⟩, ?_⟩
      rintro _ ⟨⟩
      exact hid
    · cases hw
  | none =>
    refine ⟨?_, by simp⟩
    simp only [hi] at hw
    split at hw
    · split at hw
      · cases hw
      rename_i heq _
      cases heq
      cases hw
      exact ⟨[], rfl⟩
    · rename_i heq
      cases heq
      cases hw
      exact ⟨[], rfl⟩
    · rename_i heq
      cases heq
    · rename_i heq
      cases heq

theorem mvccWrite_ok (hw : mvccWrite h key ts value txn = .ok h') : h'.intent = h.intent ∨
      ∃ t history, txn = some t ∧ h'.intent = some ⟨t, t.writeTimestamp, history⟩ := by
  cases txn with
  | some t =>
    obtain ⟨⟨history, hi⟩, _⟩ := mvccWrite_txn_ok hw
    exact .inr ⟨t, history, rfl, hi⟩
  | none =>
    left
    unfold mvccWrite at hw
    cases hi : h.intent with
    | some intent => simp [hi] at hw
    | none =>
      simp only [hi] at hw
      split at hw
      · rename_i heq
        cases heq
      · rename_i heq
        cases heq
      · cases hw
        rfl
      · cases hw
        rfl

theorem mvccWrite_writeIntent (hw : mvccWrite h key ts value txn = .error (.writeIntent intents)) :
    intents ≠ [] := by
  unfold mvccWrite at hw
  split at hw
  · split at hw
    · cases hw
      simp
    · split at hw <;> cases hw
      simp
  · split at hw
    · split at hw <;> cases hw
    · cases hw
    · cases hw
    · cases hw

theorem mvccResolveIntent_ne_writeIntent {txnID : UUID} :
    mvccResolveIntent h key txnID status commitTS ≠ .error (.writeIntent intents) := by
  intro hr
  unfold mvccResolveIntent at hr
  split at hr
  · cases hr
  split at hr
  · cases hr
  split at hr
  · cases hr
  split at hr
  · cases hr
  split_ifs at hr
  split at hr <;> cases hr

theorem mvccResolveIntent_ok {txnID : UUID}
    (hr : mvccResolveIntent h key txnID status commitTS = .ok h') :
    h'.intent = h.intent ∨ h'.intent = none ∧ ∃ intent, h.intent = some intent ∧
      intent.txn.id = txnID := by
  unfold mvccResolveIntent at hr
  split at hr
  · cases hr
  cases hi : h.intent with
  | none =>
    simp only [hi] at hr
    cases hr
    exact .inl hi
  | some intent =>
    simp only [hi] at hr
    split at hr
    · cases hr
      exact .inl hi
    rename_i hid
    right
    refine ⟨?_, intent, rfl, not_not.mp hid⟩
    split at hr
    · cases hr
      rfl
    split at hr
    · cases hr
      rfl
    · split at hr
      · cases hr
      · cases hr
        rfl

theorem not_lessEq_of_below (hb : h.Below ts) {v : Timestamp × Option Bytes}
    (hv : h.versions.entries.head? = some v) : ts.lessEq v.1 = false := by
  have hlt := hb v hv
  by_contra hc
  have hle : ts ≤ v.1 := (Bool.not_eq_false _).mp hc
  exact absurd hlt (not_lt.mpr hle)

theorem mvccWrite_of_below {txn : TxnMeta} (hi : h.intent = none)
    (hb : h.Below txn.writeTimestamp) :
    mvccWrite h key txn.writeTimestamp value (some txn) = .ok (layIntent h txn value []) := by
  simp only [mvccWrite, hi]
  cases hhead : h.versions.entries.head? with
  | none => rfl
  | some v => simp [not_lessEq_of_below hb hhead]

theorem mvccWriteCommitted_of_below (hi : h.intent = none) (hb : h.Below ts) :
    mvccWriteCommitted h key ts value = .ok { h with versions := h.versions.put ts value } := by
  simp only [mvccWriteCommitted, hi]
  cases hhead : h.versions.entries.head? with
  | none => rfl
  | some v => simp [not_lessEq_of_below hb hhead]

theorem tooOld_of_not_below (hb : ¬ h.Below ts) :
    ∃ v, h.versions.entries.head? = some v ∧ ts.lessEq v.1 = true := by
  simp only [KeyHistory.Below, not_forall] at hb
  obtain ⟨v, hv, hlt⟩ := hb
  exact ⟨v, hv, not_lt.mp hlt⟩

end Intents

end Datax
