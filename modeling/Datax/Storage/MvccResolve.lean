import Datax.Storage.MvccWrite

/-!
# What a resolved intent leaves

A write takes the transaction's old provisional version away and puts the new one at the write
timestamp, so beneath the intent lies the old history without the versions at the timestamps written
at. Resolution keeps that, and puts the provisional value at the commit timestamp or nowhere. A
locking read accepts a committed version at its own timestamp; a write there replaces it, and
resolution takes it away.
-/

namespace Datax

open List

open Shared (Chain)

inductive KeyOp where
  | put (ts : Timestamp) (value : Bytes)
  | delete (ts : Timestamp)
  | lock (readTS : Timestamp) (value : Option Bytes)
deriving DecidableEq

namespace KeyOp

def isLock : KeyOp → Bool
  | put _ _ => false
  | delete _ => false
  | lock _ _ => true

/-- A lock pins the value it is given. -/
def value : KeyOp → Option Bytes
  | put _ value => some value
  | delete _ => none
  | lock _ value => value

end KeyOp

structure TxnCall where
  txn : TxnMeta
  op : KeyOp

def evalCall (key : Key) (h : KeyHistory) (call : TxnCall) : Except StorageError KeyHistory :=
  match call.op with
  | .put ts value => mvccWrite h key ts (some value) (some call.txn)
  | .delete ts => mvccWrite h key ts none (some call.txn)
  | .lock readTS value => mvccWrite h key readTS.next value (some call.txn)

def evalCalls (key : Key) : List TxnCall → KeyHistory → Except StorageError KeyHistory
  | [], h => .ok h
  | call :: calls, h =>
    match evalCall key h call with
    | .error err => .error err
    | .ok h' => evalCalls key calls h'

namespace KeyHistory

def beneath (h : KeyHistory) : Chain Timestamp (Option Bytes) :=
  match h.intent with
  | none => h.versions
  | some i => h.versions.delete i.timestamp

def provisional (h : KeyHistory) : Option (Option Bytes) :=
  h.intent.bind fun i => h.versions.get i.timestamp

/-- The timestamp that a commit at `c` puts the value at; none given means as written. -/
def commitTime (h : KeyHistory) (c : Timestamp) : Timestamp :=
  match h.intent with
  | none => c
  | some i => if c.isEmpty then i.timestamp else c

structure Holds (h : KeyHistory) (txn : TxnMeta) (value : Option Bytes) : Prop where
  intent : ∃ history, h.intent = some ⟨txn, txn.writeTimestamp, history⟩
  versions : h.versions = h.beneath.put txn.writeTimestamp value

end KeyHistory

variable {txn : TxnMeta} {value : Option Bytes}

section Calls
variable {h h' h₁ : KeyHistory} {key : Key} {call : TxnCall} {calls : List TxnCall}

theorem beneath_of_put {history : List IntentValue}
    (hi : h'.intent = some ⟨txn, txn.writeTimestamp, history⟩)
    (hv : h'.versions = h.beneath.put txn.writeTimestamp value) :
    h'.Holds txn value ∧ h'.beneath = h.beneath.delete txn.writeTimestamp := by
  have hbeneath : h'.beneath = h.beneath.delete txn.writeTimestamp := by
    unfold KeyHistory.beneath
    rw [hi, hv]
    exact Chain.delete_put _ _ _
  refine ⟨⟨⟨history, hi⟩, ?_⟩, hbeneath⟩
  rw [hbeneath, Chain.put_delete]
  exact hv

theorem mvccWrite_beneath {ts : Timestamp} (hw : mvccWrite h key ts value (some txn) = .ok h') :
    h'.Holds txn value ∧ h'.beneath = h.beneath.delete txn.writeTimestamp := by
  unfold mvccWrite at hw
  cases hi : h.intent with
  | some i =>
    simp only [hi] at hw
    split at hw
    · cases hw
      apply beneath_of_put (h := h) rfl
      unfold KeyHistory.beneath
      rw [hi]
      rfl
    · cases hw
  | none =>
    have hbare : h.beneath = h.versions := by
      unfold KeyHistory.beneath
      rw [hi]
    have hlaid : ∀ h'', layIntent h txn value [] = h'' →
        h''.Holds txn value ∧ h''.beneath = h.beneath.delete txn.writeTimestamp := by
      rintro _ rfl
      apply beneath_of_put rfl
      rw [hbare]
      rfl
    simp only [hi] at hw
    cases hhead : h.versions.entries.head? with
    | none =>
      rw [hhead] at hw
      exact hlaid h' (Except.ok.inj hw)
    | some v =>
      rw [hhead] at hw
      dsimp only at hw
      split_ifs at hw
      exact hlaid h' (Except.ok.inj hw)

theorem evalCall_write (hc : evalCall key h call = .ok h') :
    ∃ ts, mvccWrite h key ts call.op.value (some call.txn) = .ok h' := by
  unfold evalCall at hc
  cases hop : call.op with
  | put ts value | delete ts | lock readTS value =>
    rw [hop] at hc
    exact ⟨_, hc⟩

theorem evalCall_beneath (hc : evalCall key h call = .ok h') :
    h'.Holds call.txn call.op.value ∧ h'.beneath = h.beneath.delete call.txn.writeTimestamp := by
  obtain ⟨ts, hw⟩ := evalCall_write hc
  exact mvccWrite_beneath hw

theorem intent_none_of_evalCalls (hrun : evalCalls key (call :: calls) h = .ok h₁)
    (hfirst : ∀ i, h.intent = some i → i.txn.id ≠ call.txn.id) : h.intent = none := by
  cases hi : h.intent with
  | none => rfl
  | some i =>
    unfold evalCalls at hrun
    split at hrun
    · cases hrun
    rename_i h' hc
    obtain ⟨ts, hw⟩ := evalCall_write hc
    exact absurd ((mvccWrite_txn_ok hw).2 i hi) (hfirst i hi)

theorem evalCalls_beneath (hrun : evalCalls key calls h = .ok h₁) :
    h₁.beneath = calls.foldl (fun c call => c.delete call.txn.writeTimestamp) h.beneath := by
  induction calls generalizing h with
  | nil =>
    cases hrun
    rfl
  | cons call calls ih =>
    unfold evalCalls at hrun
    split at hrun
    · cases hrun
    rename_i h' hc
    rw [ih hrun, (evalCall_beneath hc).2]
    rfl

theorem evalCalls_holds {last : TxnCall} (hlast : calls.getLast? = some last)
    (hrun : evalCalls key calls h = .ok h₁) : h₁.Holds last.txn last.op.value := by
  induction calls generalizing h with
  | nil => cases hlast
  | cons call calls ih =>
    unfold evalCalls at hrun
    split at hrun
    · cases hrun
    rename_i h' hc
    cases calls with
    | nil =>
      cases hrun
      cases hlast
      exact (evalCall_beneath hc).1
    | cons next calls => exact ih hlast hrun

theorem get_foldl_delete (c : Chain Timestamp (Option Bytes)) (t : Timestamp) :
    (calls.foldl (fun c call => c.delete call.txn.writeTimestamp) c).get t =
      if ∃ call ∈ calls, call.txn.writeTimestamp = t then none else c.get t := by
  induction calls generalizing c with
  | nil => simp
  | cons call calls ih =>
    rw [foldl_cons, ih, Chain.get_delete]
    by_cases hlater : ∃ call ∈ calls, call.txn.writeTimestamp = t
    · obtain ⟨x, hx, hxt⟩ := hlater
      rw [if_pos ⟨x, hx, hxt⟩, if_pos ⟨x, mem_cons_of_mem _ hx, hxt⟩]
    rw [if_neg hlater]
    by_cases hnow : t = call.txn.writeTimestamp
    · rw [if_pos hnow, if_pos ⟨call, mem_cons_self, hnow.symm⟩]
    rw [if_neg hnow, if_neg]
    rintro ⟨x, hx, hxt⟩
    rcases mem_cons.mp hx with rfl | hx
    · exact hnow hxt.symm
    · exact hlater ⟨x, hx, hxt⟩

theorem foldl_delete_eq_self_iff (c : Chain Timestamp (Option Bytes)) :
    calls.foldl (fun c call => c.delete call.txn.writeTimestamp) c = c ↔
      ∀ call ∈ calls, c.get call.txn.writeTimestamp = none := by
  constructor
  · intro heq call hcall
    rw [← heq, get_foldl_delete, if_pos ⟨call, hcall, rfl⟩]
  intro hfree
  apply Chain.ext_get
  intro t
  rw [get_foldl_delete]
  split
  · rename_i hex
    obtain ⟨call, hcall, rfl⟩ := hex
    exact (hfree call hcall).symm
  · rfl

end Calls

section Resolve
variable {h : KeyHistory} {k : Key} {txn : TxnMeta} {value : Option Bytes}

section
variable (hh : h.Holds txn value)
include hh

theorem KeyHistory.Holds.get : h.versions.get txn.writeTimestamp = some value := by
  rw [hh.versions, Chain.get_put, if_pos rfl]

theorem KeyHistory.Holds.provisional : h.provisional = some value := by
  obtain ⟨history, hi⟩ := hh.intent
  unfold KeyHistory.provisional
  rw [hi]
  exact hh.get

theorem KeyHistory.Holds.aborted (c : Timestamp) :
    mvccResolveIntent h k txn.id .aborted c = .ok ⟨none, h.beneath⟩ := by
  obtain ⟨history, hi⟩ := hh.intent
  unfold mvccResolveIntent KeyHistory.beneath
  rw [hi]
  simp

theorem KeyHistory.Holds.committed (c : Timestamp) :
    mvccResolveIntent h k txn.id .committed c =
      .ok ⟨none, h.beneath.put (h.commitTime c) value⟩ := by
  obtain ⟨history, hi⟩ := hh.intent
  unfold mvccResolveIntent KeyHistory.commitTime
  simp only [hi]
  by_cases hempty : c.isEmpty = true
  · simp [hempty, ← hh.versions]
  by_cases heq : c = txn.writeTimestamp
  · subst heq
    simp [hempty, ← hh.versions]
  · have hb : h.beneath = h.versions.delete txn.writeTimestamp := by
      unfold KeyHistory.beneath
      rw [hi]
    simp [hempty, heq, hh.get, hb]

end

theorem mvccGet_bare (c : Chain Timestamp (Option Bytes)) (ts : Timestamp) :
    mvccGet ⟨none, c⟩ k ts {} = .ok ((valueAt c ts).bind copyBytes) := by
  rw [mvccGet_eq_readBeneath rfl]
  have hunc : uncertainVersion c ts ⊥ {} = none := by
    have hbot : (⊥ : Timestamp).isEmpty = true := Timestamp.isEmpty_iff.mpr rfl
    simp [uncertainVersion, hbot]
  simp only [readBeneath, hunc, visible_bot]
  rfl

section Added
variable {c : Chain Timestamp (Option Bytes)} {t : Timestamp}

theorem mem_put_iff {e : Timestamp × Option Bytes} :
    e ∈ (c.put t value).entries ↔ e = (t, value) ∨ e ∈ c.entries ∧ e.1 ≠ t :=
  Chain.mem_insertEntry_iff c.descending

theorem reads_put_iff (hfree : c.get t = none) :
    (∀ ts, (valueAt (c.put t value) ts).bind copyBytes = (valueAt c ts).bind copyBytes) ↔
      (valueAt c t).bind copyBytes = value.bind copyBytes := by
  have hne : ∀ e ∈ c.entries, e.1 ≠ t := by
    rintro ⟨u, v⟩ he rfl
    simp [Chain.get_eq_some_iff.mpr he] at hfree
  -- with no other version above it up to `ts`, the new version is what is visible
  have hnew : ∀ ts, t ≤ ts → (∀ e ∈ c.entries, t < e.1 → ts < e.1) →
      valueAt (c.put t value) ts = value := by
    intro ts hts hgap
    have hsome : (c.put t value).upTo ts = some (t, value) := by
      apply Chain.upTo_eq_some_iff_mem.mpr
      refine ⟨mem_put_iff.mpr (.inl rfl), hts, ?_⟩
      intro d hd hle
      rcases mem_put_iff.mp hd with rfl | ⟨hd, _⟩
      · exact le_rfl
      · by_contra hlt
        exact absurd (hgap d hd (not_le.mp hlt)) (not_lt.mpr hle)
    unfold valueAt
    rw [hsome]
    rfl
  constructor
  · intro hsame
    rw [← hsame t, hnew t le_rfl fun _ _ hlt => hlt]
  intro hval ts
  by_cases hts : t ≤ ts
  · by_cases hgap : ∀ e ∈ c.entries, t < e.1 → ts < e.1
    · have hold : c.upTo ts = c.upTo t := by
        rcases lt_or_eq_of_le hts with hlt | rfl
        · exact Chain.upTo_of_not_mem hlt hgap
        · rfl
      rw [hnew ts hts hgap, ← hval]
      unfold valueAt
      rw [hold]
    · -- a later version hides both
      push Not at hgap
      obtain ⟨e, he, hte, hets⟩ := hgap
      have hsame : (c.put t value).upTo ts = c.upTo ts := by
        apply Option.ext
        intro d
        rw [Chain.upTo_eq_some_iff_mem, Chain.upTo_eq_some_iff_mem]
        constructor
        · rintro ⟨hd, hle, hmax⟩
          rcases mem_put_iff.mp hd with rfl | ⟨hd, _⟩
          · exact absurd (hmax e (mem_put_iff.mpr (.inr ⟨he, hne e he⟩)) hets) (not_le.mpr hte)
          · exact ⟨hd, hle, fun x hx => hmax x (mem_put_iff.mpr (.inr ⟨hx, hne x hx⟩))⟩
        · rintro ⟨hd, hle, hmax⟩
          refine ⟨mem_put_iff.mpr (.inr ⟨hd, hne d hd⟩), hle, ?_⟩
          intro x hx hxts
          rcases mem_put_iff.mp hx with rfl | ⟨hx, _⟩
          · exact hte.le.trans (hmax e he hets)
          · exact hmax x hx hxts
      unfold valueAt
      rw [hsame]
  · have hsame : (c.put t value).upTo ts = c.upTo ts := by
      apply Chain.upTo_congr
      intro e hle
      rw [mem_put_iff]
      constructor
      · rintro (rfl | ⟨he, _⟩)
        · exact absurd hle hts
        · exact he
      · intro he
        exact .inr ⟨he, hne e he⟩
    unfold valueAt
    rw [hsame]

end Added

end Resolve

/-- The key after an abort and after a commit at `c` of the transaction `id`. -/
structure ResolvedExactly (h h₁ : KeyHistory) (key : Key) (id : UUID) (calls : List TxnCall)
    (c : Timestamp) :
    Prop where
  aborted : mvccResolveIntent h₁ key id .aborted c = .ok h
  committed : ∃ value, h₁.provisional = some value ∧ h.versions.get (h₁.commitTime c) = none ∧
    mvccResolveIntent h₁ key id .committed c =
      .ok { h with versions := h.versions.put (h₁.commitTime c) value }
  locked : (∀ call ∈ calls, call.op.isLock = true) →
    ∀ status, status = .aborted ∨ status = .committed →
    ∀ h₂, mvccResolveIntent h₁ key id status c = .ok h₂ →
      ∀ ts, mvccGet h₂ key ts {} = mvccGet h key ts {}

/-- The timestamp of a commit at `c` after the call; none given means as written. -/
def TxnCall.commitTime (call : TxnCall) (c : Timestamp) : Timestamp :=
  if c.isEmpty then call.txn.writeTimestamp else c

theorem KeyHistory.Holds.commitTime {h : KeyHistory} {call : TxnCall} (hh : h.Holds call.txn value)
    (c : Timestamp) :
    h.commitTime c = call.commitTime c := by
  obtain ⟨history, hi⟩ := hh.intent
  rw [KeyHistory.commitTime, hi]
  rfl

/-- An abort restores the key, a commit adds its own version alone and a transaction
that only locked is invisible, exactly when no call wrote at the timestamp of a
committed version, the commit timestamp is not one either, and what the last lock
pinned is what reads at the commit timestamp found before. -/
theorem resolvedExactly_iff {h h₁ : KeyHistory} {key : Key} {id : UUID} {calls : List TxnCall}
    {last : TxnCall} (hlast : calls.getLast? = some last) (hid : ∀ call ∈ calls, call.txn.id = id)
    (hfirst : ∀ i, h.intent = some i → i.txn.id ≠ id) (hrun : evalCalls key calls h = .ok h₁)
    (c : Timestamp) :
    ResolvedExactly h h₁ key id calls c ↔
      (∀ call ∈ calls, h.versions.get call.txn.writeTimestamp = none) ∧
      h.versions.get (last.commitTime c) = none ∧
      ((∀ call ∈ calls, call.op.isLock = true) →
        mvccGet h key (last.commitTime c) {} = .ok (last.op.value.bind copyBytes)) := by
  have hbare : h.intent = none := by
    cases calls with
    | nil => cases hlast
    | cons call calls =>
      apply intent_none_of_evalCalls hrun
      rw [hid call mem_cons_self]
      exact hfirst
  have hsame : (⟨none, h.versions⟩ : KeyHistory) = h := by
    rw [← hbare]
  have hholds := evalCalls_holds hlast hrun
  have htime := hholds.commitTime c
  have habort := hholds.aborted (k := key) c
  have hcommit := hholds.committed (k := key) c
  rw [hid last (mem_of_getLast? hlast)] at habort hcommit
  rw [htime] at hcommit
  have hbeneath := evalCalls_beneath hrun
  have hbase : h.beneath = h.versions := by
    unfold KeyHistory.beneath
    rw [hbare]
  rw [hbase] at hbeneath
  have hread : ∀ ts, mvccGet h key ts {} = .ok ((valueAt h.versions ts).bind copyBytes) := by
    intro ts
    rw [← mvccGet_bare (k := key), hsame]
  constructor
  · rintro ⟨haborted, ⟨value', hprov, hfree, hcommitted⟩, hlocked⟩
    rw [hholds.provisional, Option.some.injEq] at hprov
    subst hprov
    rw [htime] at hfree hcommitted
    refine ⟨?_, hfree, ?_⟩
    · rw [habort, Except.ok.injEq] at haborted
      apply (foldl_delete_eq_self_iff h.versions).mp
      rw [← hbeneath]
      exact congrArg KeyHistory.versions haborted
    · intro hall
      rw [hread, Except.ok.injEq]
      apply (reads_put_iff hfree).mp
      intro ts
      have hreads := hlocked hall .committed (.inr rfl) _ hcommitted ts
      rw [hread, hbare, mvccGet_bare] at hreads
      exact Except.ok.inj hreads
  · rintro ⟨hfrees, hfree, hlocked⟩
    rw [(foldl_delete_eq_self_iff h.versions).mpr hfrees] at hbeneath
    rw [hbeneath] at habort hcommit
    refine ⟨?_, ⟨_, hholds.provisional, by rw [htime]; exact hfree, ?_⟩, ?_⟩
    · rw [habort, hsame]
    · rw [hcommit, hbare, htime]
    rintro hall status (rfl | rfl) h₂ hres ts
    · rw [habort, hsame, Except.ok.injEq] at hres
      rw [hres]
    · rw [hcommit, Except.ok.injEq] at hres
      have hval := hlocked hall
      rw [hread, Except.ok.injEq] at hval
      rw [← hres, hread, mvccGet_bare, (reads_put_iff hfree).mpr hval ts]

section Examples

private def reader (writeTS : Timestamp) : TxnMeta :=
  { id := 1, key := [1], epoch := 0
    writeTimestamp := writeTS, minTimestamp := ⊥, priority := 0, sequence := 1
    historyFloor := 0 }

private def one : KeyHistory := ⟨none, Chain.empty.put ⟨10, 0⟩ (some [97])⟩

/-- A transaction locks a key at the timestamp of its committed version and aborts:
the version is gone. -/
theorem locked_version_lost :
    ∃ h₁, evalCalls [7] [⟨reader ⟨10, 0⟩, .lock ⟨10, 0⟩ (some [97])⟩] one = .ok h₁ ∧
      mvccResolveIntent h₁ [7] 1 .aborted ⊥ = .ok KeyHistory.empty ∧
    ¬ ResolvedExactly one h₁ [7] 1 [⟨reader ⟨10, 0⟩, .lock ⟨10, 0⟩ (some [97])⟩] ⟨10, 0⟩ := by
  refine ⟨⟨some ⟨reader ⟨10, 0⟩, ⟨10, 0⟩, []⟩, one.versions⟩, by decide, by decide, ?_⟩
  intro hexact
  have haborted := hexact.aborted
  revert haborted
  decide

theorem resolvedExactly_lockThenPut : ∃ h₁,
    evalCalls [7] [⟨reader ⟨11, 0⟩, .lock ⟨10, 0⟩ (some [97])⟩, ⟨reader ⟨12, 0⟩, .put ⟨12, 0⟩ [98]⟩]
      one = .ok h₁ ∧
    ResolvedExactly one h₁ [7] 1 [⟨reader ⟨11, 0⟩, .lock ⟨10, 0⟩ (some [97])⟩,
      ⟨reader ⟨12, 0⟩, .put ⟨12, 0⟩ [98]⟩] ⟨14, 0⟩ := by
  refine ⟨⟨some ⟨reader ⟨12, 0⟩, ⟨12, 0⟩, [⟨1, some [97]⟩]⟩,
    one.versions.put ⟨12, 0⟩ (some [98])⟩, by decide, ?_⟩
  refine (resolvedExactly_iff rfl (by decide) ?_ (by decide) _).mpr ⟨by decide, by decide, ?_⟩
  · intro i hi
    cases hi
  · intro hall
    revert hall
    decide

end Examples

end Datax
