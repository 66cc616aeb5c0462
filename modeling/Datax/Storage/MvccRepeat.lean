import Datax.Shared.Runs
import Datax.Storage.MvccRewrite
import Datax.Storage.MvccRollback

/-!
# Repeatable reads

A read that succeeds has looked beneath an intent only if the intent lies above
everything the read can observe. Writes above that horizon, rollbacks and resolutions
change the history of a key above the horizon only, so the read can be repeated.
-/

namespace Datax

open Timestamp

open Shared (Chain)

/-- `MVCCPut` and `MVCCDelete` of a transaction, a one-phase write, `MVCCRollbackIntent`
and `MVCCResolveIntent`. -/
inductive KeyCall where
  | write (ts : Timestamp) (value : Option Bytes) (txn : TxnMeta)
  | writeCommitted (ts : Timestamp) (value : Option Bytes)
  | rollback (txnID : UUID) (seq : Int)
  | resolve (txnID : UUID) (status : TxnStatus) (commitTS : Timestamp)

namespace KeyCall

/-- A call that fails leaves the key as it was. -/
def apply (key : Key) (h : KeyHistory) : KeyCall → KeyHistory
  | .write ts value txn => (mvccWrite h key ts value (some txn)).toOption.getD h
  | .writeCommitted ts value => (mvccWriteCommitted h key ts value).toOption.getD h
  | .rollback txnID seq => mvccRollbackIntent h txnID seq
  | .resolve txnID status commitTS =>
    (mvccResolveIntent h key txnID status commitTS).toOption.getD h

def step (data : Key → KeyHistory) (c : Key × KeyCall) : Option (Key → KeyHistory) :=
  some (Function.update data c.1 (c.2.apply c.1 (data c.1)))

/-- The writes of others lie above the read timestamp and the uncertainty limit, and a
commit does not move an intent back. -/
def admissible (ts : Timestamp) (opts : MVCCGetOptions) (h : KeyHistory) : KeyCall → Bool
  | .write _ _ txn =>
    opts.txn.all (fun reader => txn.id != reader.id) && intentAboveRead txn.writeTimestamp ts
      opts.uncertaintyLimit
  | .writeCommitted w _ => intentAboveRead w ts opts.uncertaintyLimit
  | .rollback _ _ => true
  | .resolve txnID status commitTS =>
    status == .aborted || h.intent.all fun i =>
      i.txn.id != txnID || commitTS.isEmpty || i.timestamp.lessEq commitTS

end KeyCall

variable {t : Timestamp} {skipAt w : Timestamp} {value : Option Bytes}

section Horizon
variable {h h' base : KeyHistory} {key : Key} {ts : Timestamp} {opts : MVCCGetOptions}

def Above (ts : Timestamp) (opts : MVCCGetOptions) (t : Timestamp) : Prop :=
  ts < t ∧ opts.uncertaintyLimit < t

theorem intentAboveRead_iff :
    intentAboveRead t ts opts.uncertaintyLimit = true ↔ Above ts opts t := by
  unfold intentAboveRead Above
  split
  · rename_i hlt
    rw [less_iff] at hlt ⊢
    exact ⟨fun hu => ⟨hlt.trans hu, hu⟩, fun h => h.2⟩
  · rename_i hle
    exact ⟨fun ht => ⟨ht, (not_lt.mp hle).trans_lt ht⟩, fun h => h.1⟩

/-- The read finds in `h` what it finds in `base`: the two agree up to the horizon, and
an intent of `h` is another transaction's and above it. -/
structure Alike (ts : Timestamp) (opts : MVCCGetOptions) (base h : KeyHistory) : Prop where
  intent : ∀ i ∈ h.intent, Above ts opts i.timestamp ∧ ∀ reader ∈ opts.txn, i.txn.id ≠ reader.id
  versions : ∀ t, ¬ Above ts opts t → h.versions.get t = base.versions.get t

theorem visible_of_lt {c : Chain Timestamp (Option Bytes)} (hlt : t < skipAt) :
    visible c t skipAt = visible c t ⊥ := by
  have hcongr : ∀ vts, (vts.lessEq t && !skipped skipAt vts) =
      (vts.lessEq t && !skipped ⊥ vts) := by
    intro vts
    by_cases hle : vts ≤ t
    · have hne : (vts == skipAt) = false := beq_eq_false_iff_ne.mpr (hle.trans_lt hlt).ne
      have hbot : (⊥ : Timestamp).isEmpty = true := isEmpty_iff.mpr rfl
      simp [skipped, hne, hbot]
    · have : vts.lessEq t = false := Bool.eq_false_iff.mpr (mt lessEq_iff.mp hle)
      rw [this, Bool.false_and, Bool.false_and]
  unfold visible
  simp only [hcongr]

theorem readBeneath_of_above (habove : Above ts opts skipAt) :
    readBeneath h ts skipAt opts = readBeneath h ts ⊥ opts := by
  unfold readBeneath uncertainVersion
  rw [visible_of_lt habove.1, visible_of_lt habove.2]

theorem viewIntent_of_foreign {i : MVCCMetadata}
    (hforeign : ∀ reader ∈ opts.txn, i.txn.id ≠ reader.id) :
    viewIntent key i ts opts = viewIntent.foreign key i ts opts := by
  unfold viewIntent
  cases htxn : opts.txn with
  | none => rfl
  | some reader => exact if_neg (hforeign reader htxn)

namespace Alike

theorem upTo_eq (ha : Alike ts opts base h) (ht : ¬ Above ts opts t) :
    h.versions.upTo t = base.versions.upTo t := by
  apply Chain.upTo_congr
  rintro ⟨s, v⟩ hle
  have hs : ¬ Above ts opts s := fun hs => ht ⟨hs.1.trans_le hle, hs.2.trans_le hle⟩
  rw [← Chain.get_eq_some_iff, ← Chain.get_eq_some_iff, ha.versions s hs]

theorem mvccGet_eq (ha : Alike ts opts base h) :
    mvccGet h key ts opts = readBeneath base ts ⊥ opts := by
  have hsame : readBeneath h ts ⊥ opts = readBeneath base ts ⊥ opts := by
    unfold readBeneath uncertainVersion
    simp only [visible_bot]
    rw [ha.upTo_eq fun h => lt_irrefl _ h.1, ha.upTo_eq fun h => lt_irrefl _ h.2]
  cases hi : h.intent with
  | none => exact (mvccGet_eq_readBeneath hi).trans hsame
  | some i =>
    obtain ⟨habove, hforeign⟩ := ha.intent i hi
    have hview : viewIntent key i ts opts = .skipAt i.timestamp := by
      rw [viewIntent_of_foreign hforeign, viewIntent.foreign, intentAboveRead_iff.mpr habove,
        if_pos rfl, ite_self]
    unfold mvccGet
    rw [hi]
    simp only [hview]
    exact (readBeneath_of_above habove).trans hsame

/-- A successful read of another transaction's key: its intent is above the horizon. -/
theorem of_read {v : Option Bytes} (hopts : opts.inconsistent = false)
    (hforeign : ∀ i ∈ h.intent, ∀ reader ∈ opts.txn, i.txn.id ≠ reader.id)
    (hread : mvccGet h key ts opts = .ok v) :
    Alike ts opts h h where
  versions := fun _ _ => rfl
  intent := by
    intro i hi
    refine ⟨?_, hforeign i hi⟩
    rw [← intentAboveRead_iff]
    by_contra habove
    have hview : viewIntent key i ts opts = .blocked ⟨key, i.txn⟩ := by
      rw [viewIntent_of_foreign (hforeign i hi), viewIntent.foreign, hopts,
        if_neg Bool.false_ne_true, if_neg habove]
    rw [mvccGet, show h.intent = some i from hi] at hread
    simp only [hview] at hread
    cases hread

section
variable (ha : Alike ts opts base h)
include ha

theorem put (ht : Above ts opts t) (v : Option Bytes)
    (hi : ∀ i ∈ h'.intent, Above ts opts i.timestamp ∧ ∀ reader ∈ opts.txn, i.txn.id ≠ reader.id)
    (hv : h'.versions = h.versions.put t v) : Alike ts opts base h' where
  intent := hi
  versions := by
    intro u hu
    have hne : u ≠ t := by
      rintro rfl
      exact hu ht
    rw [hv, Chain.get_put, if_neg hne, ha.versions u hu]

theorem beneath : Alike ts opts base ⟨none, h.beneath⟩ where
  intent := by simp
  versions := by
    intro u hu
    rw [← ha.versions u hu]
    unfold KeyHistory.beneath
    cases hi : h.intent with
    | none => rfl
    | some i =>
      have hne : u ≠ i.timestamp := by
        rintro rfl
        exact hu (ha.intent i hi).1
      exact (Chain.get_delete _ _ _).trans (if_neg hne)

theorem write {txn : TxnMeta} (htxn : Above ts opts txn.writeTimestamp)
    (hforeign : ∀ reader ∈ opts.txn, txn.id ≠ reader.id)
    (hw : mvccWrite h key w value (some txn) = .ok h') :
    Alike ts opts base h' := by
  obtain rfl := mvccWrite_eq_rewrite hw
  refine ha.beneath.put htxn value ?_ rfl
  intro i hi
  cases hi
  exact ⟨htxn, hforeign⟩

theorem writeCommitted (hw : Above ts opts w)
    (hput : mvccWriteCommitted h key w value = .ok h') : Alike ts opts base h' := by
  have hh : h' = { h with versions := h.versions.put w value } := by
    unfold mvccWriteCommitted at hput
    split at hput
    · cases hput
    split at hput
    · split at hput <;> cases hput
      rfl
    · cases hput
      rfl
  rw [hh]
  exact ha.put hw value ha.intent rfl

theorem rollback (txnID : UUID) (seq : Int) :
    Alike ts opts base (mvccRollbackIntent h txnID seq) := by
  unfold mvccRollbackIntent
  split
  · exact ha
  rename_i i hi
  have hb : h.beneath = h.versions.delete i.timestamp := by rw [KeyHistory.beneath, hi]
  split
  · exact ha
  rw [← hb]
  split
  · exact ha.beneath
  refine ha.beneath.put (ha.intent i hi).1 _ ?_ rfl
  intro i' hi'
  cases hi'
  exact ha.intent i hi

theorem resolve {txnID : UUID} {status : TxnStatus} {commitTS : Timestamp}
    (hmove : status ≠ .aborted → ∀ i ∈ h.intent, i.txn.id = txnID → commitTS.isEmpty = false →
      i.timestamp ≤ commitTS)
    (hr : mvccResolveIntent h key txnID status commitTS = .ok h') : Alike ts opts base h' := by
  unfold mvccResolveIntent at hr
  split at hr
  · cases hr
  split at hr
  · cases hr
    exact ha
  rename_i i hi
  have hb : h.beneath = h.versions.delete i.timestamp := by rw [KeyHistory.beneath, hi]
  rw [← hb] at hr
  split at hr
  · cases hr
    exact ha
  rename_i hid
  split at hr
  · cases hr
    exact ha.beneath
  rename_i hstatus
  split at hr
  · cases hr
    exact { ha with intent := by simp }
  rename_i hother
  rw [Bool.or_eq_true, not_or, Bool.not_eq_true] at hother
  have hle := hmove hstatus i hi (not_not.mp hid) hother.1
  split at hr
  · cases hr
  cases hr
  refine ha.beneath.put ?_ _ (by simp) rfl
  exact ⟨(ha.intent i hi).1.1.trans_le hle, (ha.intent i hi).1.2.trans_le hle⟩

theorem apply {c : KeyCall} (hc : c.admissible ts opts h = true) :
    Alike ts opts base (c.apply key h) := by
  have hok : ∀ {x : Except StorageError KeyHistory}, (∀ h', x = .ok h' → Alike ts opts base h') →
      Alike ts opts base (x.toOption.getD h) := by
    intro x hx
    cases x with
    | error err => exact ha
    | ok h' => exact hx h' rfl
  cases c with
  | write w value txn =>
    rw [KeyCall.admissible, Bool.and_eq_true, intentAboveRead_iff, Option.all_eq_true] at hc
    exact hok fun h' hw => ha.write hc.2 (fun reader hr => bne_iff_ne.mp (hc.1 reader hr)) hw
  | writeCommitted w value =>
    exact hok fun h' hw => ha.writeCommitted (intentAboveRead_iff.mp hc) hw
  | rollback txnID seq => exact ha.rollback txnID seq
  | resolve txnID status commitTS =>
    refine hok fun h' hr => ha.resolve ?_ hr
    intro hstatus i hi hid hne
    rw [KeyCall.admissible, Bool.or_eq_true, beq_iff_eq, Option.all_eq_true] at hc
    have := hc.resolve_left hstatus i hi
    simpa [hid, hne] using this

end

end Alike

/-- Calls on the key that are admissible for a reader leave its answer as it was; calls on
other keys may be any. -/
theorem snapshot_read_repeats {data data' : Key → KeyHistory} {v : Option Bytes}
    {calls : List (Key × KeyCall)} (hopts : opts.inconsistent = false)
    (hforeign : ∀ i ∈ (data key).intent, ∀ reader ∈ opts.txn, i.txn.id ≠ reader.id)
    (hread : mvccGet (data key) key ts opts = .ok v) (hcalls : Runs.Guarded KeyCall.step
      (fun data c => c.1 = key → c.2.admissible ts opts (data key) = true) data calls)
    (hrun : Runs.run KeyCall.step data calls = some data') :
    mvccGet (data' key) key ts opts = .ok v := by
  have hstart : Alike ts opts (data key) (data key) := Alike.of_read hopts hforeign hread
  have hkeep : Alike ts opts (data key) (data' key) := by
    refine Runs.invariant_of_run (I := fun d => Alike ts opts (data key) (d key)) ?_
      hstart hcalls hrun
    rintro d ⟨k, c⟩ d' hd hc hs
    cases hs
    by_cases hk : k = key
    · subst hk
      rw [Function.update_self]
      exact hd.apply (hc rfl)
    · rw [Function.update_of_ne (Ne.symm hk)]
      exact hd
  exact hkeep.mvccGet_eq.trans (hstart.mvccGet_eq.symm.trans hread)

def written : Key → KeyHistory := fun _ => ⟨none, Chain.empty.put ⟨10, 0⟩ (some [1])⟩

def overwritten : List (Key × KeyCall) :=
  let writer : Timestamp → Int → TxnMeta := fun ts seq => ⟨2, [7], 0, ts, ⟨1, 0⟩, 1, seq, 0⟩
  [([7], .write ⟨20, 0⟩ (some [2]) (writer ⟨20, 0⟩ 1)),
    ([7], .write ⟨25, 0⟩ none (writer ⟨25, 0⟩ 2)), ([7], .rollback 2 1),
    ([7], .resolve 2 .committed ⟨30, 0⟩), ([7], .writeCommitted ⟨40, 0⟩ (some [3]))]

theorem snapshot_read_repeats_overwritten :
    ∃ data', Runs.run KeyCall.step written overwritten = some data' ∧
      mvccGet (data' [7]) [7] ⟨12, 0⟩ { uncertaintyLimit := ⟨15, 0⟩ } = .ok (some [1]) := by
  obtain ⟨data', hrun⟩ : ∃ data', Runs.run KeyCall.step written overwritten = some data' := ⟨_, rfl⟩
  exact ⟨data', hrun, snapshot_read_repeats rfl (by simp [written]) rfl (by decide +kernel) hrun⟩

end Horizon

end Datax
