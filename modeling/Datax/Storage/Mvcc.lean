import Datax.Hlc.Timestamp
import Datax.Keys.Key
import Datax.Shared.Chain

/-!
# MVCC histories and point reads

For one user key the engine holds an optional intent record and the versions, newest first; `none`
is a tombstone. The engine keys are those of `Storage/MvccKey`: the iterator sees the record
followed by the versions in this order, and a seek to a version is a search for the first one at or
below the given timestamp.
-/

namespace Datax

open Timestamp

open Shared (Chain)

abbrev Bytes := List Byte

inductive TxnStatus where
  | pending | committed | aborted | staging
deriving DecidableEq

/-- The part of a transaction that is stored in its intents; `key` is the anchor
of its record. -/
structure TxnMeta where
  id : UUID
  key : Key
  epoch : Int
  writeTimestamp : Timestamp
  minTimestamp : Timestamp
  priority : Int
  sequence : Int
  historyFloor : Int
deriving DecidableEq

structure IntentValue where
  sequence : Int
  value : Option Bytes
deriving DecidableEq

structure MVCCMetadata where
  txn : TxnMeta
  timestamp : Timestamp
  history : List IntentValue
deriving DecidableEq

/-- Everything the engine stores for one user key. -/
structure KeyHistory where
  intent : Option MVCCMetadata
  versions : Chain Timestamp (Option Bytes)
deriving DecidableEq

def KeyHistory.empty : KeyHistory := ⟨none, Chain.empty⟩

structure Intent where
  key : Key
  txn : TxnMeta
deriving DecidableEq

inductive StorageError where
  | writeIntent (intents : List Intent)
  | writeTooOld (timestamp actualTimestamp : Timestamp)
  | uncertainty (readTimestamp existingTimestamp : Timestamp)
  -- "intent on %s has no provisional value at %s", with the version found there instead
  | noProvisionalValue (key : Key) (timestamp : Timestamp) (found : Option Timestamp)
  -- "cannot resolve intent with PENDING status"
  | resolvePending
deriving DecidableEq

structure MVCCGetOptions where
  txn : Option TxnMeta := none
  uncertaintyLimit : Timestamp := ⊥
  targetBytes : Nat := 0
  inconsistent : Bool := false

def intentAboveRead (intentTS ts uncertaintyLimit : Timestamp) : Bool :=
  let limit := if ts.less uncertaintyLimit then uncertaintyLimit else ts
  limit.less intentTS

inductive IntentView where
  | readAt (ts : Timestamp)
  | skipAt (ts : Timestamp)
  | blocked (intent : Intent)

/-- What a read does about the intent on its key; the `switch` that point reads
and scans share. -/
def viewIntent (key : Key) (intent : MVCCMetadata) (ts : Timestamp) (opts : MVCCGetOptions) :
    IntentView :=
  match opts.txn with
  | some txn =>
    if intent.txn.id = txn.id then
      if intent.txn.epoch = txn.epoch then .readAt intent.timestamp else .skipAt intent.timestamp
    else foreign
  | none => foreign
where
  foreign : IntentView :=
    if opts.inconsistent then .skipAt intent.timestamp
    else if intentAboveRead intent.timestamp ts opts.uncertaintyLimit then .skipAt intent.timestamp
    else .blocked ⟨key, intent.txn⟩

/-- Appending an empty value to the nil slice leaves the nil slice. -/
def copyBytes (data : Bytes) : Option Bytes := if data = [] then none else some data

def skipped (skipAt vts : Timestamp) : Bool := !skipAt.isEmpty && vts == skipAt

def visible (versions : Chain Timestamp (Option Bytes)) (ts skipAt : Timestamp) :
    Option (Timestamp × Option Bytes) :=
  versions.newest fun vts => vts.lessEq ts && !skipped skipAt vts

def uncertainVersion (versions : Chain Timestamp (Option Bytes)) (ts skipAt : Timestamp)
    (opts : MVCCGetOptions) : Option Timestamp :=
  if !opts.uncertaintyLimit.isEmpty && ts.less opts.uncertaintyLimit then
    (visible versions opts.uncertaintyLimit skipAt).bind fun v => if ts.less v.1 then some
      v.1 else none
  else none

def readBeneath (h : KeyHistory) (ts skipAt : Timestamp) (opts : MVCCGetOptions) :
    Except StorageError (Option Bytes) :=
  match uncertainVersion h.versions ts skipAt opts with
  | some vts => .error (.uncertainty ts vts)
  | none => .ok (((visible h.versions ts skipAt).bind Prod.snd).bind copyBytes)

def readProvisional (h : KeyHistory) (key : Key) (readAt : Timestamp) :
    Except StorageError (Option Bytes) :=
  match visible h.versions readAt ⊥ with
  | none => .error (.noProvisionalValue key readAt none)
  | some (vts, value) =>
    if vts = readAt then .ok (value.bind copyBytes)
    else .error (.noProvisionalValue key readAt (some vts))

def mvccGet (h : KeyHistory) (key : Key) (ts : Timestamp) (opts : MVCCGetOptions) :
    Except StorageError (Option Bytes) :=
  match h.intent with
  | some intent =>
    match viewIntent key intent ts opts with
    | .readAt vts => if vts.isEmpty then readBeneath h ts ⊥ opts else readProvisional h key vts
    | .skipAt vts => readBeneath h ts vts opts
    | .blocked i => .error (.writeIntent [i])
  | none =>
    -- no intent: a newest version at or below `ts` is the answer at once
    match h.versions.entries with
    | (vts, value) :: _ =>
      if vts.lessEq ts then .ok (value.bind copyBytes) else readBeneath h ts ⊥ opts
    | [] => readBeneath h ts ⊥ opts

theorem mvccGet_writeIntent {h : KeyHistory} {key : Key} {ts : Timestamp} {opts : MVCCGetOptions}
    {intents : List Intent} (hg : mvccGet h key ts opts = .error (.writeIntent intents)) :
    ∃ intent, h.intent = some intent ∧ intents = [⟨key, intent.txn⟩] ∧
      intentAboveRead intent.timestamp ts opts.uncertaintyLimit = false := by
  have hbeneath : ∀ skipAt, readBeneath h ts skipAt opts ≠ .error (.writeIntent intents) := by
    intro skipAt
    unfold readBeneath
    split <;> simp
  have hprov : ∀ vts, readProvisional h key vts ≠ .error (.writeIntent intents) := by
    intro vts
    unfold readProvisional
    split
    · simp
    · split <;> simp
  unfold mvccGet at hg
  split at hg
  · rename_i intent hintent
    split at hg
    · split at hg
      · exact absurd hg (hbeneath _)
      · exact absurd hg (hprov _)
    · exact absurd hg (hbeneath _)
    · rename_i i hview
      cases hg
      have hforeign : viewIntent.foreign key intent ts opts = .blocked i := by
        unfold viewIntent at hview
        split at hview
        · split at hview
          · split at hview <;> cases hview
          · exact hview
        · exact hview
      unfold viewIntent.foreign at hforeign
      split_ifs at hforeign with _ habove
      cases hforeign
      exact ⟨intent, hintent, rfl, by simpa using habove⟩
  · split at hg
    · split_ifs at hg
      exact absurd hg (hbeneath _)
    · exact absurd hg (hbeneath _)

section Reads
variable {h : KeyHistory} {k : Key} {ts : Timestamp} {opts : MVCCGetOptions}

theorem visible_bot (c : Chain Timestamp (Option Bytes)) (ts : Timestamp) :
    visible c ts ⊥ = c.upTo ts := by
  have hskip : ∀ vts, skipped ⊥ vts = false := by
    intro vts
    have : (⊥ : Timestamp).isEmpty = true := isEmpty_iff.mpr rfl
    simp [skipped, this]
  simp only [visible, Chain.upTo, hskip, Bool.not_false, Bool.and_true]
  congr 1
  funext vts
  rw [Bool.eq_iff_iff, lessEq_iff, decide_eq_true_iff]

theorem mvccGet_eq_readBeneath (hi : h.intent = none) :
    mvccGet h k ts opts = readBeneath h ts ⊥ opts := by
  simp only [mvccGet, hi]
  cases hv : h.versions.entries with
  | nil => rfl
  | cons v vs =>
    obtain ⟨vts, value⟩ := v
    simp only
    split
    · rename_i hle
      have hle : vts ≤ ts := hle
      have hupTo : ∀ u, vts ≤ u → h.versions.upTo u = some (vts, value) := by
        intro u hu
        exact Chain.upTo_eq_some_iff.mpr ⟨hu, [], vs, hv, by simp⟩
      have hunc : uncertainVersion h.versions ts ⊥ opts = none := by
        unfold uncertainVersion
        split
        · rename_i hlim
          simp only [Bool.and_eq_true, less_iff] at hlim
          rw [visible_bot, hupTo _ (hle.trans hlim.2.le)]
          simp [hle]
        · rfl
      simp only [readBeneath, hunc, visible_bot, hupTo ts hle, Option.bind_some]
    · rfl

end Reads

/-- What a plain read of one key at `ts` finds. -/
def valueAt (c : Chain Timestamp (Option Bytes)) (ts : Timestamp) : Option Bytes :=
  (c.upTo ts).bind Prod.snd

end Datax
