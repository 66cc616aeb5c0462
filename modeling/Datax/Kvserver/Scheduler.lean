import Datax.Kvpb.RangeDescriptor
import Datax.Shared.Runs

/-!
# The raft scheduler

A pass of a raft worker takes a range off the queue, persists what raft has ready and hands the
committed entries to the apply workers, which drain a range one run at a time. A section of the
scheduler's mutex is one step, and so is every lookup of the replica between sections. The replicas
of one range identifier are numbered as they follow each other.
-/

namespace Datax.Scheduler

open Function

universe u
variable {ε : Type u}

abbrev SchedFlags := Bool × Bool

structure ApplyState (ε : Type u) where
  pending : List ε := []
  bytes : Int := 0
  queued : Bool := false
  running : Bool := false
  deferred : SchedFlags := ⊥

structure SchedState where
  flags : SchedFlags := ⊥
  queued : Bool := false
  running : Bool := false
  worker : Nat := 0

inductive Stage where
  | taken
  | looked (replica : Option Nat)
  | applying (replica : Nat)
  | failed (replica : Nat)
  | skipped (ok : Bool)
deriving DecidableEq

structure ApplyRun (ε : Type u) where
  ents : List ε
  stage : Stage

structure Pass where
  worker : Nat
  replica : Option (Option Nat)

structure Slot (ε : Type u) where
  apply : Option (ApplyState ε) := none
  sched : Option SchedState := none
  runs : List (ApplyRun ε) := []
  passes : List Pass := []
  -- the replica in the store's map, and how many there have been
  replica : Option Nat := none
  created : Nat := 0
  stopped : Nat → Bool := fun _ => false
  -- the entries given to `enqueueApply` or applied inline, and those given to `applyEntries`
  enqueued : Nat → List ε := fun _ => []
  handed : Nat → List ε := fun _ => []
  -- the flags raised for the replica that no pass has taken yet
  owed : SchedFlags := ⊥

structure State (ε : Type u) where
  slots : RangeID → Slot ε
  queue : List RangeID
  applyQueue : List RangeID
  stopping : Bool

/-- A slot after a step, and whether its range joins the queue and the apply queue. -/
structure Outcome (ε : Type u) where
  slot : Slot ε
  push : Bool := false
  pushApply : Bool := false

namespace Slot

def raise (slot : Slot ε) (f : SchedFlags) : Slot ε × Bool :=
  let st := slot.sched.getD {}
  let st := { st with flags := st.flags ⊔ f }
  if !st.queued && !st.running then ({ slot with sched := some { st with queued := true } }, true)
  else ({ slot with sched := some st }, false)

def drainApply (slot : Slot ε) (stopping : Bool) : Option Bool :=
  match slot.apply with
  | none => some true
  | some as =>
    if !as.running && as.pending.isEmpty then some true
    else if stopping then some false
    else none

/-- The critical section of `stopReplica` once nothing of the range runs, or with
`waived` when a pass of the same worker does the stopping. -/
def stopReplica (slot : Slot ε) (r : Nat) (waived : Bool) : Option (Slot ε) :=
  let passing := slot.sched.any SchedState.running
  let applying := slot.apply.any ApplyState.running
  if r < slot.created ∧
    ((passing = false ∧ applying = false) ∨ (waived = true ∧ passing = true)) then
    some { slot with
      apply := slot.apply.map fun as => if as.running then as
        else { as with pending := [], bytes := 0 }
      stopped := update slot.stopped r true }
  else none

end Slot

/-- The steps of one range other than taking it off a queue. -/
inductive Move (ε : Type u) where
  | enqueue (f : SchedFlags)
  | passLookup (i : Nat)
  | enqueueApply (i : Nat) (ents : List ε)
  | inlineApply (i : Nat) (ents : List ε)
  | passEnd (i : Nat)
  | applyLookup (i : Nat)
  | applyBegin (i : Nat)
  | applyFail (i : Nat)
  | applyFinish (i : Nat)
  -- `stopRaftGroup`, by a failed pass or at shutdown
  | halt (r : Nat)
  -- the store's map loses the replica, or gets a new one
  | remove
  | create

section Machine
variable (size : ε → Nat) (bound : Nat)

def entriesBytes (ents : List ε) : Int := (ents.map fun e => (size e : Int) + 32).sum

namespace Slot

/-- A range off the queue gets a pass, unless it is over its apply bound. -/
def passTake (slot : Slot ε) (worker : Nat) : Option (Slot ε) :=
  match slot.sched with
  | none => none
  | some st =>
    if slot.apply.any (fun as => decide ((bound : Int) < as.bytes)) then
      some { slot with
        apply := slot.apply.map fun as => { as with deferred := as.deferred ⊔ st.flags }
        sched := some { st with flags := ⊥, queued := false } }
    else
      some { slot with
        sched := some { st with flags := ⊥, queued := false, running := true, worker := worker }
        passes := slot.passes ++ [⟨worker, none⟩]
        owed := slot.owed \ st.flags }

def enqueueApply (slot : Slot ε) (r : Nat) (ents : List ε) : Outcome ε :=
  let as := slot.apply.getD {}
  let as := { as with pending := as.pending ++ ents, bytes := as.bytes + entriesBytes size ents }
  let idle := !as.queued && !as.running
  { slot := { slot with
      apply := some (if idle then { as with queued := true } else as)
      enqueued := update slot.enqueued r (slot.enqueued r ++ ents) }
    pushApply := idle }

def passEnd (slot : Slot ε) (i : Nat) (found : Option Nat) : Option (Outcome ε) :=
  match slot.sched with
  | none => none
  | some st =>
    if st.flags ≠ ⊥ ∧ found.isSome then
      some {
        slot := { slot with
          sched := some { st with running := false, queued := true }
          passes := slot.passes.eraseIdx i }
        push := true }
    else some { slot := { slot with sched := none, passes := slot.passes.eraseIdx i } }

def applyTake (slot : Slot ε) : Slot ε :=
  match slot.apply with
  | none => slot
  | some as =>
    { slot with
      apply := some { as with queued := false, running := true, pending := [] }
      runs := slot.runs ++ [⟨as.pending, .taken⟩] }

def applyBegin (slot : Slot ε) (i : Nat) (ents : List ε) : Option Nat → Slot ε
  | none => { slot with runs := slot.runs.set i ⟨ents, .skipped false⟩ }
  | some r =>
    if slot.stopped r then { slot with runs := slot.runs.set i ⟨ents, .skipped true⟩ }
    else
      { slot with
        runs := slot.runs.set i ⟨ents, .applying r⟩
        handed := update slot.handed r (slot.handed r ++ ents) }

def applyFinish (slot : Slot ε) (i : Nat) (ents : List ε) (ok failed : Bool) : Option (Outcome ε) :=
  match slot.apply with
  | none => none
  | some as =>
    let as := { as with running := false, bytes := as.bytes - entriesBytes size ents }
    let slot := { slot with runs := slot.runs.eraseIdx i }
    let drained := decide (as.deferred ≠ ⊥ ∧ as.bytes ≤ (bound : Int))
    let raised := if drained then slot.raise as.deferred else (slot, false)
    let as := if drained then { as with deferred := ⊥ } else as
    if !failed && ok && !as.pending.isEmpty then
      some {
        slot := { raised.1 with apply := some { as with queued := true } }
        push := raised.2
        pushApply := true }
    else some { slot := { raised.1 with apply := none }, push := raised.2 }

def move (stopping : Bool) (slot : Slot ε) : Move ε → Option (Outcome ε)
  | .enqueue f =>
    let raised := slot.raise f
    some { slot := { raised.1 with owed := slot.owed ⊔ f }, push := raised.2 }
  | .passLookup i =>
    match slot.passes[i]? with
    | some ⟨worker, none⟩ =>
      some { slot := { slot with passes := slot.passes.set i ⟨worker, some slot.replica⟩ } }
    | _ => none
  | .enqueueApply i ents =>
    match slot.passes[i]? with
    | some ⟨_, some (some r)⟩ => some (slot.enqueueApply size r ents)
    | _ => none
  | .inlineApply i ents =>
    match slot.passes[i]? with
    | some ⟨_, some (some r)⟩ =>
      if slot.drainApply stopping = some true then
        some { slot := { slot with
            enqueued := update slot.enqueued r (slot.enqueued r ++ ents)
            handed := update slot.handed r (slot.handed r ++ ents) } }
      else none
    | _ => none
  | .passEnd i =>
    match slot.passes[i]? with
    | some ⟨_, some found⟩ => slot.passEnd i found
    | _ => none
  | .applyLookup i =>
    match slot.runs[i]? with
    | some ⟨ents, .taken⟩ =>
      some { slot := { slot with runs := slot.runs.set i ⟨ents, .looked slot.replica⟩ } }
    | _ => none
  | .applyBegin i =>
    match slot.runs[i]? with
    | some ⟨ents, .looked found⟩ => some { slot := slot.applyBegin i ents found }
    | _ => none
  | .applyFail i =>
    match slot.runs[i]? with
    | some ⟨ents, .applying r⟩ =>
      some { slot := { slot with
          runs := slot.runs.set i ⟨ents, .failed r⟩
          stopped := update slot.stopped r true } }
    | _ => none
  | .applyFinish i =>
    match slot.runs[i]? with
    | some ⟨ents, .applying _⟩ => slot.applyFinish size bound i ents true false
    | some ⟨ents, .failed _⟩ => slot.applyFinish size bound i ents true true
    | some ⟨ents, .skipped ok⟩ => slot.applyFinish size bound i ents ok false
    | _ => none
  | .halt r => if r <
    slot.created then some { slot := { slot with stopped := update slot.stopped r true } } else none
  | .remove => some { slot := { slot with replica := none } }
  | .create =>
    if slot.replica = none then
      some { slot := { slot with
        replica := some slot.created, created := slot.created + 1, owed := ⊥ } }
    else none

end Slot

inductive Action (ε : Type u) where
  | move (id : RangeID) (m : Move ε)
  | passTake (worker : Nat)
  | applyTake
  -- `merging` is the range whose own pass does the stopping
  | stopReplica (id : RangeID) (r : Nat) (merging : Option RangeID)
  | stop

def State.put (s : State ε) (id : RangeID) (o : Outcome ε) : State ε :=
  { s with
    slots := update s.slots id o.slot
    queue := s.queue ++ if o.push then [id] else []
    applyQueue := s.applyQueue ++ if o.pushApply then [id] else [] }

def State.sameWorker (s : State ε) (id : RangeID) : Option RangeID → Bool
  | none => false
  | some lhs =>
    match (s.slots id).sched, (s.slots lhs).sched with
    | some st, some fst => fst.running && fst.worker == st.worker
    | _, _ => false

def step (s : State ε) : Action ε → Option (State ε)
  | .move id m => ((s.slots id).move size bound s.stopping m).map (s.put id)
  | .passTake worker =>
    if s.stopping then none
    else
      match s.queue with
      | [] => none
      | id :: queue =>
        ((s.slots id).passTake bound worker).map fun slot =>
          ({ s with queue := queue } : State ε).put id { slot := slot }
  | .applyTake =>
    if s.stopping then none
    else
      match s.applyQueue with
      | [] => none
      | id :: applyQueue =>
        some (({ s with applyQueue := applyQueue } : State ε).put id
          { slot := (s.slots id).applyTake })
  | .stopReplica id r merging =>
    ((s.slots id).stopReplica r (s.sameWorker id merging)).map fun slot => s.put id { slot := slot }
  | .stop => some { s with stopping := true }

end Machine

def State.start : State ε := ⟨fun _ => {}, [], [], false⟩

/-- The replica is in the store's map and neither stopped nor failed. -/
def Slot.Live (slot : Slot ε) (r : Nat) : Prop := slot.replica = some r ∧ slot.stopped r = false

/-- The entries that a run has taken and not yet given to the replica. -/
def ApplyRun.waiting (run : ApplyRun ε) : List ε :=
  match run.stage with
  | .taken => run.ents
  | .looked _ => run.ents
  | _ => []

def Slot.waiting (slot : Slot ε) : List ε := slot.runs.flatMap ApplyRun.waiting

def Slot.pending (slot : Slot ε) : List ε := (slot.apply.map ApplyState.pending).getD []

def Slot.flags (slot : Slot ε) : SchedFlags := (slot.sched.map SchedState.flags).getD ⊥

structure Sound (bound : Nat) (s : State ε) : Prop where
  /-- Entries are given to a replica once, in the order in which they were enqueued for it. -/
  inOrder : ∀ id r, (s.slots id).handed r <+: (s.slots id).enqueued r
  complete : ∀ id r, (s.slots id).Live r →
    (s.slots id).enqueued r = (s.slots id).handed r ++ (s.slots id).waiting ++ (s.slots id).pending
  exclusive : ∀ id, (s.slots id).runs.length ≤ 1
  scheduled : ∀ id r, (s.slots id).Live r → (s.slots id).pending ≠ [] →
    (s.applyQueue.count id = 1 ∧ (s.slots id).runs = []) ∨
      (s.applyQueue.count id = 0 ∧ (s.slots id).runs ≠ [])
  drained : ∀ id, (s.slots id).drainApply s.stopping = some true →
    (s.slots id).pending = [] ∧ (s.slots id).runs = []
  /-- A replica that is not over its bound has all the flags it is owed in the queue, or a
  pass of it is running and puts it there. -/
  reenqueued : ∀ id r, (s.slots id).Live r →
    (∀ as, (s.slots id).apply = some as → as.bytes ≤ bound) →
    (s.slots id).owed ≠ ⊥ →
    (s.slots id).owed ≤ (s.slots id).flags ∧ (s.queue.count id = 1 ∨ (s.slots id).passes ≠ [])

/-- Entries are applied inline only to a replica that is in the store and not stopped; a
replica is added only where the scheduler has no pass and no entries of the range, and
stopped before the next one is added. -/
def orderly (s : State ε) : Action ε → Bool
  | .move id (.inlineApply i _) =>
    match (s.slots id).passes[i]? with
    | some ⟨_, some (some r)⟩ => (s.slots id).replica == some r && !(s.slots id).stopped r
    | _ => true
  | .move id .create => (s.slots id).apply.isNone && (s.slots id).passes.isEmpty
  | .stopReplica id r _ => r + 1 == (s.slots id).created
  | _ => true

end Datax.Scheduler
