import Datax.Kvserver.TsCache
import Datax.Shared.Runs

/-!
# Closed timestamps

A leader store and a follower store over one term. The leader promises timestamps by a command
in a range's log, by an update off the log, and by one promise for all the sleeping ranges the
follower has registered. Requests wake a range, and read the group promise and bump the
timestamp cache in sections of their own. A section under one mutex is one step; publications of
one round go on side by side.
-/

namespace Datax.ClosedTs

inductive Command where
  | noop
  | write (ts : Timestamp)
  | closed (ts : Timestamp)
deriving DecidableEq

/-- The leader's replica; `log` includes entries that are not in stable storage yet. -/
structure LeaderRange where
  log : List Command := []
  lastIndex : Nat := 0
  applied : Nat := 0
  cache : TsCache Timestamp := { floor := ⊥ }
  closedTS : Timestamp := ⊥
  sideClosedTS : Timestamp := ⊥
  closedTSLogged : Nat := 0
  quiescent : Bool := false
  sideRegistered : Bool := false

/-- The follower's replica; `follows` while it follows this leader at this term. -/
structure FollowerRange where
  applied : Nat := 0
  closedTS : Timestamp := ⊥
  sideClosedTS : Timestamp := ⊥
  follows : Bool := true

/-- Entries of a coalesced envelope: a wake, a promise for one range, and the group
promise, which the follower works off range by range. Whether the range was asleep
when it made its promise is not part of the message. -/
inductive Update where
  | wake (r : RangeID)
  | promise (r : RangeID) (index : Nat) (ts : Timestamp) (asleep : Bool)
  | group (ts : Timestamp)
  | member (r : RangeID) (ts : Timestamp)

inductive WakeStage where
  | note (registered : Bool)
  | load
  | bump (ts : Timestamp)

inductive Transport where
  | log | side | group
deriving DecidableEq

inductive Phase where
  -- a request that only wakes the range
  | calling
  -- a write
  | queued (w : WriteRequest)
  | latched (w : WriteRequest)
  | admitted (ts : Timestamp)
  -- a proposal
  | proposed (c : Command)
  | roused (c : Command)
  | appended (c : Command) (index : Nat)
  -- a publication
  | choosing (target : Timestamp)
  | draining (k : Transport) (target : Timestamp)
  | locked (k : Transport) (target : Timestamp)
  | bumped (k : Transport) (target : Timestamp)
  | drained (k : Transport) (target : Timestamp)
  | indexed (k : Transport) (target : Timestamp) (index : Nat)
  | flagged (k : Transport) (target : Timestamp) (index : Nat)
  | finished

structure Thread where
  range : RangeID
  spans : List LatchSpan := []
  wake : Option WakeStage := none
  phase : Phase

def Thread.exclusive (th : Thread) : Bool :=
  match th.phase with
  | .latched _ | .admitted _ | .proposed (.write _) | .roused (.write _) | .appended (.write _) _ =>
    true
  | _ => false

def Thread.shared (th : Thread) : Bool :=
  match th.phase with
  | .locked _ _ | .bumped _ _ => true
  | _ => false

def Thread.proposing (th : Thread) : Bool :=
  match th.phase with
  | .proposed _ | .roused _ | .appended _ _ => true
  | _ => false

def Thread.finish (th : Thread) : Thread := { th with phase := .finished }

structure Round where
  target : Timestamp
  wakes : List RangeID
  dests : Bool := false
  registering : Bool := false

structure Stores where
  ranges : RangeID → LeaderRange := fun _ => {}
  groupTS : Timestamp := ⊥
  woken : List RangeID := []
  threads : List Thread := []
  round : Option Round := none
  queue : List Update := []
  net : List (List Update) := []
  handling : List (List Update) := []
  replicas : RangeID → FollowerRange := fun _ => {}
  reg : AList (fun _ : RangeID => Nat × Bool) := ∅

def LeaderRange.closedTimestamp (R : LeaderRange) (groupTS : Timestamp) : Timestamp :=
  let ct := R.closedTS.forward R.sideClosedTS
  if R.quiescent && R.sideRegistered then ct.forward groupTS else ct

def LeaderRange.closedTimestampNeedsLog (R : LeaderRange) : Bool := R.lastIndex != R.closedTSLogged

def LeaderRange.unquiesce (R : LeaderRange) : LeaderRange :=
  { R with quiescent := false, sideRegistered := false }

def LeaderRange.wakeStage (R : LeaderRange) : Option WakeStage :=
  if R.quiescent then some (.note R.sideRegistered) else none

def LeaderRange.bump (R : LeaderRange) (ts : Timestamp) : LeaderRange :=
  { R with cache := R.cache.bump [wholeRangeSpan] ts 0 }

def LeaderRange.promised (R : LeaderRange) (ts : Timestamp) : LeaderRange :=
  { R with sideClosedTS := R.sideClosedTS.forward ts }

def FollowerRange.closedTimestamp (F : FollowerRange) : Timestamp :=
  F.closedTS.forward F.sideClosedTS

def FollowerRange.acceptClosedTimestamp (F : FollowerRange) (index : Nat) (ts : Timestamp) :
    Option FollowerRange :=
  if F.follows ∧ index ≤ F.applied then some { F with sideClosedTS := F.sideClosedTS.forward ts }
  else none

def FollowerRange.apply (F : FollowerRange) (c : Command) : FollowerRange :=
  match c with
  | .closed ts => { F with applied := F.applied + 1, closedTS := F.closedTS.forward ts }
  | _ => { F with applied := F.applied + 1 }

def LeaderRange.apply (R : LeaderRange) (c : Command) : LeaderRange :=
  match c with
  | .closed ts => { R with applied := R.applied + 1, closedTS := R.closedTS.forward ts }
  | _ => { R with applied := R.applied + 1 }

namespace Stores

def setRange (s : Stores) (r : RangeID) (R : LeaderRange) : Stores :=
  { s with ranges := Function.update s.ranges r R }

def setReplica (s : Stores) (r : RangeID) (F : FollowerRange) : Stores :=
  { s with replicas := Function.update s.replicas r F }

def setThread (s : Stores) (i : Nat) (th : Thread) : Stores :=
  { s with threads := s.threads.set i th }

def spawn (s : Stores) (th : Thread) : Stores := { s with threads := s.threads ++ [th] }

def send (s : Stores) (u : Update) : Stores := { s with queue := s.queue ++ [u] }

def endRegistration (s : Stores) (k : Transport) : Stores :=
  if k = .group then { s with round := s.round.map fun R => { R with registering := false } } else s

def conflict (s : Stores) (th : Thread) : Bool :=
  s.threads.any fun o => o.range == th.range &&
    ((o.exclusive && o.spans.any fun sp => overlapsAny sp th.spans) || o.shared)

/-- An exclusive latch is held on the range. The batch's keys are in the range, so
it conflicts with the span of the whole range. -/
def writing (s : Stores) (r : RangeID) : Bool := s.threads.any fun o => o.range == r && o.exclusive

def proposing (s : Stores) (r : RangeID) : Bool :=
  s.threads.any fun o => o.range == r && o.proposing

/-- `unquiesce` is called by a thread that goes on in the given phase. -/
def call (s : Stores) (r : RangeID) (spans : List LatchSpan) (phase : Phase) : Stores :=
  (s.setRange r (s.ranges r).unquiesce).spawn
    { range := r, spans := spans, wake := (s.ranges r).wakeStage, phase := phase }

def wake (s : Stores) (i : Nat) (th : Thread) : WakeStage → Stores
  | .note registered =>
    let s' := s.setThread i { th with wake := some .load }
    if registered then { s' with woken := s'.woken.insert th.range } else s'
  | .load => s.setThread i { th with wake := some (.bump s.groupTS) }
  | .bump ts =>
    let s' := s.setThread i { th with wake := none }
    if ts.isEmpty then s' else s'.setRange th.range ((s.ranges th.range).bump ts)

/-- The next section of a publication: drain the latches, bump the cache, release,
then propose, or read the last index, note the promise, and queue it. -/
def publish (s : Stores) (i : Nat) (th : Thread) : Phase → Option Stores
  | .draining k target =>
    if s.writing th.range then none else some (s.setThread i { th with phase := .locked k target })
  | .locked k target =>
    some ((s.setRange th.range ((s.ranges th.range).bump target)).setThread i
      { th with phase := .bumped k target })
  | .bumped k target => some (s.setThread i { th with phase := .drained k target })
  | .drained .log target => some (s.setThread i { th with phase := .proposed (.closed target) })
  | .drained k target =>
    some (s.setThread i { th with phase := .indexed k target (s.ranges th.range).lastIndex })
  | .indexed .group target index =>
    let R := s.ranges th.range
    if R.quiescent then
      some ((s.setRange th.range { R.promised target with sideRegistered := true }).setThread i
        { th with phase := .flagged .group target index })
    else some ((s.setThread i th.finish).endRegistration .group)
  | .indexed k target index =>
    some ((s.setRange th.range ((s.ranges th.range).promised target)).setThread i
      { th with phase := .flagged k target index })
  | .flagged k target index =>
    some (((s.setThread i th.finish).send
      (.promise th.range index target (k == .group))).endRegistration k)
  | _ => none

def leave (s : Stores) (i : Nat) (th : Thread) : Phase → Option Stores
  | .draining k _ => some ((s.setThread i th.finish).endRegistration k)
  | .calling | .queued _ | .choosing _ | .roused _ => some (s.setThread i th.finish)
  | _ => none

def visit (s : Stores) (R : Round) (r : RangeID) : Stores :=
  if (s.ranges r).quiescent then
    if (s.ranges r).sideRegistered then { s with round := some { R with dests := true } }
    else { s.spawn { range := r, phase := .draining .group R.target } with
      round := some { R with dests := true, registering := true } }
  else s.spawn { range := r, phase := .choosing R.target }

/-- One entry of an envelope at the follower, and what it leaves to be worked off. -/
def receive (s : Stores) : Update → Stores × List Update
  | .wake r => ({ s with reg := s.reg.erase r }, [])
  | .promise r index ts asleep =>
    match (s.replicas r).acceptClosedTimestamp index ts with
    | none => (s, [])
    | some F =>
      let s' := s.setReplica r F
      (if 0 < index then { s' with reg := s'.reg.insert r (index, asleep) } else s', [])
  | .group ts => (s, s.reg.keys.map fun r => .member r ts)
  | .member r ts =>
    match s.reg.lookup r with
    | none => (s, [])
    | some (index, _) =>
      match (s.replicas r).acceptClosedTimestamp index ts with
      | none => ({ s with reg := s.reg.erase r }, [])
      | some F => (s.setReplica r F, [])

end Stores

inductive Action where
  | call (r : RangeID)
  | arrive (r : RangeID) (w : WriteRequest)
  | wake (i : Nat)
  | latch (i : Nat)
  | allow (i : Nat)
  | propose (i : Nat)
  | rouse (i : Nat)
  | append (i : Nat)
  | finish (i : Nat)
  | abandon (i : Nat)
  | leave (i : Nat)
  | read (r : RangeID) (spans : List LatchSpan) (ts : Timestamp) (txnID : UUID)
  | noop (r : RangeID)
  | persist (r : RangeID)
  | applyLeader (r : RangeID)
  | quiesce (r : RangeID)
  | startRound (target : Timestamp)
  | queueWake
  | visit (r : RangeID)
  | choose (i : Nat)
  | publish (i : Nat)
  | endRound
  | flush
  | lose (k : Nat)
  | deliver (k : Nat)
  | handle (k : Nat)
  | applyFollower (r : RangeID)
  | follow (r : RangeID) (follows : Bool)

def threadStep (s : Stores) (i : Nat) (th : Thread) : Action → Option Stores
  | .latch _ =>
    match th.phase with
    | .queued w =>
      if s.conflict th then none else some (s.setThread i { th with phase := .latched w })
    | _ => none
  | .allow _ =>
    match th.phase with
    | .latched w =>
      match checkTsCache th.range (s.ranges th.range).cache w with
      | .ok ts => some (s.setThread i { th with phase := .admitted ts })
      | .error _ => some (s.setThread i th.finish)
    | _ => none
  | .propose _ =>
    match th.phase with
    | .admitted ts => some (s.setThread i { th with phase := .proposed (.write ts) })
    | _ => none
  | .rouse _ =>
    match th.phase with
    | .proposed c =>
      let R := s.ranges th.range
      some ((s.setRange th.range R.unquiesce).setThread i
        { th with wake := R.wakeStage, phase := .roused c })
    | _ => none
  | .append _ =>
    match th.phase with
    | .roused c =>
      let R := s.ranges th.range
      some ((s.setRange th.range { R with log := R.log ++ [c] }).setThread i
        { th with phase := .appended c R.log.length })
    | _ => none
  | .finish _ =>
    match th.phase with
    | .appended (.closed _) index =>
      let R := s.ranges th.range
      if index < R.applied then
        some ((s.setRange th.range { R with closedTSLogged := R.lastIndex }).setThread i th.finish)
      else none
    | .appended _ index =>
      if index < (s.ranges th.range).applied then some (s.setThread i th.finish) else none
    | _ => none
  | .abandon _ =>
    match th.phase with
    | .appended _ _ => some (s.setThread i th.finish)
    | _ => none
  | .leave _ => s.leave i th th.phase
  | .choose _ =>
    match th.phase with
    | .choosing target =>
      let R := s.ranges th.range
      if R.closedTimestamp s.groupTS < target then
        let k := if R.closedTimestampNeedsLog then Transport.log else .side
        some (s.setThread i { th with phase := .draining k target })
      else some (s.setThread i th.finish)
    | _ => none
  | .publish _ => s.publish i th th.phase
  | _ => none

def onThread (s : Stores) (i : Nat) (a : Action) : Option Stores :=
  match s.threads[i]? with
  | none => none
  | some th => if th.wake.isNone then threadStep s i th a else none

def step (s : Stores) : Action → Option Stores
  | .call r => some (s.call r [] .calling)
  | .arrive r w => some (s.call r w.spans (.queued w))
  | .wake i =>
    match s.threads[i]? with
    | none => none
    | some th => th.wake.map (s.wake i th)
  | .latch i => onThread s i (.latch i)
  | .allow i => onThread s i (.allow i)
  | .propose i => onThread s i (.propose i)
  | .rouse i => onThread s i (.rouse i)
  | .append i => onThread s i (.append i)
  | .finish i => onThread s i (.finish i)
  | .abandon i => onThread s i (.abandon i)
  | .leave i => onThread s i (.leave i)
  | .choose i => onThread s i (.choose i)
  | .publish i => onThread s i (.publish i)
  | .read r spans ts txnID =>
    let R := s.ranges r
    some (s.setRange r { R with cache := R.cache.bump spans ts txnID })
  | .noop r =>
    let R := s.ranges r
    some (s.setRange r { R with log := R.log ++ [.noop] })
  | .persist r =>
    let R := s.ranges r
    if R.lastIndex < R.log.length then some (s.setRange r { R with lastIndex := R.lastIndex + 1 })
    else none
  | .applyLeader r =>
    let R := s.ranges r
    if R.applied < R.lastIndex then (R.log[R.applied]?).map fun c => s.setRange r (R.apply c)
    else none
  | .quiesce r =>
    let R := s.ranges r
    if R.lastIndex = R.log.length ∧ R.applied = R.lastIndex ∧ s.proposing r = false then
      some (s.setRange r { R with quiescent := true })
    else none
  | .startRound target =>
    if s.round.isNone ∧ target ≠ ⊥ then
      some { s with
        groupTS := s.groupTS.forward target
        woken := []
        round := some { target := target, wakes := s.woken } }
    else none
  | .queueWake =>
    match s.round with
    | some { target, wakes := r :: wakes, dests, registering } =>
      some { s.send (.wake r) with round := some { target, wakes, dests, registering } }
    | _ => none
  | .visit r =>
    match s.round with
    | some R => if R.wakes.isEmpty ∧ R.registering = false then some (s.visit R r) else none
    | none => none
  | .endRound =>
    match s.round with
    | some R =>
      if R.wakes.isEmpty ∧ R.registering = false then
        let s' := { s with round := none }
        some (if R.dests then s'.send (.group R.target) else s')
      else none
    | none => none
  | .flush => some { s with queue := [], net := s.net ++ [s.queue] }
  | .lose k => if k < s.net.length then some { s with net := s.net.eraseIdx k } else none
  | .deliver k =>
    (s.net[k]?).map fun env => { s with net := s.net.eraseIdx k, handling := s.handling ++ [env] }
  | .handle k =>
    match s.handling[k]? with
    | none => none
    | some [] => some { s with handling := s.handling.eraseIdx k }
    | some (u :: rest) =>
      let out := s.receive u
      some { out.1 with handling := s.handling.set k (out.2 ++ rest) }
  | .applyFollower r =>
    let F := s.replicas r
    (((s.ranges r).log)[F.applied]?).map fun c => s.setReplica r (F.apply c)
  | .follow r follows => some (s.setReplica r { s.replicas r with follows := follows })

/-- The follower's next update is a group promise for a range it holds registered by
an awake range. -/
def Update.astray (s : Stores) : Update → Bool
  | .member r _ => (s.reg.lookup r).any fun e => !e.2
  | _ => false

def Update.isWake : Update → Bool
  | .wake _ => true
  | _ => false

def Phase.isAdmitted : Phase → Bool
  | .admitted _ => true
  | _ => false

/-- The races the source leaves open do not happen. -/
def orderly (s : Stores) : Action → Bool
  | .allow i => (s.threads[i]?).all fun th => !(s.ranges th.range).quiescent &&
      s.threads.all fun o => o.range != th.range || o.wake.isNone
  | .quiesce r => s.threads.all fun th => th.range != r || !th.phase.isAdmitted
  | .abandon i => (s.threads[i]?).all fun th =>
      match th.phase with
      | .appended (.write _) index => decide (index < (s.ranges th.range).lastIndex)
      | _ => true
  | .publish i => (s.threads[i]?).all fun th =>
      match th.phase with
      | .indexed .group _ index => decide ((s.ranges th.range).log.length ≤ index)
      | _ => true
  | .lose k => (s.net[k]?).all fun env => env.all fun u => !u.isWake
  | .deliver k => k == 0
  | .handle k => k == 0 && (s.handling[k]?).all fun env => env.head?.all fun u => !u.astray s
  | _ => true

end Datax.ClosedTs
