import Mathlib.Data.List.AList
import Datax.Hlc.Timestamp
import Datax.Shared.Runs

/-!
# Descriptor leases

A gateway caches the descriptors its sessions plan with, and holds a lease record for each in the
shared store: the version it may be using, until when, and until when statements of an older version
may still commit. A schema change commits a new version and polls the records until each has expired
or adopted the version with nothing outstanding.

A section under a gateway's mutex is one step, and so is each attempt of a transaction; that of
`acquireLease` is two, the second enabled only while what it read still stands.
-/

namespace Datax.Catalog

abbrev TableID := Nat

abbrev Gateway := Nat

abbrev SessionID := Nat

abbrev TxnID := Nat

structure CacheKey where
  dbID : Nat
  name : String
deriving DecidableEq

structure TableDescriptor where
  id : TableID
  version : Nat
deriving DecidableEq

structure DescLease where
  version : Nat
  expiration : Nat
  priorExpiration : Nat
deriving DecidableEq

structure LeaseInfo where
  expiration : Nat
  priorExpiration : Nat
  handedOutExpiration : Nat

structure CachedDesc where
  desc : TableDescriptor
  expiration : Nat
  priorExpiration : Nat
  handedOut : Bool := false
  handedOutExpiration : Nat

/-- What the entry acquired at `version` inherits from the one it replaces: the expiration
a drain must still wait out, and the latest one handed out at the version being kept. -/
def carryOver (old : Option CachedDesc) (version nowWall : Nat) : Nat × Nat :=
  match old with
  | none => (0, 0)
  | some old =>
    let handedOut :=
      if old.handedOut = true ∧ old.handedOutExpiration < old.expiration then old.expiration
      else old.handedOutExpiration
    let prior :=
      if old.desc.version < version then max old.priorExpiration handedOut else old.priorExpiration
    let kept := if old.desc.version < version then 0 else handedOut
    (if prior ≤ nowWall then 0 else prior, if kept ≤ nowWall then 0 else kept)

/-- Who asked for a lease: a statement that missed the cache, the renewal loop, or the
end of a schema change. -/
inductive Purpose
  | lookup (txn : TxnID)
  | renew
  | finishDDL

/-- A lease being acquired for the table of a cache key. -/
structure Pending where
  key : CacheKey
  purpose : Purpose
  desc : TableDescriptor
  info : LeaseInfo

namespace Pending

def lease (p : Pending) : DescLease := ⟨p.desc.version, p.info.expiration, p.info.priorExpiration⟩

def entry (p : Pending) : CachedDesc :=
  { desc := p.desc, expiration := p.info.expiration, priorExpiration := p.info.priorExpiration,
    handedOutExpiration := p.info.handedOutExpiration }

end Pending

/-- How far a session has come: its lease read, or written as well; its table not found;
its cache entry dropped and the lease record still to be deleted. -/
inductive Acquisition
  | leasing (p : Pending) (written : Bool)
  | absent (key : CacheKey) (purpose : Purpose)
  | releasing (id : TableID)

abbrev Cache := AList fun _ : CacheKey => CachedDesc

def Cache.invalidate (cache : Cache) (bare : String) : Cache :=
  ⟨cache.entries.filter fun x => x.1.name != bare, cache.nodupKeys.sublist List.filter_sublist⟩

structure GatewayState where
  clock : Timestamp
  ttl : Nat
  ttl_pos : 0 < ttl
  cache : Cache := ∅
  acquiring : AList (fun _ : SessionID => Acquisition) := ∅

def GatewayState.now (gs : GatewayState) : Nat := gs.clock.wallTime

structure TxnState where
  deadline : Timestamp := ⊥
  committed : Option Timestamp := none

namespace TxnState

def updateDeadline (t : TxnState) (ts : Timestamp) : TxnState :=
  if ts.isEmpty then t
  else if t.deadline.isEmpty || ts.less t.deadline then { t with deadline := ts }
  else t

def pinDeadline (t : TxnState) (expiration : Nat) : TxnState :=
  if expiration = 0 then t else t.updateDeadline ⟨expiration, 0⟩

/-- The source refuses a commit at the deadline itself as well. -/
def mayCommit (t : TxnState) (ts : Timestamp) : Bool := t.deadline.isEmpty || ts.lessEq t.deadline

end TxnState

structure Use where
  txn : TxnID
  gateway : Gateway
  desc : TableDescriptor
  expiration : Nat

/-- A drain polls the lease records, looks at those it has read, and returns. -/
inductive Phase
  | polling
  | scanned (rows : List (Gateway × DescLease))
  | returned (t : Timestamp)

structure Drain where
  gateway : Gateway
  desc : TableDescriptor
  phase : Phase

structure State where
  names : CacheKey → Option TableID
  versions : TableID → Nat
  leases : AList (fun _ : TableID × Gateway => DescLease) := ∅
  gateways : Gateway → GatewayState
  drains : List Drain := []
  txns : TxnID → TxnState := fun _ => {}
  uses : List Use := []

namespace State

def setGateway (s : State) (g : Gateway) (gs : GatewayState) : State :=
  { s with gateways := Function.update s.gateways g gs }

def setDrain (s : State) (i : Nat) (d : Drain) : State := { s with drains := s.drains.set i d }

def pin (s : State) (txn : TxnID) (expiration : Nat) : State :=
  { s with txns := Function.update s.txns txn ((s.txns txn).pinDeadline expiration) }

def take (s : State) (g : Gateway) (txn : TxnID) (key : CacheKey) (c : CachedDesc) : State :=
  let gs := s.gateways g
  { s with
    gateways := Function.update s.gateways g
      { gs with cache := gs.cache.insert key { c with handedOut := true } }
    txns := Function.update s.txns txn ((s.txns txn).pinDeadline c.expiration)
    uses := ⟨txn, g, c.desc, c.expiration⟩ :: s.uses }

def lookupIn (s : State) (g : Gateway) (txn : TxnID) (key : CacheKey) : Option State :=
  let gs := s.gateways g
  match gs.cache.lookup key with
  | none => none
  | some c =>
    if (c.expiration = 0 ∨ gs.now < c.expiration) ∧ (s.txns txn).committed = none then
      some (s.take g txn key c)
    else none

/-- The transaction of `acquireLease` reads the descriptor and asks the cache what to
carry over. A statement found its cache miss earlier, which says nothing about now. -/
def acquireLease (s : State) (g : Gateway) (session : SessionID) (key : CacheKey)
    (purpose : Purpose) : Option State :=
  let gs := s.gateways g
  match gs.acquiring.lookup session with
  | some _ => none
  | none =>
    match s.names key with
    | none => some
      (s.setGateway g { gs with acquiring := gs.acquiring.insert session (.absent key purpose) })
    | some id =>
      let carried := carryOver (gs.cache.lookup key) (s.versions id) gs.now
      let p : Pending :=
        ⟨key, purpose, ⟨id, s.versions id⟩, ⟨gs.now + gs.ttl, carried.1, carried.2⟩⟩
      some (s.setGateway g { gs with acquiring := gs.acquiring.insert session (.leasing p false) })

def commitLease (s : State) (g : Gateway) (session : SessionID) : Option State :=
  let gs := s.gateways g
  match gs.acquiring.lookup session with
  | some (.leasing p false) =>
    if s.names p.key = some p.desc.id ∧ s.versions p.desc.id = p.desc.version then
      some { s.setGateway g { gs with
        acquiring := gs.acquiring.insert session (.leasing p true) } with
        leases := s.leases.insert (p.desc.id, g) p.lease }
    else none
  | _ => none

def afterInstall (s : State) (g : Gateway) (p : Pending) : State :=
  match p.purpose with
  | .lookup txn => s.pin txn p.info.expiration
  | .renew => s
  | .finishDDL => { s with drains := s.drains ++ [⟨g, p.desc, .polling⟩] }

/-- The last section of `LookupIn` and `refreshOne`: the new entry goes into the cache,
or `refreshOne` drops the entry of a table that is gone. -/
def install (s : State) (g : Gateway) (session : SessionID) : Option State :=
  let gs := s.gateways g
  match gs.acquiring.lookup session with
  | some (.leasing p true) =>
    let gs := { gs with
      cache := gs.cache.insert p.key p.entry, acquiring := gs.acquiring.erase session }
    some ((s.setGateway g gs).afterInstall g p)
  | some (.absent key purpose) =>
    match purpose, gs.cache.lookup key with
    | .lookup _, _ => some (s.setGateway g { gs with acquiring := gs.acquiring.erase session })
    | _, none => some (s.setGateway g { gs with acquiring := gs.acquiring.erase session })
    | _, some old =>
      let gs := { gs with
        cache := gs.cache.erase key,
        acquiring := gs.acquiring.insert session (.releasing old.desc.id) }
      some (s.setGateway g gs)
  | _ => none

def release (s : State) (g : Gateway) (session : SessionID) : Option State :=
  let gs := s.gateways g
  match gs.acquiring.lookup session with
  | some (.releasing id) =>
    some { s.setGateway g { gs with acquiring := gs.acquiring.erase session } with
      leases := s.leases.erase (id, g) }
  | _ => none

def fail (s : State) (g : Gateway) (session : SessionID) : Option State :=
  let gs := s.gateways g
  match gs.acquiring.lookup session with
  | some _ => some (s.setGateway g { gs with acquiring := gs.acquiring.erase session })
  | none => none

/-- `Accessor.Update` rewrites a descriptor from the version it was given. The cache entry
of the gateway it runs on is dropped in a section of its own. -/
def update (s : State) (id : TableID) (base : Nat) : State :=
  { s with versions := Function.update s.versions id (base + 1) }

/-- `RenameTable` moves the name entry, unless the new name is taken, and updates. -/
def renameTable (s : State) (id : TableID) (base : Nat) (old new : CacheKey) : Option State :=
  match s.names new with
  | some _ => none
  | none =>
    let names := Function.update (Function.update s.names old none) new (some id)
    some ({ s with names := names }.update id base)

def rows (s : State) (id : TableID) : List (Gateway × DescLease) :=
  (s.leases.entries.filter fun x => x.1.1 == id).map fun x => (x.1.2, x.2)

def scan (s : State) (i : Nat) : Option State :=
  match s.drains[i]? with
  | none => none
  | some d =>
    match d.phase with
    | .polling => some (s.setDrain i { d with phase := .scanned (s.rows d.desc.id) })
    | _ => none

end State

def DescLease.adopted (l : DescLease) (version nowWall : Nat) : Bool :=
  decide (l.expiration ≤ nowWall) ||
    (decide (version ≤ l.version) && decide (l.priorExpiration ≤ nowWall))

namespace State

def check (s : State) (i : Nat) : Option State :=
  match s.drains[i]? with
  | none => none
  | some d =>
    match d.phase with
    | .scanned rows =>
      let gs := s.gateways d.gateway
      if rows.all (fun x => x.2.adopted d.desc.version gs.now) then
        some (s.setDrain i { d with phase := .returned gs.clock })
      else some (s.setDrain i { d with phase := .polling })
    | _ => none

end State

inductive Action
  | tick (g : Gateway) (now : Timestamp)
  | lookupIn (g : Gateway) (txn : TxnID) (key : CacheKey)
  | acquireLease (g : Gateway) (session : SessionID) (key : CacheKey) (purpose : Purpose)
  | commitLease (g : Gateway) (session : SessionID)
  | install (g : Gateway) (session : SessionID)
  | release (g : Gateway) (session : SessionID)
  | fail (g : Gateway) (session : SessionID)
  | invalidate (g : Gateway) (bare : String)
  | update (id : TableID) (base : Nat)
  | renameTable (id : TableID) (base : Nat) (old new : CacheKey)
  | scan (i : Nat)
  | check (i : Nat)
  | commit (txn : TxnID) (ts : Timestamp)

def step (s : State) : Action → Option State
  | .tick g now =>
    if (s.gateways g).clock ≤ now then some (s.setGateway g { s.gateways g with clock := now })
    else none
  | .lookupIn g txn key => s.lookupIn g txn key
  | .acquireLease g session key purpose => s.acquireLease g session key purpose
  | .commitLease g session => s.commitLease g session
  | .install g session => s.install g session
  | .release g session => s.release g session
  | .fail g session => s.fail g session
  | .invalidate g bare =>
    some (s.setGateway g { s.gateways g with cache := (s.gateways g).cache.invalidate bare })
  | .update id base => some (s.update id base)
  | .renameTable id base old new => s.renameTable id base old new
  | .scan i => s.scan i
  | .check i => s.check i
  | .commit txn ts =>
    if (s.txns txn).committed = none ∧ (s.txns txn).mayCommit ts = true then
      some { s with txns := Function.update s.txns txn { s.txns txn with committed := some ts } }
    else none

def start (names : CacheKey → Option TableID) (versions : TableID → Nat)
    (gateways : Gateway → Timestamp × { ttl : Nat // 0 < ttl }) : State :=
  { names := names, versions := versions,
    gateways := fun g =>
      { clock := (gateways g).1, ttl := (gateways g).2.val, ttl_pos := (gateways g).2.property } }

/-- No transaction that took a version below a drained one commits above the time at
which the drain returned. -/
def Drained (s : State) : Prop :=
  ∀ d ∈ s.drains, ∀ t, d.phase = .returned t → ∀ u ∈ s.uses, u.desc.id = d.desc.id →
    u.desc.version < d.desc.version →
      ∀ ts, (s.txns u.txn).committed = some ts → ts ≤ t

end Datax.Catalog
