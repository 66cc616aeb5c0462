import Datax.Kvclient.Coordinator

/-!
# Parallel commits among other clients

The ranges evaluate what was sent, in any order and any number of times; a coordinator commits its
transaction; other clients that find its intents push it, run status recovery on a staged record,
and resolve what is finalized. The last fields of the state are its history, which no step reads.
-/

namespace Datax.ParallelCommit

structure Recovery where
  stagedTS : Timestamp
  inFlight : List Key
  rest : List Key
  committed : Bool
  abandoned : Bool
  concluded : Bool

structure Applied where
  key : Key
  sequence : Int
  timestamp : Timestamp

structure FinalBatch where
  sequence : Int
  keys : List Key

structure Cluster where
  id : UUID
  ranges : Ranges
  coord : Txn
  sent : List BatchRequest
  log : List Reply
  recoveries : List Recovery
  statuses : List TxnStatus
  resolutions : List TxnStatus
  applied : List Applied
  final : Option FinalBatch

/-- The part of a batch that one range evaluates. The record is created with the
anchor key, and writes are pushed above what the range has served to readers. -/
def subBatch (ba : BatchRequest) (group : List Key) (low : Option Timestamp) : BatchRequest :=
  let requests := ba.requests.filter fun q => group.contains q.key
  let pushed : Transaction → Transaction := fun t =>
    match low with
    | some low =>
      if requests.any fun q => q.lays.isSome then
        { t with writeTimestamp := t.writeTimestamp.forward low.next }
      else t
    | none => t
  { header :=
      { ba.header with
        txn := ba.header.txn.map pushed
        createTxnRecord := ba.header.createTxnRecord &&
          requests.any fun q => ba.header.txn.any fun t => t.key == q.key }
    requests := requests }

def appliedWrites (ba : BatchRequest) : List Applied :=
  match ba.header.meta? with
  | none => []
  | some txn =>
    ba.requests.filterMap fun q => q.lays.map fun k => ⟨k, txn.sequence, txn.writeTimestamp⟩

def serve (s : Cluster) (attempt : Nat) (group : List Key) (low : Option Timestamp)
    (gcThreshold : Timestamp) : Option Cluster :=
  match s.sent[attempt]? with
  | none => none
  | some ba =>
    let sub := subBatch ba group low
    let resolutions := s.resolutions ++ sub.requests.filterMap Request.resolves
    if sub.requests.isEmpty then none
    else
      match evalWriteBatch gcThreshold s.ranges sub with
      | .error err =>
        some { s with log := s.log ++ [⟨attempt, group, .error err⟩], resolutions := resolutions }
      | .ok (ranges, br) =>
        some { s with
          ranges := ranges
          log := s.log ++ [⟨attempt, group, .ok br⟩]
          statuses := s.statuses ++ ranges.record.toList.map Transaction.status
          resolutions := resolutions
          applied := s.applied ++ appliedWrites sub }

inductive ClientAction where
  -- the client found an intent of the transaction on `key`
  | push (key : Key) (pusherTxn : Option Transaction) (pushAbort : Bool) (now : Timestamp)
    (forceAbort : Bool)
  -- the intents on `keys` are resolved as a push reported
  | resolve (reply : Nat) (keys : List Key)
  -- the rest is one run of recoverStagedTxn
  | recover (reply : Nat)
  | probe (recovery : Nat)
  | probeLost (recovery : Nat)
  | conclude (recovery : Nat)

def ownIntent (id : UUID) (h : KeyHistory) : Option MVCCMetadata :=
  h.intent.filter fun i => i.txn.id = id

def pushReply (log : List Reply) (reply : Nat) : Option PushTxnResponse :=
  log[reply]?.bind fun r =>
    match r.answer with
    | .ok br =>
      match br.responses with
      | [.pushTxn resp] => some resp
      | _ => none
    | .error _ => none

/-- One turn of the loop over the in-flight keys: a missing intent ends it with
`committed = false`, trouble with the probe ends the recovery. -/
def afterProbe (id : UUID) (t : Recovery) (rest : List Key)
    (res : Except StorageError (Option Bytes)) : Recovery :=
  match res with
  | .ok _ => { t with rest := [], committed := false }
  | .error (.writeIntent intents) =>
    if intents.any fun i => i.txn.id == id then { t with rest := rest }
    else { t with rest := [], committed := false }
  | .error _ => { t with abandoned := true }

def clientStep (s : Cluster) : ClientAction → Option Cluster
  | .push key pusherTxn pushAbort now forceAbort =>
    (ownIntent s.id (s.ranges.data key)).map fun intent =>
      { s with
        sent := s.sent ++
          [⟨{}, [.pushTxn ⟨pusherTxn, intent.txn, pushAbort, now, forceAbort⟩]⟩] }
  | .resolve reply keys =>
    (pushReply s.log reply).bind fun push =>
      if push.status = .committed ∨ push.status = .aborted then
        some { s with
          sent := s.sent ++
            [⟨{}, keys.map fun k => .resolveIntent k s.id push.status push.commitTS⟩] }
      else none
  | .recover reply =>
    (pushReply s.log reply).bind fun push =>
      if push.status = .staging then
        some { s with recoveries := s.recoveries ++
          [⟨push.commitTS, push.inFlightKeys, push.inFlightKeys, true, false, false⟩] }
      else none
  | .probe n =>
    s.recoveries[n]?.bind fun t =>
      match t.rest with
      | k :: rest =>
        let probed := afterProbe s.id t rest (mvccGet (s.ranges.data k) k t.stagedTS {})
        if t.abandoned || t.concluded then none
        else some { s with recoveries := s.recoveries.set n probed }
      | [] => none
  | .probeLost n =>
    s.recoveries[n]?.map fun t =>
      { s with recoveries := s.recoveries.set n { t with abandoned := true } }
  | .conclude n =>
    s.recoveries[n]?.bind fun t =>
      if t.abandoned || t.concluded || !t.rest.isEmpty then none
      else
        some { s with
          recoveries := s.recoveries.set n { t with concluded := true }
          sent := s.sent ++ [⟨{}, [.recoverTxn ⟨s.coord.txn.key, s.id, t.committed⟩]⟩] }

inductive Action where
  | serve (attempt : Nat) (group : List Key) (low : Option Timestamp) (gcThreshold : Timestamp)
  | coord (a : CoordAction)
  | client (a : ClientAction)
  -- anything that leaves the transaction's intents alone
  | other (key : Key) (history : KeyHistory)

def finalBatchOf (t : Txn) (final : Option FinalBatch) : CoordAction → Option FinalBatch
  | .parallelCommit requests _ => some ⟨t.txn.sequence, requests.map Request.key⟩
  | _ => final

def step (s : Cluster) : Action → Option Cluster
  | .serve attempt group low gcThreshold => serve s attempt group low gcThreshold
  | .coord a =>
    (coordStep s.log s.sent.length s.coord a).map fun p =>
      { s with coord := p.1, sent := s.sent ++ p.2, final := finalBatchOf p.1 s.final a }
  | .client a => clientStep s a
  | .other key history =>
    if ownIntent s.id history = ownIntent s.id (s.ranges.data key) then
      some { s with ranges := s.ranges.setHistory key history }
    else none

def Cluster.start (txn : Transaction) (data : Key → KeyHistory) : Cluster where
  id := txn.id
  ranges := ⟨none, data⟩
  coord := ⟨txn, [], false, .idle⟩
  sent := []
  log := []
  recoveries := []
  statuses := []
  resolutions := []
  applied := []
  final := none

def freshTxn : Transaction where
  id := 1
  key := []
  epoch := 0
  writeTimestamp := ⟨5, 0⟩
  minTimestamp := ⟨5, 0⟩
  priority := 1
  sequence := 0
  historyFloor := 0
  status := .pending
  readTimestamp := ⟨5, 0⟩
  lastHeartbeat := ⟨5, 0⟩
  intentKeys := []
  waitingFor := 0
  waitingForKey := []
  inFlightKeys := []

def emptyData : Key → KeyHistory := fun _ => KeyHistory.empty

end Datax.ParallelCommit
