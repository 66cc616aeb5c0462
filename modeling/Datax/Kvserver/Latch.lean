import Datax.Kvserver.TsCache

/-!
# Span latches

Overlapping requests of a range are serialized by latches, each held or waited for with all its
spans. The manager keeps every held latch, the point spans by key and the latches with a ranged
span. A latch stands for the pointer `Acquire` allocates: two are the same when their identities
are. A section of the manager's mutex is one step.
-/

namespace Datax

inductive LatchMode where
  | shared
  | exclusive
deriving DecidableEq

structure Latch where
  id : Nat
  spans : List LatchSpan
  mode : LatchMode
  ranged : Bool
deriving DecidableEq

def newLatch (id : Nat) (spans : List LatchSpan) (mode : LatchMode) : Latch :=
  { id := id, spans := spans, mode := mode, ranged := spans.any fun sp => sp.endKey.isSome }

def Latch.conflicts (l held : Latch) : Bool := l.mode == .exclusive || held.mode == .exclusive

structure LatchManager where
  held : List Latch := []
  points : AList fun _ : Key => List Latch := ∅
  ranged : List Latch := []

namespace LatchManager

/-- The index gets the latch under the key of a point span. -/
def insertPoint (l : Latch) (points : AList fun _ : Key => List Latch) (sp : LatchSpan) :
    AList fun _ : Key => List Latch :=
  match sp.endKey with
  | some _ => points
  | none => points.insert sp.startKey ((points.lookup sp.startKey).getD [] ++ [l])

def insert (m : LatchManager) (l : Latch) : LatchManager where
  held := m.held ++ [l]
  points := l.spans.foldl (insertPoint l) m.points
  ranged := if l.ranged then m.ranged ++ [l] else m.ranged

/-- The index loses the latch under the key of a point span, and the key with it
when nobody else holds it. -/
def removePoint (l : Latch) (points : AList fun _ : Key => List Latch) (sp : LatchSpan) :
    AList fun _ : Key => List Latch :=
  match sp.endKey with
  | some _ => points
  | none =>
    match ((points.lookup sp.startKey).getD []).filter fun h => h.id != l.id with
    | [] => points.erase sp.startKey
    | h :: hs => points.insert sp.startKey (h :: hs)

def remove (m : LatchManager) (l : Latch) : LatchManager where
  held := m.held.filter fun h => h.id != l.id
  points := l.spans.foldl (removePoint l) m.points
  ranged := m.ranged.filter fun h => h.id != l.id

/-- A ranged span is checked against every holder. A point span is checked against
the holders of its key and the ranged spans that cover it. -/
def findConflictOf (m : LatchManager) (l : Latch) (ls : LatchSpan) : Option Latch :=
  match ls.endKey with
  | some _ => m.held.find? fun held => l.conflicts held && held.spans.any fun hs => hs.overlaps ls
  | none =>
    (((m.points.lookup ls.startKey).getD []).find? fun held => l.conflicts held).or
      (m.ranged.find? fun held =>
        l.conflicts held && held.spans.any fun hs => hs.endKey.isSome && hs.overlaps ls)

def findConflict (m : LatchManager) (l : Latch) : Option Latch :=
  l.spans.findSome? (m.findConflictOf l)

end LatchManager

/-- The manager, the calls of `Acquire` that wait, the guards not yet released and the
identities handed out so far. -/
structure Latches where
  manager : LatchManager := {}
  waiting : List Latch := []
  guards : List Latch := []
  next : Nat := 0

namespace Latches

inductive Action where
  | acquire (spans : List LatchSpan) (mode : LatchMode)
  | scan (id : Nat)
  | cancel (id : Nat)
  | release (id : Nat)

def scan (s : Latches) (l : Latch) : Latches :=
  match s.manager.findConflict l with
  | none =>
    { s with
      manager := s.manager.insert l
      waiting := s.waiting.filter fun w => w.id != l.id
      guards := s.guards ++ [l] }
  | some _ => s

/-- A guard is released once; later calls change nothing. -/
def release (s : Latches) (l : Latch) : Latches :=
  { s with manager := s.manager.remove l, guards := s.guards.filter fun g => g.id != l.id }

def step (s : Latches) : Action → Latches
  | .acquire spans mode =>
    { s with waiting := s.waiting ++ [newLatch s.next spans mode], next := s.next + 1 }
  | .scan id =>
    match s.waiting.find? fun l => l.id == id with
    | some l => s.scan l
    | none => s
  | .cancel id => { s with waiting := s.waiting.filter fun l => l.id != id }
  | .release id =>
    match s.guards.find? fun l => l.id == id with
    | some l => s.release l
    | none => s

end Latches

end Datax
