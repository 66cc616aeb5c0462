import Mathlib.Data.List.AList
import Datax.Kvpb.RangeDescriptor
import Datax.Kvserver.TxnRecord

/-!
# The read timestamp cache

The leader's record of what has been read at which timestamps: a floor over the whole range, and two
generations of point and ranged reads above it. The cache only compares timestamps, so it is stated
for any type `T` of them.
-/

namespace Datax

structure LatchSpan where
  startKey : Key
  endKey : Option Key
deriving DecidableEq

def LatchSpan.overlaps (a b : LatchSpan) : Bool :=
  match a.endKey, b.endKey with
  | none, none => a.startKey == b.startKey
  | none, some stop => !decide (a.startKey < b.startKey) && decide (a.startKey < stop)
  | some stop, none => !decide (b.startKey < a.startKey) && decide (b.startKey < stop)
  | some stop, some stop' => decide (a.startKey < stop') && decide (b.startKey < stop)

def overlapsAny (s : LatchSpan) (spans : List LatchSpan) : Bool := spans.any s.overlaps

def wholeRangeSpan : LatchSpan := ⟨Key.minKey, some Key.maxKey⟩

structure TsCacheRead (T : Type) where
  ts : T
  txnID : UUID

structure TsCacheEntry (T : Type) extends TsCacheRead T where
  span : LatchSpan

structure TsCacheGen (T : Type) where
  points : AList fun _ : Key => TsCacheRead T := ∅
  ranged : List (TsCacheEntry T) := []
  n : Nat := 0

def tsCacheGenerationSize : Nat := 4096

section Cache
variable {T : Type} [LinearOrder T]

/-- The newest read of a key wins, and two readers at one timestamp leave it
unattributed. -/
def TsCacheGen.record (g : TsCacheGen T) (key : Key) (ts : T) (txnID : UUID) : TsCacheGen T :=
  match g.points.lookup key with
  | none => { g with points := g.points.insert key ⟨ts, txnID⟩, n := g.n + 1 }
  | some old =>
    if old.ts < ts then { g with points := g.points.insert key ⟨ts, txnID⟩ }
    else if old.ts = ts ∧ old.txnID ≠ txnID then { g with points := g.points.insert key ⟨ts, 0⟩ }
    else g

def TsCacheGen.hits (g : TsCacheGen T) (spans : List LatchSpan) : List (TsCacheRead T) :=
  (g.ranged.filter fun e => overlapsAny e.span spans).map TsCacheEntry.toTsCacheRead ++
    spans.flatMap fun w =>
      match w.endKey with
      | none => (g.points.lookup w.startKey).toList
      | some _ =>
        (g.points.entries.filter fun p => LatchSpan.overlaps ⟨p.1, none⟩ w).map fun p => p.2

structure TsCache (T : Type) where
  floor : T
  cur : TsCacheGen T := {}
  prev : TsCacheGen T := {}

namespace TsCache

def bumpSpan (ts : T) (txnID : UUID) (c : TsCache T) (sp : LatchSpan) : TsCache T :=
  match sp.endKey with
  | none => { c with cur := c.cur.record sp.startKey ts txnID }
  | some stop =>
    if ¬ Key.minKey < sp.startKey ∧ ¬ stop < Key.maxKey then { c with floor := ts }
    else
      { c with cur := { c.cur with
        ranged := c.cur.ranged ++ [⟨⟨ts, txnID⟩, sp⟩], n := c.cur.n + 1 } }

/-- A full generation becomes the older one, and the older one falls into the floor. -/
def rotate (c : TsCache T) : TsCache T :=
  if tsCacheGenerationSize ≤ c.cur.n then
    let points := c.prev.points.entries.map fun p => p.2.ts
    let ranged := c.prev.ranged.map fun e => e.ts
    { floor := (points ++ ranged).foldl max c.floor, prev := c.cur, cur := {} }
  else c

def bump (c : TsCache T) (spans : List LatchSpan) (ts : T) (txnID : UUID) : TsCache T :=
  if c.floor < ts then (spans.foldl (bumpSpan ts txnID) c).rotate else c

def note (ts : T) (txnID : UUID) (acc : Bool × T) (r : TsCacheRead T) : Bool × T :=
  (acc.1 && !(decide (ts < r.ts) || (decide (ts = r.ts) && (txnID == 0 || txnID != r.txnID))),
    max acc.2 r.ts)

def allowsWrite (c : TsCache T) (spans : List LatchSpan) (ts : T) (txnID : UUID) : Bool × T :=
  (c.prev.hits spans ++ c.cur.hits spans).foldl (note ts txnID) (decide (c.floor < ts), c.floor)

section Floor
variable {c : TsCache T} {t ts : T} {txnID : UUID} {spans : List LatchSpan}

theorem le_floor_bumpSpan (sp : LatchSpan) (ht : t ≤ c.floor) (hts : t ≤ ts) :
    t ≤ (c.bumpSpan ts txnID sp).floor := by
  unfold bumpSpan
  split
  · exact ht
  split
  · exact hts
  · exact ht

theorem le_floor_foldl_bumpSpan (ht : t ≤ c.floor) (hts : t ≤ ts) :
    t ≤ (spans.foldl (bumpSpan ts txnID) c).floor := by
  induction spans generalizing c with
  | nil => exact ht
  | cons sp spans ih => exact ih (le_floor_bumpSpan sp ht hts)

theorem le_foldl_max (t : T) (l : List T) : t ≤ l.foldl max t := by
  induction l generalizing t with
  | nil => exact le_refl t
  | cons x l ih => exact le_trans (le_max_left t x) (ih _)

theorem floor_le_rotate : c.floor ≤ c.rotate.floor := by
  unfold rotate
  split
  · exact le_foldl_max _ _
  · exact le_refl _

theorem floor_le_bump : c.floor ≤ (c.bump spans ts txnID).floor := by
  unfold bump
  split
  · rename_i hlt
    exact le_trans (le_floor_foldl_bumpSpan le_rfl hlt.le) floor_le_rotate
  · exact le_refl _

theorem le_floor_bump_whole : ts ≤ (c.bump [wholeRangeSpan] ts txnID).floor := by
  unfold bump
  split
  · apply le_trans _ floor_le_rotate
    exact le_refl ts
  · rename_i hge
    exact not_lt.mp hge

theorem foldl_note_spec (reads : List (TsCacheRead T)) (ok : Bool) (low : T) :
    ((reads.foldl (note ts txnID) (ok, low)).1 = true → ok = true) ∧
      low ≤ (reads.foldl (note ts txnID) (ok, low)).2 := by
  induction reads generalizing ok low with
  | nil => exact ⟨fun h => h, le_refl _⟩
  | cons r reads ih =>
    obtain ⟨hok, hlow⟩ := ih (note ts txnID (ok, low) r).1 (note ts txnID (ok, low) r).2
    refine ⟨fun h => ?_, le_trans (le_max_left _ _) hlow⟩
    exact (Bool.and_eq_true_iff.mp (hok h)).1

theorem floor_lt_of_allowsWrite (h : (c.allowsWrite spans ts txnID).1 = true) : c.floor < ts :=
  of_decide_eq_true ((foldl_note_spec _ _ _).1 h)

theorem floor_le_allowsWrite : c.floor ≤ (c.allowsWrite spans ts txnID).2 :=
  (foldl_note_spec _ _ _).2

end Floor

end TsCache

end Cache

/-- What `Execute` reads of a batch with MVCC writes before it proposes it. -/
structure WriteRequest where
  spans : List LatchSpan
  timestamp : Timestamp
  txn : Option Transaction := none
  onePhase : Bool := false

def WriteRequest.writeTimestamp (w : WriteRequest) : Timestamp :=
  match w.txn with
  | some txn => txn.writeTimestamp
  | none => w.timestamp

def WriteRequest.batchTxnID (w : WriteRequest) : UUID :=
  match w.txn with
  | some txn => txn.id
  | none => 0

def rangeName (id : RangeID) : String := "r" ++ Nat.repr id

/-- The timestamp a batch is proposed at: its own, or above the cache for a
transaction that can be pushed. -/
def checkTsCache (rangeID : RangeID) (c : TsCache Timestamp) (w : WriteRequest) :
    Except KVError Timestamp :=
  let ts := w.writeTimestamp
  let checked := c.allowsWrite w.spans ts w.batchTxnID
  match w.txn with
  | none =>
    if checked.1 then .ok ts
    else .error (.txnRetry (rangeName rangeID ++ ": write timestamp " ++ ts.toString ++
      " below timestamp cache " ++ checked.2.toString) checked.2.next)
  | some txn =>
    if w.onePhase then
      if txn.readTimestamp ≠ txn.writeTimestamp then
        .error (.txnRetry (rangeName rangeID ++ ": one-phase commit of " ++ txn.id.toString ++
          " arrived with diverged timestamps (read " ++ txn.readTimestamp.toString ++ ", write " ++
          txn.writeTimestamp.toString ++ ")") txn.writeTimestamp)
      else if checked.1 then .ok ts
      else .error (.txnRetry (rangeName rangeID ++ ": one-phase commit of " ++ txn.id.toString ++
        " at " ++ ts.toString ++ " below timestamp cache " ++ checked.2.toString) checked.2.next)
    else if checked.1 then .ok ts
    else .ok (txn.writeTimestamp.forward checked.2.next)

theorem floor_lt_of_checkTsCache {rangeID : RangeID} {c : TsCache Timestamp} {w : WriteRequest}
    {t : Timestamp} (h : checkTsCache rangeID c w = .ok t) : c.floor < t := by
  simp only [checkTsCache] at h
  split at h
  · split_ifs at h with hok
    cases h
    exact TsCache.floor_lt_of_allowsWrite hok
  · split at h
    · split_ifs at h with _ hok
      cases h
      exact TsCache.floor_lt_of_allowsWrite hok
    · split at h
      · rename_i hok
        cases h
        exact TsCache.floor_lt_of_allowsWrite hok
      · cases h
        apply lt_of_lt_of_le _ (le_max_right _ _)
        exact lt_of_le_of_lt TsCache.floor_le_allowsWrite (Timestamp.lt_next _)

end Datax
