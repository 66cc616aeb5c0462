import Datax.Kvserver.Replica

/-!
# Range snapshots

The sender streams the transaction records and then the MVCC keys of the
descriptor's span, in chunks, from one engine snapshot. A receiver without a
replica seeds one; an existing replica stages the stream and commits it when raft
restores to the position the stream carries.
-/

namespace Datax

open List

abbrev SnapshotKV := (_ : ContentKey) × Bytes

structure SnapshotHeader where
  desc : RangeDescriptor
  replicaID : ReplicaID
  appliedIndex : Nat
  term : Nat
  gcThreshold : Timestamp
  sizeBytes : Int
  prior : Option RangeDescriptor

def ContentKey.isRecord : ContentKey → Bool
  | txnRecord _ _ => true
  | mvcc _ _ => false

def inSpan (desc : RangeDescriptor) (key : ContentKey) : Bool := desc.containsKey key.addr

def snapshotSpans (desc : RangeDescriptor) (content : Content) : List (List SnapshotKV) :=
  let inside := content.entries.filter fun kv => inSpan desc kv.1
  [inside.filter fun kv => kv.1.isRecord, inside.filter fun kv => !kv.1.isRecord]

structure SnapshotStream where
  current : List SnapshotKV
  spans : List (List SnapshotKV)

def SnapshotStream.remaining (s : SnapshotStream) : List SnapshotKV := s.current ++ s.spans.flatten

def snapshotChunkSize : Nat := 256

def fillChunk : List (List SnapshotKV) → List SnapshotKV → List SnapshotKV →
    List SnapshotKV × SnapshotStream
  | [], current, out =>
    let room := snapshotChunkSize - out.length
    (out ++ current.take room, ⟨current.drop room, []⟩)
  | span :: spans, current, out =>
    let room := snapshotChunkSize - out.length
    if (current.drop room).isEmpty then fillChunk spans span (out ++ current.take room)
    else (out ++ current.take room, ⟨current.drop room, span :: spans⟩)

def SnapshotStream.next (s : SnapshotStream) : List SnapshotKV × SnapshotStream :=
  fillChunk s.spans s.current []

def drain : Nat → SnapshotStream → List SnapshotKV
  | 0, _ => []
  | fuel + 1, s =>
    if s.next.1.isEmpty then [] else s.next.1 ++ drain fuel s.next.2

theorem fillChunk_append (spans : List (List SnapshotKV)) (current out : List SnapshotKV) :
    (fillChunk spans current out).1 ++ (fillChunk spans current out).2.remaining =
      out ++ current ++ spans.flatten := by
  induction spans generalizing current out with
  | nil => simp [fillChunk, SnapshotStream.remaining]
  | cons span spans ih =>
    rw [fillChunk]
    split
    · rename_i h
      rw [ih, flatten_cons]
      have hdrop : current.drop (snapshotChunkSize - out.length) = [] := by simpa using h
      have htake : current.take (snapshotChunkSize - out.length) = current := by
        have happend := take_append_drop (snapshotChunkSize - out.length) current
        rw [hdrop, append_nil] at happend
        exact happend
      rw [htake, append_assoc, append_assoc]
    · change (out ++ current.take _) ++ (current.drop _ ++ (span :: spans).flatten) = _
      rw [← append_assoc, append_assoc out, take_append_drop]

theorem fillChunk_full (spans : List (List SnapshotKV)) (current out : List SnapshotKV)
    (h : (fillChunk spans current out).1.length < snapshotChunkSize) :
    (fillChunk spans current out).2.remaining = [] := by
  induction spans generalizing current out with
  | nil =>
    simp only [fillChunk, length_append, length_take] at h
    simp only [fillChunk, SnapshotStream.remaining, flatten_nil, append_nil]
    apply drop_eq_nil_of_le
    omega
  | cons span spans ih =>
    rw [fillChunk] at h ⊢
    split
    · rename_i hempty
      rw [if_pos hempty] at h
      exact ih span _ h
    · rename_i hempty
      rw [if_neg hempty] at h
      have hne : current.drop (snapshotChunkSize - out.length) ≠ [] := by simpa using hempty
      have hlt : snapshotChunkSize - out.length < current.length := by
        by_contra hge
        exact hne (drop_eq_nil_of_le (by omega))
      simp only [length_append, length_take] at h
      omega

theorem next_append (s : SnapshotStream) : s.next.1 ++ s.next.2.remaining = s.remaining := by
  have happend := fillChunk_append s.spans s.current []
  exact happend

theorem remaining_of_next_empty {s : SnapshotStream} (h : s.next.1 = []) : s.remaining = [] := by
  have hrest : s.next.2.remaining = [] := by
    apply fillChunk_full
    change s.next.1.length < snapshotChunkSize
    rw [h]
    decide
  rw [← next_append s, h, hrest]
  rfl

theorem drain_eq_remaining (fuel : Nat) (s : SnapshotStream) (h : s.remaining.length < fuel) :
    drain fuel s = s.remaining := by
  induction fuel generalizing s with
  | zero => omega
  | succ fuel ih =>
    rw [drain]
    split
    · rename_i hempty
      rw [remaining_of_next_empty (by simpa using hempty)]
    rename_i hempty
    have hne : s.next.1 ≠ [] := by simpa using hempty
    have hpos : 0 < s.next.1.length := length_pos_iff.mpr hne
    have happend := next_append s
    have hlength : s.next.1.length + s.next.2.remaining.length = s.remaining.length := by
      rw [← happend, length_append]
    rw [ih s.next.2 (by omega), happend]

structure Snapshot where
  header : SnapshotHeader
  stream : SnapshotStream

def streamSnapshot (snap : RangeEngine) (newDesc : RangeDescriptor) (newReplicaID : ReplicaID)
    (term : Nat) (prior : Option RangeDescriptor) : Snapshot where
  header :=
    { desc := newDesc
      replicaID := newReplicaID
      appliedIndex := snap.state.appliedIndex
      term := term
      gcThreshold := snap.state.gcThreshold
      sizeBytes := snap.state.sizeBytes
      prior := prior }
  stream := ⟨[], snapshotSpans newDesc snap.content⟩

def Snapshot.kvs (s : Snapshot) : List SnapshotKV := drain (s.stream.remaining.length + 1) s.stream

def putAll (content : Content) (kvs : List SnapshotKV) : Content :=
  kvs.foldl (fun c kv => c.insert kv.1 kv.2) content

def deleteSpan (desc : RangeDescriptor) (content : Content) : Content :=
  ((content.entries.filter fun kv => inSpan desc kv.1).map Sigma.fst).foldl
    (fun c k => c.erase k) content

def SnapshotHeader.seedState (h : SnapshotHeader) : ReplicaState where
  appliedIndex := h.appliedIndex
  truncatedIndex := h.appliedIndex
  truncatedTerm := h.term
  gcThreshold := h.gcThreshold
  sizeBytes := h.sizeBytes

/-- `ApplySnapshotStream` on a store without a replica of the range. -/
def applySnapshotStream (eng : RangeEngine) (s : Snapshot) : Replica × RangeEngine :=
  let eng : RangeEngine :=
    { state := s.header.seedState
      desc := some s.header.desc
      content := putAll eng.content s.kvs }
  (newReplica eng s.header.desc, eng)

inductive SnapshotError where
  | stale (index applied : Nat)
  | boundsChanged (oldStart oldEnd newStart newEnd : Key)
  | noStagedStream (index : Nat)
  | mismatch (staged restore : Nat)

def installSnapshot (r : Replica) (s : Snapshot) : Except SnapshotError Snapshot :=
  if s.header.appliedIndex ≤ r.appliedIndex then .error
    (.stale s.header.appliedIndex r.appliedIndex)
  else if r.desc.startKey ≠ s.header.desc.startKey ∨ r.desc.endKey ≠ s.header.desc.endKey then
    .error (.boundsChanged r.desc.startKey r.desc.endKey s.header.desc.startKey
      s.header.desc.endKey)
  else .ok s

def commitInstall (eng : RangeEngine) (s : Snapshot) : RangeEngine where
  state := s.header.seedState
  desc := some s.header.desc
  content := putAll (deleteSpan s.header.desc eng.content) s.kvs

theorem installSnapshot_ok {r : Replica} {s p : Snapshot} (h : installSnapshot r s = .ok p) :
    p = s := by
  unfold installSnapshot at h
  split_ifs at h
  cases h
  rfl

def Replica.restore (r : Replica) (h : SnapshotHeader) : Replica :=
  { r with
    desc := h.desc
    gcThreshold := h.gcThreshold
    sizeBytes := h.sizeBytes
    appliedIndex := h.appliedIndex
    truncated := ⟨h.appliedIndex, h.term⟩ }

/-- `applySnapshot`, when raft restores to `index`. -/
def applySnapshot (r : Replica) (eng : RangeEngine) (pending : Option Snapshot) (index : Nat) :
    Except SnapshotError (Replica × RangeEngine) :=
  match pending with
  | none => if index ≤ r.appliedIndex then .ok (r, eng) else .error (.noStagedStream index)
  | some s =>
    if s.header.appliedIndex ≠ index then .error (.mismatch s.header.appliedIndex index)
    else if s.header.appliedIndex ≤ r.appliedIndex then .ok (r, eng)
    else .ok (r.restore s.header, commitInstall eng s)

end Datax
