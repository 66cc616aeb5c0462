import Datax.Storage.MvccScan

/-!
# What a scan walks

A scan goes through the keys of its span up to the row that fills it. What it returns tells what it
found at each of them, so another engine gives the same rows exactly when these keys hold the same.
-/

namespace Datax

open List

/-- The keys that a scan walks, with what they hold, up to the row that fills it. -/
def walk (max target : Nat) : List (Key × Option Bytes) → Nat → Nat → List (Key × Option Bytes)
  | [], _, _ => []
  | (k, none) :: rest, n, bytes => (k, none) :: walk max target rest n bytes
  | (k, some v) :: rest, n, bytes =>
    (k, some v) ::
      if (0 < max ∧ n + 1 = max) ∨ (0 < target ∧ target ≤ bytes + (k.length + v.length)) then []
      else walk max target rest (n + 1) (bytes + (k.length + v.length))

variable {ts : Timestamp} {max : Nat} {opts : MVCCGetOptions} {k : Key} {keys : List Key}
  {kvs : List KeyValue} {bytes : Nat} {res : ScanResult} {d d' : Key → KeyHistory}
  {v : Option Bytes}

/-- The scan after it has found `v` at `k`. -/
def scanNext (ts : Timestamp) (max : Nat) (opts : MVCCGetOptions) (k : Key)
    (rest : List (Key × KeyHistory)) (kvs : List KeyValue) (bytes : Nat) :
    Option Bytes → Except StorageError ScanResult
  | none => scanLoop ts max opts rest ⟨kvs, [], bytes⟩
  | some v =>
    if (0 < max ∧ kvs.length + 1 = max) ∨
        (0 < opts.targetBytes ∧ opts.targetBytes ≤ bytes + (k.length + v.length)) then
      .ok ⟨kvs ++ [⟨k, v⟩], some k.next⟩
    else scanLoop ts max opts rest ⟨kvs ++ [⟨k, v⟩], [], bytes + (k.length + v.length)⟩

theorem scanLoop_cons_iff {h : KeyHistory} {rest : List (Key × KeyHistory)} :
    scanLoop ts max opts ((k, h) :: rest) ⟨kvs, [], bytes⟩ = .ok res ↔
      ∃ v, mvccScanKey h k ts opts [] = .ok (v, []) ∧
        scanNext ts max opts k rest kvs bytes v = .ok res := by
  rw [scanLoop]
  cases hkey : mvccScanKey h k ts opts [] with
  | error err => simp
  | ok p =>
    obtain ⟨v, intents⟩ := p
    cases intents with
    | cons i is => simp [scanLoop_conflicted]
    | nil =>
      cases v with
      | none => simp [scanNext]
      | some v => simp [scanNext]

theorem scanLoop_rows
    (hrun : scanLoop ts max opts (keys.map fun k => (k, d k)) ⟨kvs, [], bytes⟩ = .ok res) :
    ∃ rows, res.kvs = kvs ++ rows ∧ ∀ r ∈ rows, r.key ∈ keys := by
  induction keys generalizing kvs bytes with
  | nil =>
    cases hrun
    exact ⟨[], by simp, by simp⟩
  | cons k keys ih =>
    obtain ⟨v, _, hnext⟩ := scanLoop_cons_iff.mp hrun
    cases v with
    | none =>
      obtain ⟨rows, hrows, hkeys⟩ := ih hnext
      exact ⟨rows, hrows, fun r hr => mem_cons_of_mem k (hkeys r hr)⟩
    | some v =>
      rw [scanNext] at hnext
      split at hnext
      · cases hnext
        exact ⟨[⟨k, v⟩], rfl, by simp⟩
      · obtain ⟨rows, hrows, hkeys⟩ := ih hnext
        refine ⟨⟨k, v⟩ :: rows, by rw [hrows, append_assoc]; rfl, ?_⟩
        exact forall_mem_cons.mpr ⟨mem_cons_self, fun r hr => mem_cons_of_mem k (hkeys r hr)⟩

/-- The rows tell what was found at a key. -/
theorem value_of_scanNext (hk : k ∉ keys)
    (hnext : scanNext ts max opts k (keys.map fun k => (k, d k)) kvs bytes v = .ok res) :
    ((res.kvs.drop kvs.length).find? fun r => r.key == k).map KeyValue.value = v := by
  cases v with
  | none =>
    obtain ⟨rows, hrows, hkeys⟩ := scanLoop_rows hnext
    have hnone : rows.find? (fun r => r.key == k) = none := by
      refine find?_eq_none.mpr fun r hr heq => hk ?_
      rw [← beq_iff_eq.mp heq]
      exact hkeys r hr
    rw [hrows, drop_left, hnone, Option.map_none]
  | some v =>
    rw [scanNext] at hnext
    split at hnext
    · cases hnext
      simp
    · obtain ⟨rows, hrows, _⟩ := scanLoop_rows hnext
      rw [hrows, append_assoc, drop_left]
      simp

section Walk
variable {val : Key → Option Bytes}
  (hval : ∀ k v, mvccScanKey (d k) k ts opts [] = .ok (v, []) → v = val k)
  (hrun : scanLoop ts max opts (keys.map fun k => (k, d k)) ⟨kvs, [], bytes⟩ = .ok res)
include hval hrun

theorem scanLoop_walk :
    res.kvs = kvs ++
      (walk max opts.targetBytes (keys.map fun k => (k, val k)) kvs.length bytes).filterMap
        (fun p => p.2.map (KeyValue.mk p.1)) ∧
      ∀ p ∈ walk max opts.targetBytes (keys.map fun k => (k, val k)) kvs.length bytes,
        mvccScanKey (d p.1) p.1 ts opts [] = .ok (p.2, []) := by
  induction keys generalizing kvs bytes with
  | nil =>
    cases hrun
    exact ⟨by simp [walk], by simp [walk]⟩
  | cons k keys ih =>
    obtain ⟨v, hv, hnext⟩ := scanLoop_cons_iff.mp hrun
    rw [map_cons, ← hval k v hv]
    cases v with
    | none =>
      obtain ⟨hrows, hfound⟩ := ih hnext
      exact ⟨by rw [hrows, walk]; rfl, forall_mem_cons.mpr ⟨hv, hfound⟩⟩
    | some v =>
      rw [scanNext] at hnext
      rw [walk]
      split at hnext
      · rename_i hfull
        cases hnext
        rw [if_pos hfull]
        exact ⟨rfl, by simpa using hv⟩
      · rename_i hmore
        obtain ⟨hrows, hfound⟩ := ih hnext
        rw [length_append, length_singleton] at hrows hfound
        rw [if_neg hmore]
        exact ⟨by rw [hrows, append_assoc]; rfl, forall_mem_cons.mpr ⟨hv, hfound⟩⟩

theorem scanLoop_same_iff (hnodup : keys.Nodup) :
    scanLoop ts max opts (keys.map fun k => (k, d' k)) ⟨kvs, [], bytes⟩ = .ok res ↔
      ∀ p ∈ walk max opts.targetBytes (keys.map fun k => (k, val k)) kvs.length bytes,
        mvccScanKey (d' p.1) p.1 ts opts [] = .ok (p.2, []) := by
  induction keys generalizing kvs bytes with
  | nil => exact iff_of_true hrun (by simp [walk])
  | cons k keys ih =>
    obtain ⟨hk, hkeys⟩ := nodup_cons.mp hnodup
    obtain ⟨v, hv, hnext⟩ := scanLoop_cons_iff.mp hrun
    have hsame : scanLoop ts max opts ((k :: keys).map fun k => (k, d' k))
        ⟨kvs, [], bytes⟩ = .ok res ↔
        mvccScanKey (d' k) k ts opts [] = .ok (v, []) ∧
          scanNext ts max opts k (keys.map fun k => (k, d' k)) kvs bytes v = .ok res := by
      refine scanLoop_cons_iff.trans ⟨?_, fun h => ⟨v, h⟩⟩
      rintro ⟨v', hv', hnext'⟩
      obtain rfl : v' = v := (value_of_scanNext hk hnext').symm.trans (value_of_scanNext hk hnext)
      exact ⟨hv', hnext'⟩
    rw [hsame, map_cons, ← hval k v hv]
    cases v with
    | none =>
      rw [walk, forall_mem_cons]
      exact and_congr_right fun _ => ih hnext hkeys
    | some v =>
      rw [scanNext] at hnext ⊢
      rw [walk]
      split at hnext
      · rename_i hfull
        rw [if_pos hfull, if_pos hfull]
        simp [hnext]
      · rename_i hmore
        rw [if_neg hmore, if_neg hmore, forall_mem_cons]
        have hrest := ih hnext hkeys
        rw [length_append, length_singleton] at hrest
        exact and_congr_right fun _ => hrest

end Walk

end Datax
