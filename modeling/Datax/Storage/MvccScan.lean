import Datax.Storage.Mvcc

/-!
# Scans over an engine

An engine is the list of its user keys in order, each with its history. The iterator of a scan
visits the keys of `[start, end)` one by one; inside a key it walks the versions with `Next`, or
seeks past a long run of newer ones, and both leave it on the newest version the read may see.
-/

namespace Datax

open List

open Shared (Chain)

@[ext]
structure Engine where
  entries : List (Key × KeyHistory)
  sorted : entries.Pairwise fun a b => a.1 < b.1

variable {e : Engine}

namespace Engine

def history (e : Engine) (k : Key) : KeyHistory :=
  ((e.entries.find? fun p => p.1 == k).map Prod.snd).getD KeyHistory.empty

theorem history_of_mem {p : Key × KeyHistory} (hp : p ∈ e.entries) : e.history p.1 = p.2 := by
  obtain ⟨before, after, hsplit⟩ := append_of_mem hp
  have hsorted := e.sorted
  rw [hsplit, pairwise_append] at hsorted
  have hbefore : before.find? (fun q => q.1 == p.1) = none := by
    rw [find?_eq_none]
    intro q hq
    simpa using (hsorted.2.2 q hq p mem_cons_self).ne
  simp [history, hsplit, find?_append, hbefore]

theorem history_of_notMem {k : Key} (h : ∀ p ∈ e.entries, p.1 ≠ k) :
    e.history k = KeyHistory.empty := by
  have hfind : e.entries.find? (fun p => p.1 == k) = none := by
    rw [find?_eq_none]
    intro p hp
    simpa using h p hp
  rw [history, hfind]
  rfl

def mapHistories (e : Engine) (f : Key → KeyHistory → KeyHistory) : Engine where
  entries := e.entries.map fun p => (p.1, f p.1 p.2)
  sorted := by
    rw [List.pairwise_map]
    exact e.sorted

def deleteVersion (e : Engine) (k : Key) (ts : Timestamp) : Engine :=
  e.mapHistories fun k' h => if k' = k then { h with versions := h.versions.delete ts } else h

end Engine

def MVCCGet (e : Engine) (key : Key) (ts : Timestamp) (opts : MVCCGetOptions) :
    Except StorageError (Option Bytes) :=
  mvccGet (e.history key) key ts opts

structure KeyValue where
  key : Key
  value : Bytes
deriving DecidableEq

structure ScanResult where
  kvs : List KeyValue
  resume : Option Key
deriving DecidableEq

def maxIntentsPerError : Nat := 16

/-- The value of one key during a scan, and the intents collected so far. -/
def mvccScanKey (h : KeyHistory) (cur : Key) (ts : Timestamp) (opts : MVCCGetOptions)
    (intents : List Intent) : Except StorageError (Option Bytes × List Intent) :=
  match h.intent with
  | none => beneath ⊥
  | some intent =>
    match viewIntent cur intent ts opts with
    | .blocked i =>
      let intents := intents ++ [i]
      if maxIntentsPerError ≤ intents.length then .error (.writeIntent intents)
      else .ok (none, intents)
    | .skipAt vts => beneath vts
    | .readAt vts =>
      if vts.isEmpty then beneath ⊥
      else
        match visible h.versions vts ⊥ with
        | some (found, value) => .ok (if found = vts then value else none, intents)
        | none => .ok (none, intents)
where
  beneath (skipAt : Timestamp) : Except StorageError (Option Bytes × List Intent) :=
    match if intents = [] then uncertainVersion h.versions ts skipAt opts else none with
    | some vts => .error (.uncertainty ts vts)
    | none => .ok ((visible h.versions ts skipAt).bind Prod.snd, intents)

structure ScanState where
  kvs : List KeyValue
  intents : List Intent
  bytes : Nat

/-- The loop of `MVCCScan` over the keys of its span; `max = 0` is unlimited. -/
def scanLoop (ts : Timestamp) (max : Nat) (opts : MVCCGetOptions) :
    List (Key × KeyHistory) → ScanState → Except StorageError ScanResult
  | [], st => if st.intents = [] then .ok ⟨st.kvs, none⟩ else .error (.writeIntent st.intents)
  | (cur, h) :: rest, st =>
    match mvccScanKey h cur ts opts st.intents with
    | .error e => .error e
    | .ok (some value, []) =>
      let kvs := st.kvs ++ [⟨cur, value⟩]
      let bytes := st.bytes + (cur.length + value.length)
      if (0 < max ∧ kvs.length = max) ∨ (0 < opts.targetBytes ∧ opts.targetBytes ≤ bytes) then
        .ok ⟨kvs, some cur.next⟩
      else scanLoop ts max opts rest ⟨kvs, [], bytes⟩
    | .ok (_, intents) => scanLoop ts max opts rest { st with intents := intents }

def MVCCScan (e : Engine) (start stop : Key) (ts : Timestamp) (max : Nat) (opts : MVCCGetOptions) :
    Except StorageError ScanResult :=
  scanLoop ts max opts (e.entries.filter fun p => start ≤ p.1 ∧ p.1 < stop) ⟨[], [], 0⟩

variable {ts : Timestamp} {opts : MVCCGetOptions}

theorem mvccScanKey_conflict {h : KeyHistory} {cur : Key} {seen intents : List Intent}
    (hs : mvccScanKey h cur ts opts seen = .error (.writeIntent intents)) : intents ≠ [] := by
  have hbeneath :
      ∀ skipAt, mvccScanKey.beneath h ts opts seen skipAt ≠ .error (.writeIntent intents) := by
    intro skipAt
    unfold mvccScanKey.beneath
    split
    · simp
    · simp
  unfold mvccScanKey at hs
  split at hs
  · exact absurd hs (hbeneath _)
  split at hs
  · dsimp only at hs
    split_ifs at hs
    cases hs
    simp
  · exact absurd hs (hbeneath _)
  · split at hs
    · exact absurd hs (hbeneath _)
    split at hs
    · cases hs
    · cases hs

theorem mvccScanKey_intents {h : KeyHistory} {seen intents : List Intent}
    {value : Option Bytes} {cur : Key} (hs : mvccScanKey h cur ts opts seen = .ok (value, intents))
    (hseen : seen ≠ []) : intents ≠ [] := by
  simp only [mvccScanKey, mvccScanKey.beneath] at hs
  grind

theorem scanLoop_conflicted {es : List (Key × KeyHistory)} {st : ScanState} {max : Nat}
    {sr : ScanResult} (hst : st.intents ≠ []) :
    scanLoop ts max opts es st ≠ .ok sr := by
  induction es generalizing st with
  | nil =>
    unfold scanLoop
    rw [if_neg hst]
    simp
  | cons p es ih =>
    intro hrun
    unfold scanLoop at hrun
    split at hrun
    · cases hrun
    · rename_i hkey
      exact mvccScanKey_intents hkey hst rfl
    · rename_i hkey
      exact ih (mvccScanKey_intents hkey hst) hrun

/-- Point reads and scans strictly above `T` cannot tell the two engines apart. -/
def SameReadsAbove (T : Timestamp) (e e' : Engine) : Prop :=
  ∀ ts, T < ts → (∀ key opts, MVCCGet e' key ts opts = MVCCGet e key ts opts) ∧
    (∀ start stop max opts, MVCCScan e' start stop ts max opts = MVCCScan e start stop ts max opts)

theorem SameReadsAbove.refl (T : Timestamp) (e : Engine) : SameReadsAbove T e e :=
  fun _ _ => ⟨fun _ _ => rfl, fun _ _ _ _ => rfl⟩

variable {T : Timestamp} {e' : Engine}

section
variable (h : SameReadsAbove T e e')
include h

theorem SameReadsAbove.trans {e'' : Engine} (h' : SameReadsAbove T e' e'') :
    SameReadsAbove T e e'' := by
  intro ts hts
  obtain ⟨hg, hs⟩ := h ts hts
  obtain ⟨hg', hs'⟩ := h' ts hts
  exact ⟨fun key opts => (hg' key opts).trans (hg key opts),
    fun start stop max opts => (hs' start stop max opts).trans (hs start stop max opts)⟩

theorem SameReadsAbove.symm : SameReadsAbove T e' e := by
  intro ts hts
  obtain ⟨hg, hs⟩ := h ts hts
  exact ⟨fun key opts => (hg key opts).symm, fun start stop max opts =>
    (hs start stop max opts).symm⟩

theorem SameReadsAbove.mono {T' : Timestamp} (hT : T ≤ T') : SameReadsAbove T' e e' :=
  fun ts hts => h ts (lt_of_le_of_lt hT hts)

end

section Mapped
variable {f : Key → KeyHistory → KeyHistory}

theorem Engine.history_mapHistories (hf : ∀ k, f k KeyHistory.empty = KeyHistory.empty)
    (e : Engine) (k : Key) : (e.mapHistories f).history k = f k (e.history k) := by
  simp only [history, mapHistories, find?_map]
  have hcomp : ((fun p : Key × KeyHistory => p.1 == k) ∘ fun p :
      Key × KeyHistory => (p.1, f p.1 p.2)) =
      fun p => p.1 == k := rfl
  rw [hcomp]
  cases hfind : e.entries.find? (fun p => p.1 == k) with
  | none => simp [hf k]
  | some p =>
    have hk : p.1 = k := by simpa using find?_some hfind
    simp [hk]

theorem scanLoop_map {max : Nat} {es : List (Key × KeyHistory)} (st : ScanState)
    (h : ∀ p ∈ es, ∀ intents, mvccScanKey (f p.1 p.2) p.1 ts opts intents =
      mvccScanKey p.2 p.1 ts opts intents) :
    scanLoop ts max opts (es.map fun p => (p.1, f p.1 p.2)) st = scanLoop ts max opts es st := by
  induction es generalizing st with
  | nil => rfl
  | cons p es ih =>
    have hp := h p mem_cons_self
    have hes : ∀ q ∈ es, ∀ intents, mvccScanKey (f q.1 q.2) q.1 ts opts intents =
        mvccScanKey q.2 q.1 ts opts intents :=
      fun q hq => h q (mem_cons_of_mem p hq)
    simp only [map_cons, scanLoop, hp, ih _ hes]

end Mapped

end Datax
