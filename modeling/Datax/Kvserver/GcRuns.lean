import Datax.Kvserver.GcPasses

/-!
# Whole and partial passes

Passes follow one another over the same data, each at its own threshold and each stopping after any
of its commands. A pass at or below the range's threshold proposes nothing. Reads above both
thresholds are compared with what they returned before the first pass.
-/

namespace Datax

open Timestamp List

open Shared (Chain)

variable {T : Timestamp}

section Range
variable (startKey endKey : Key)

structure GCState where
  engine : Engine
  gcThreshold : Timestamp

def applyGC (st : GCState) (req : GCRequest) : GCState :=
  ⟨evalGC st.engine req,
    if st.gcThreshold.less req.threshold then req.threshold else st.gcThreshold⟩

structure GCPass where
  threshold : Timestamp
  records : List TransactionKey
  stop : Nat

def GCPass.commands (p : GCPass) (st : GCState) : List GCRequest :=
  runGC st.engine st.gcThreshold startKey endKey (ordinary p.threshold) p.records

def GCPass.after (p : GCPass) (st : GCState) (m : Nat) : GCState :=
  ((p.commands startKey endKey st).take m).foldl applyGC st

/-- After every command of every pass, reads above the pass's threshold and the
range's return what they returned from `base`. -/
def ReadsPreserved (base : Engine) : GCState → List GCPass → Prop
  | _, [] => True
  | st, p :: ps =>
    (∀ m ≤ p.stop,
      SameReadsAbove (max st.gcThreshold p.threshold) base (p.after startKey endKey st m).engine) ∧
    ReadsPreserved base (p.after startKey endKey st p.stop) ps

/-- No command but a pass's first starts with a value that a collected tombstone was hiding. -/
def TombstonesGoLast : GCState → List GCPass → Prop
  | _, [] => True
  | st, p :: ps =>
    (∀ m, 0 < m → m ≤ p.stop → ∀ cmd, (p.commands startKey endKey st)[m]? = some cmd →
      ∀ v, cmd.versions.head? = some v → ¬ Resurrects p.threshold (st.engine.history v.key) v.ts) ∧
    TombstonesGoLast (p.after startKey endKey st p.stop) ps

variable {startKey endKey}

theorem foldl_applyGC_engine (st : GCState) (reqs : List GCRequest) :
    (reqs.foldl applyGC st).engine = reqs.foldl evalGC st.engine := by
  induction reqs generalizing st with
  | nil => rfl
  | cons r reqs ih => exact ih (applyGC st r)

theorem gcThreshold_foldl_applyGC (st : GCState) (reqs : List GCRequest)
    (hreqs : ∀ r ∈ reqs, r.threshold = T) (hT : st.gcThreshold ≤ T) (hne : reqs ≠ []) :
    (reqs.foldl applyGC st).gcThreshold = T := by
  induction reqs generalizing st with
  | nil => exact absurd rfl hne
  | cons r reqs ih =>
    have hr : (applyGC st r).gcThreshold = T := by
      change st.gcThreshold.forward r.threshold = T
      rw [hreqs r mem_cons_self, forward_eq_max, max_eq_right hT]
    cases reqs with
    | nil => exact hr
    | cons q reqs =>
      exact ih (applyGC st r) (fun q hq => hreqs q (mem_cons_of_mem r hq)) hr.le
        (cons_ne_nil q reqs)

theorem threshold_of_mem_gcChunks {fuel : Nat} {versions : List GCVersion}
    {records : List TransactionKey} {r : GCRequest} (hr : r ∈ gcChunks T fuel versions records) :
    r.threshold = T := by
  induction fuel generalizing versions records with
  | zero => simp [gcChunks] at hr
  | succ fuel ih =>
    simp only [gcChunks] at hr
    split at hr
    · simp at hr
    rcases mem_cons.mp hr with rfl | hr
    · rfl
    · exact ih hr

namespace GCPass
variable {p : GCPass} {st : GCState}

theorem commands_eq_nil (h : p.threshold ≤ st.gcThreshold) :
    p.commands startKey endKey st = [] := by
  simp [commands, runGC, ordinary, h]

theorem commands_eq (h : ¬ p.threshold ≤ st.gcThreshold) :
    p.commands startKey endKey st = gcChunks p.threshold
      ((enumerateGarbageVersions st.engine startKey endKey (ordinary p.threshold)).versions.length +
        p.records.length)
      (enumerateGarbageVersions st.engine startKey endKey (ordinary p.threshold)).versions
        p.records := by
  simp [commands, runGC, ordinary, h]

theorem after_engine (h : ¬ p.threshold ≤ st.gcThreshold) (m : Nat) :
    (p.after startKey endKey st m).engine = st.engine.withoutVersions
      ((enumerateGarbageVersions st.engine startKey endKey (ordinary p.threshold)).versions.take
        (m * gcChunkSize)) := by
  rw [after, foldl_applyGC_engine, foldl_evalGC, commands_eq h, gcChunks_take_versions le_rfl]

theorem after_of_le (h : p.threshold ≤ st.gcThreshold) (m : Nat) :
    p.after startKey endKey st m = st := by
  simp [after, commands_eq_nil h]

theorem sameReads_after_iff (h : ¬ p.threshold ≤ st.gcThreshold) (m : Nat) :
    SameReadsAbove p.threshold st.engine (p.after startKey endKey st m).engine ↔
      ∀ cmd, (p.commands startKey endKey st)[m]? = some cmd → ∀ v, cmd.versions.head? = some v →
        ¬ Resurrects p.threshold (st.engine.history v.key) v.ts := by
  rw [after_engine h, sameReads_prefix_iff, ← gcChunks_head_version le_rfl, ← commands_eq h]
  simp only [Option.bind_eq_some_iff]
  constructor
  · intro hall cmd hcmd v hv
    exact hall v ⟨cmd, hcmd, hv⟩
  · rintro hall v ⟨cmd, hcmd, hv⟩
    exact hall cmd hcmd v hv

theorem gcThreshold_after (startKey endKey : Key) (h : ¬ p.threshold ≤ st.gcThreshold) (m : Nat) :
    p.after startKey endKey st m = st ∨
      (p.after startKey endKey st m).gcThreshold = p.threshold := by
  have hreqs : ∀ r ∈ (p.commands startKey endKey st).take m, r.threshold = p.threshold := by
    intro r hr
    have := mem_of_mem_take hr
    rw [commands_eq h] at this
    exact threshold_of_mem_gcChunks this
  by_cases hnil : (p.commands startKey endKey st).take m = []
  · left
    simp [after, hnil]
  · exact .inr (gcThreshold_foldl_applyGC st _ hreqs (not_le.mp h).le hnil)

end GCPass

theorem readsPreserved_iff_of_base {base : Engine} {st : GCState} (ps : List GCPass)
    (hbase : SameReadsAbove st.gcThreshold base st.engine) :
    ReadsPreserved startKey endKey base st ps ↔ TombstonesGoLast startKey endKey st ps := by
  induction ps generalizing st with
  | nil => exact Iff.rfl
  | cons p ps ih =>
    simp only [ReadsPreserved, TombstonesGoLast]
    by_cases hT : p.threshold ≤ st.gcThreshold
    · -- the pass proposes nothing
      have hnil : p.commands startKey endKey st = [] := GCPass.commands_eq_nil hT
      simp only [GCPass.after_of_le hT, hnil, max_eq_left hT, ih hbase]
      constructor
      · rintro ⟨-, hps⟩
        exact ⟨by simp, hps⟩
      · rintro ⟨-, hps⟩
        exact ⟨fun _ _ => hbase, hps⟩
    · have hbaseT := hbase.mono (not_le.mp hT).le
      rw [max_eq_right (not_le.mp hT).le]
      -- with the base and the start of the pass alike above the threshold, compare with the start
      have hhead : (∀ m ≤ p.stop,
          SameReadsAbove p.threshold base (p.after startKey endKey st m).engine) ↔
          ∀ m, 0 < m → m ≤ p.stop → ∀ cmd, (p.commands startKey endKey st)[m]? = some cmd →
            ∀ v, cmd.versions.head? = some v →
              ¬ Resurrects p.threshold (st.engine.history v.key) v.ts := by
        constructor
        · intro hall m _ hm
          exact (GCPass.sameReads_after_iff hT m).mp (hbaseT.symm.trans (hall m hm))
        · intro hall m hm
          rcases Nat.eq_zero_or_pos m with rfl | hpos
          · exact hbaseT
          · exact hbaseT.trans ((GCPass.sameReads_after_iff hT m).mpr (hall m hpos hm))
      rw [hhead]
      refine and_congr_right fun hcond => ih ?_
      rcases GCPass.gcThreshold_after startKey endKey hT p.stop with heq | heq
      · rw [heq]
        exact hbase
      · rw [heq]
        exact hhead.mpr hcond p.stop le_rfl

/-- Over any sequence of whole and partial passes, reads above the thresholds are
preserved if and only if no command boundary uncovers a value. -/
theorem gc_reads_preserved_iff (st : GCState) (ps : List GCPass) :
    ReadsPreserved startKey endKey st.engine st ps ↔ TombstonesGoLast startKey endKey st ps :=
  readsPreserved_iff_of_base ps (SameReadsAbove.refl st.gcThreshold st.engine)

end Range

section DeletedRow

def rewrites : Nat → List (Timestamp × Option Bytes)
  | 0 => []
  | n + 1 => (⟨n + 1, 0⟩, some [7]) :: rewrites n

theorem wallTime_of_mem_rewrites {n : Nat} {v : Timestamp × Option Bytes} (hv : v ∈ rewrites n) :
    v.1.wallTime ≤ n := by
  induction n with
  | zero => simp [rewrites] at hv
  | succ n ih =>
    rcases mem_cons.mp hv with rfl | hv
    · exact le_rfl
    · exact (ih hv).trans (Nat.le_succ n)

theorem cons_rewrites_descending (n : Nat) (value : Option Bytes) :
    ((⟨n + 1, 0⟩, value) :: rewrites n).Pairwise fun a b => b.1 < a.1 := by
  induction n generalizing value with
  | zero => simp [rewrites]
  | succ n ih =>
    refine pairwise_cons.mpr ⟨?_, ih (some [7])⟩
    intro v hv
    have := wallTime_of_mem_rewrites hv
    exact lt_iff.mpr (.inl (Nat.lt_succ_of_le this))

theorem getElem?_rewrites (n i : Nat) :
    (rewrites (n + i + 1))[i]? = some (⟨n + 1, 0⟩, some [7]) := by
  induction i with
  | zero => rfl
  | succ i ih => exact ih

def deletedRow : Engine where
  entries := [([4],
    ⟨none, ⟨(⟨1001, 0⟩, none) :: rewrites 1000, cons_rewrites_descending 1000 none⟩⟩)]
  sorted := by simp

theorem deletedRow_garbage :
    (enumerateGarbageVersions deletedRow [2] [255] (ordinary ⟨2000, 0⟩)).versions =
      ((⟨1001, 0⟩, none) :: rewrites 1000).map (gcItem [4]) := by
  have holder : ∀ v ∈ rewrites 1000, v.1 ≤ (⟨2000, 0⟩ : Timestamp) := by
    intro v hv
    exact le_iff.mpr (.inl ((wallTime_of_mem_rewrites hv).trans_lt (by decide)))
  have hspan : (deletedRow.entries.filter fun p => ([2] : Key) ≤ p.1 ∧ p.1 < [255]) =
      deletedRow.entries := rfl
  have hrest := garbageOfKey_older (k := [4]) holder
  simp only [enumerateGarbageVersions, hspan]
  simp only [deletedRow, Option.isNone_none, filter_cons_of_pos, filter_nil,
    flatMap_cons, flatMap_nil, append_nil, map_cons, ← hrest]
  rfl

/-- The first command of the pass deletes the tombstone and all values but the
oldest, and the pass stops there: the deleted row is back. -/
theorem gc_partial_pass_resurrects :
    ¬ ReadsPreserved [2] [255] deletedRow ⟨deletedRow, ⊥⟩ [⟨⟨2000, 0⟩, [], 1⟩] := by
  rintro ⟨hreads, -⟩
  have hsame := hreads 1 le_rfl
  have hT : ¬ (⟨2000, 0⟩ : Timestamp) ≤ ⊥ := by decide
  rw [max_eq_right bot_le, GCPass.after_engine hT, sameReads_prefix_iff] at hsame
  have hnext : (((⟨1001, 0⟩, none) :: rewrites 1000).map (gcItem [4]))[1 * gcChunkSize]? =
      some (gcItem [4] (⟨1, 0⟩, some [7])) := by
    rw [getElem?_map, show 1 * gcChunkSize = 999 + 1 from rfl, getElem?_cons_succ,
      getElem?_rewrites 0 999]
    rfl
  simp only [deletedRow_garbage] at hsame
  refine hsame _ hnext ⟨⟨[7], ?_⟩, ⟨⟨1001, 0⟩, rfl⟩, ?_⟩
  · exact mem_cons_of_mem _ (mem_of_getElem? (getElem?_rewrites 0 999))
  intro v hv
  rcases mem_cons.mp hv with heq | hv
  · cases heq
  · have hnext : ¬ (Timestamp.next ⟨2000, 0⟩).wallTime ≤ 1000 := by decide
    exact hnext (wallTime_of_mem_rewrites hv)

end DeletedRow

end Datax
