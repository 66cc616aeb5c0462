import Datax.Kvserver.GcSafety
import Datax.Storage.MvccExport

/-!
# Full and incremental backups

A backup collects the exports of a span page by page, cut at a number of records and at the
ends of the ranges, which may be others at every page. A restore applies the full backup and
then the increment: what a scan sees at the end of the increment, unless the full backup was
taken at the zero timestamp.
-/

namespace Datax

open Timestamp Option Function List

open Shared (Chain)

/-- The loop of `sendExport` over the ends of the ranges, the last range reaching
past the span; `max = 0` is unlimited. -/
def sendExport (e : Engine) (stop : Key) (startTS endTS : Timestamp) (max : Nat) :
    List Key → Key → Nat → List ExportedRecord → Except StorageError ExportResult
  | [], cur, remaining, out =>
    if cur < stop then
      match MVCCExport e cur stop startTS endTS remaining with
      | .error err => .error err
      | .ok er => .ok ⟨out ++ er.records, er.resume⟩
    else .ok ⟨out, none⟩
  | endKey :: ends, cur, remaining, out =>
    if cur < stop then
      -- the range that ends here does not hold `cur`
      if endKey ≤ cur then sendExport e stop startTS endTS max ends cur remaining out
      else
        let stop' := if endKey < stop then endKey else stop
        match MVCCExport e cur stop' startTS endTS remaining with
        | .error err => .error err
        | .ok er =>
          let out := out ++ er.records
          match er.resume with
          | some resume => .ok ⟨out, some resume⟩
          | none =>
            if 0 < max then
              if remaining ≤ er.records.length then
                .ok ⟨out, if stop' < stop then some stop' else none⟩
              else sendExport e stop startTS endTS max ends stop'
                (remaining - er.records.length) out
            else sendExport e stop startTS endTS max ends stop' remaining out
    else .ok ⟨out, none⟩

def ExportSpan (e : Engine) (ends : List Key) (start stop : Key) (startTS endTS : Timestamp)
    (max : Nat) :
    Except StorageError ExportResult :=
  sendExport e stop startTS endTS max ends start max []

/-- The pages of a backup; page `i` is cut at the range ends `ends i` and after
`limit i` records. `none` when the fuel does not reach the last page. -/
def exportAll (e : Engine) (ends : Nat → List Key) (limit : Nat → Nat) (stop : Key)
    (startTS endTS : Timestamp) :
    Nat → Nat → Key → Option (Except StorageError (List ExportedRecord))
  | 0, _, _ => none
  | fuel + 1, page, cur =>
    match ExportSpan e (ends page) cur stop startTS endTS (limit page) with
    | .error err => some (.error err)
    | .ok resp =>
      match resp.resume with
      | none => some (.ok resp.records)
      | some cur =>
        (exportAll e ends limit stop startTS endTS fuel (page + 1) cur).map fun rest =>
          rest.map (resp.records ++ ·)

def restore (target : Key → Option Bytes) (records : List ExportedRecord) : Key → Option Bytes :=
  records.foldl
    (fun m rec => Function.update m rec.key (if rec.deleted then none else some rec.value)) target

def ScanResult.lookup (res : ScanResult) (k : Key) : Option Bytes :=
  (res.kvs.find? fun kv => kv.key == k).map KeyValue.value

def snapshot (e : Engine) (start stop : Key) (ts : Timestamp) (k : Key) : Option Bytes :=
  if start ≤ k ∧ k < stop then valueAt (e.history k).versions ts else none

section Collect
variable {e : Engine} {start stop cur : Key} {startTS endTS : Timestamp} {max : Nat}

theorem sendExport_page (startTS : Timestamp) (ends : List Key) (remaining : Nat)
    (out : List ExportedRecord) (hclean :
      ∀ p ∈ e.span cur stop, exportConflict endTS p.1 p.2 = none) (hmax : max = 0 ↔ remaining = 0) :
    ∃ page, sendExport e stop startTS endTS max ends cur remaining out = .ok page ∧
      PageOf startTS endTS (e.span cur stop) out page := by
  induction ends generalizing cur remaining out with
  | nil =>
    unfold sendExport
    split
    · obtain ⟨page, hpage, ⟨done, rest, hsplit, hrecords, hend⟩, -⟩ :=
        exportLoop_page startTS hclean [] (Nat.eq_zero_or_pos remaining)
      rw [MVCCExport, hpage]
      exact ⟨_, rfl, done, rest, hsplit, congrArg (out ++ ·) hrecords, hend⟩
    · rename_i hge
      rw [span_eq_nil hge]
      exact ⟨_, rfl, PageOf.nil out⟩
  | cons endKey ends ih =>
    unfold sendExport
    split
    · rename_i hcur
      split
      · exact ih remaining out hclean hmax
      rename_i hend
      obtain ⟨stop', hstop', hlow, hhigh⟩ :
        ∃ stop', (if endKey < stop then endKey else stop) = stop' ∧
          cur ≤ stop' ∧ stop' ≤ stop := by
        split
        · rename_i hlt
          exact ⟨_, rfl, (not_le.mp hend).le, hlt.le⟩
        · exact ⟨_, rfl, hcur.le, le_rfl⟩
      rw [hstop', span_append e hlow hhigh] 
      rw [span_append e hlow hhigh] at hclean
      have htail : ∀ p ∈ e.span stop' stop, exportConflict endTS p.1 p.2 = none :=
        fun p hp => hclean p (mem_append_right _ hp)
      obtain ⟨er, her, ⟨done, rest, hsplit, hrecords, hends⟩, hshort⟩ :=
        exportLoop_page startTS (fun p hp => hclean p (mem_append_left _ hp)) []
          (Nat.eq_zero_or_pos remaining)
      rw [nil_append] at hrecords
      rw [← MVCCExport] at her
      dsimp only
      rw [her]
      dsimp only
      rcases hends with ⟨hnone, rfl⟩ | ⟨init, p, hdone, hresume⟩
      · -- the range is exhausted, and the page goes on in the next one
        rw [append_nil] at hsplit
        rw [hsplit]
        have hgo : ∀ remaining', (max = 0 ↔ remaining' = 0) →
            ∃ page, sendExport e stop startTS endTS max ends stop' remaining'
              (out ++ er.records) = .ok page ∧
              PageOf startTS endTS (done ++ e.span stop' stop) out page := by
          intro remaining' hmax'
          obtain ⟨page, hpage, hof⟩ :=
            ih remaining' (out ++ er.records) htail hmax'
          exact ⟨page, hpage, PageOf.append done hof (by rw [hrecords])⟩
        have hlt := hshort hnone
        rw [hnone]
        dsimp only
        split
        · rw [if_neg (by omega)]
          exact hgo _ (by omega)
        · exact hgo remaining hmax
      · rw [hresume]
        refine ⟨_, rfl, done, rest ++ e.span stop' stop, ?_, congrArg (out ++ ·) hrecords,
          .inr ⟨init, p, hdone, rfl⟩⟩
        rw [hsplit, append_assoc]
    · rename_i hge
      rw [span_eq_nil hge]
      exact ⟨_, rfl, PageOf.nil out⟩

theorem exportAll_eq (ends : Nat → List Key) (limit : Nat → Nat)
    (hclean : ∀ p ∈ e.span cur stop, exportConflict endTS p.1 p.2 = none) {fuel : Nat} (page : Nat)
    (hfuel : (e.span cur stop).length < fuel) :
    exportAll e ends limit stop startTS endTS fuel page cur =
      some (.ok (exportedRecords startTS endTS (e.span cur stop))) := by
  induction fuel generalizing cur page with
  | zero => exact absurd hfuel (Nat.not_lt_zero _)
  | succ fuel ih =>
    obtain ⟨resp, hresp, done, rest, hsplit, hrecords, hend⟩ :=
      sendExport_page startTS (ends page) (limit page) [] hclean Iff.rfl
    rw [nil_append] at hrecords
    unfold exportAll ExportSpan
    rw [hresp]
    dsimp only
    rcases hend with ⟨hnone, rfl⟩ | ⟨init, p, rfl, hresume⟩
    · rw [hnone, hrecords, hsplit, append_nil]
    -- the next page starts behind the last key of this one
    have hrest := span_after hsplit
    rw [hrest] at hsplit
    have hlen := congrArg List.length hsplit
    rw [length_append, length_append, length_singleton] at hlen
    have hclean' : ∀ q ∈ e.span p.1.next stop, exportConflict endTS q.1 q.2 = none := by
      intro q hq
      exact hclean q (by rw [hsplit]; exact mem_append_right _ hq)
    rw [hresume]
    dsimp only
    rw [ih hclean' (page + 1) (by omega), hrecords, hsplit,
      exportedRecords_append _ _ (init ++ [p])]
    rfl

end Collect

variable {p : Key × KeyHistory}

section Restore
variable {e : Engine} {start stop k : Key} {startTS endTS : Timestamp}
  {es : List (Key × KeyHistory)}

section
variable (target : Key → Option Bytes)
include target

theorem restore_of_notMem {records : List ExportedRecord}
    (h : ∀ rec ∈ records, rec.key ≠ k) : restore target records k = target k := by
  induction records generalizing target with
  | nil => rfl
  | cons rec records ih =>
    have hrest := ih (Function.update target rec.key (if rec.deleted then none else some rec.value))
      fun r hr => h r (mem_cons_of_mem rec hr)
    refine hrest.trans ?_
    exact update_of_ne (h rec mem_cons_self).symm _ _

theorem restore_append (records records' : List ExportedRecord) :
    restore target (records ++ records') = restore (restore target records) records' := foldl_append

theorem restore_exportRecord (cur : Key) (value : Option Bytes) :
    restore target [exportRecord cur value] cur = value := by
  cases value with
  | none => exact update_self cur none target
  | some data => exact update_self cur (some data) target

end

theorem restore_exported (hsorted : es.Pairwise fun a b => a.1 < b.1) (target : Key → Option Bytes)
    (hp : p ∈ es) :
    restore target (exportedRecords startTS endTS es) p.1 =
      (exportVersion startTS endTS p.2).getD (target p.1) := by
  obtain ⟨before, after, rfl⟩ := append_of_mem hp
  obtain ⟨-, hafter, hbefore⟩ := pairwise_append.mp hsorted
  have hquiet : ∀ (l : List (Key × KeyHistory)) (m : Key → Option Bytes), (∀ q ∈ l, q.1 ≠ p.1) →
      restore m (exportedRecords startTS endTS l) p.1 = m p.1 := by
    intro l m hl
    refine restore_of_notMem m ?_
    intro rec hrec
    obtain ⟨q, hq, hkey⟩ := key_of_mem_exportedRecords hrec
    rw [← hkey]
    exact hl q hq
  rw [← singleton_append, exportedRecords_append, exportedRecords_append, restore_append,
    restore_append, hquiet after _ fun q hq => ((pairwise_cons.mp hafter).1 q hq).ne']
  cases hv : exportVersion startTS endTS p.2 with
  | none =>
    have hone : exportedRecords startTS endTS [p] = [] := by simp [exportedRecords, hv]
    rw [hone]
    exact hquiet before target fun q hq => (hbefore q hq p mem_cons_self).ne
  | some value =>
    have hone : exportedRecords startTS endTS [p] = [exportRecord p.1 value] := by
      simp [exportedRecords, hv]
    rw [hone, restore_exportRecord]
    rfl

theorem exportVersion_empty : exportVersion startTS endTS KeyHistory.empty = none := by
  unfold exportVersion seekVersion
  split
  · rfl
  rename_i heq
  split at heq
  · cases heq
  · cases heq

theorem restore_span (e : Engine) (start stop : Key) (target : Key → Option Bytes) (k : Key) :
    restore target (exportedRecords startTS endTS (e.span start stop)) k =
      if start ≤ k ∧ k < stop then (exportVersion startTS endTS (e.history k)).getD (target k)
      else target k := by
  rcases span_key_cases e start stop k with ⟨p, hp, rfl, hspan, hhist⟩ | ⟨hmem, hhist⟩
  · rw [if_pos hspan, hhist]
    exact restore_exported (e.span_sorted start stop) target hp
  have hquiet : restore target (exportedRecords startTS endTS (e.span start stop))
      k = target k := by
    refine restore_of_notMem target ?_
    intro rec hrec
    obtain ⟨p, hp, hkey⟩ := key_of_mem_exportedRecords hrec
    rw [← hkey]
    exact hmem p hp
  rw [hquiet]
  split
  · rename_i hspan
    rw [hhist hspan, exportVersion_empty]
    rfl
  · rfl

end Restore

section Windows
variable {h : KeyHistory} {startTS endTS : Timestamp}

theorem exportVersion_eq (hend : endTS ≠ ⊥) : exportVersion startTS endTS h =
      (h.versions.upTo endTS).bind fun v => if v.1 ≤ startTS then none else some v.2 := by
  have hne : endTS.isEmpty = false := by
    rw [← Bool.not_eq_true, Timestamp.isEmpty_iff]
    exact hend
  unfold exportVersion seekVersion
  rw [hne, visible_bot]
  cases h.versions.upTo endTS with
  | none | some v => rfl

/-- No version has the zero timestamp, whose engine key is that of the intent record. -/
def KeyHistory.Timed (h : KeyHistory) : Prop := ∀ v ∈ h.versions.entries, v.1 ≠ ⊥

instance : DecidablePred KeyHistory.Timed :=
  fun h => inferInstanceAs (Decidable (∀ v ∈ h.versions.entries, v.1 ≠ ⊥))

theorem exportVersion_full (htimed : h.Timed) (hend : endTS ≠ ⊥) :
    (exportVersion ⊥ endTS h).getD none = valueAt h.versions endTS := by
  rw [exportVersion_eq hend, valueAt]
  cases hv : h.versions.upTo endTS with
  | none => rfl
  | some v =>
    have hmem : v ∈ h.versions.entries := (Chain.upTo_eq_some_iff_mem.mp hv).1
    rw [bind_some, if_neg (not_le.mpr (bot_lt_iff_ne_bot.mpr (htimed v hmem)))]
    rfl

theorem exportVersion_increment (hlt : startTS < endTS) :
    (exportVersion startTS endTS h).getD (valueAt h.versions startTS) =
      valueAt h.versions endTS := by
  rw [exportVersion_eq (bot_le.trans_lt hlt).ne', valueAt, valueAt]
  cases hv : h.versions.upTo endTS with
  | none =>
    have hnone : h.versions.upTo startTS = none := by
      rw [Chain.upTo_eq_none_iff] at hv ⊢
      exact fun v hmem => hlt.trans (hv v hmem)
    rw [hnone]
    rfl
  | some v =>
    rw [bind_some]
    split
    · rename_i hle
      have hsame : h.versions.upTo startTS = some v := by
        obtain ⟨_, newer, older, hsplit, hnewer⟩ := Chain.upTo_eq_some_iff.mp hv
        exact Chain.upTo_eq_some_iff.mpr
          ⟨hle, newer, older, hsplit, fun w hw => hlt.trans (hnewer w hw)⟩
      rw [hsame]
      rfl
    · rfl

theorem exportVersion_zero (htimed : h.Timed) : (exportVersion ⊥ ⊥ h).getD none =
      if h.intent = none then (h.versions.entries.head?).bind Prod.snd else none := by
  have hzero : (⊥ : Timestamp).isEmpty = true := Timestamp.isEmpty_iff.mpr rfl
  unfold exportVersion seekVersion
  rw [if_pos hzero]
  cases hi : h.intent with
  | some intent => rfl
  | none =>
    cases hv : h.versions.entries.head? with
    | none => rfl
    | some v =>
      have hnot : v.1.lessEq ⊥ = false := by
        rw [lessEq_eq_false_iff]
        exact bot_lt_iff_ne_bot.mpr (htimed v (mem_of_head? hv))
      dsimp only
      rw [hnot]
      rfl

theorem backup_key_zero_iff (htimed : h.Timed) (hlt : ⊥ < endTS) :
    (exportVersion ⊥ endTS h).getD ((exportVersion ⊥ ⊥ h).getD none) = valueAt h.versions endTS ↔
      (h.intent = none → h.versions.upTo endTS = none →
        ∀ v, h.versions.entries.head? = some v → v.2 = none) := by
  rw [exportVersion_zero htimed, exportVersion_eq hlt.ne', valueAt]
  cases hv : h.versions.upTo endTS with
  | some v =>
    have hmem : v ∈ h.versions.entries := (Chain.upTo_eq_some_iff_mem.mp hv).1
    rw [bind_some, if_neg (not_le.mpr (bot_lt_iff_ne_bot.mpr (htimed v hmem)))]
    constructor
    · simp
    · intro _
      rfl
  | none =>
    split
    · rename_i hi
      cases hhead : h.versions.entries.head? with
      | none => simp
      | some v => simp [hi]
    · rename_i hi
      simp [hi]

end Windows

variable {es : List (Key × KeyHistory)}

section Scans
variable {e : Engine} {start stop : Key} {ts : Timestamp}

def IntentsAbove (e : Engine) (start stop : Key) (ts : Timestamp) : Prop :=
  ∀ p ∈ e.span start stop, ∀ intent, p.2.intent = some intent → ts < intent.timestamp

instance (e : Engine) (start stop : Key) (ts : Timestamp) :
    Decidable (IntentsAbove e start stop ts) :=
  inferInstanceAs
    (Decidable (∀ p ∈ e.span start stop, ∀ intent ∈ p.2.intent, ts < intent.timestamp))

theorem mvccScanKey_plain {h : KeyHistory} {cur : Key}
    (habove : ∀ intent, h.intent = some intent → ts < intent.timestamp) :
    mvccScanKey h cur ts {} [] = .ok (valueAt h.versions ts, []) := by
  have hzero : (⊥ : Timestamp).isEmpty = true := Timestamp.isEmpty_iff.mpr rfl
  have hbeneath : ∀ skipAt, (∀ vts, skipped skipAt vts = true → ts < vts) →
      mvccScanKey.beneath h ts {} [] skipAt = .ok (valueAt h.versions ts, []) := by
    intro skipAt hskip
    have hvisible : visible h.versions ts skipAt = h.versions.upTo ts := by
      rw [← visible_bot]
      unfold visible
      congr 1
      funext vts
      cases hs : skipped skipAt vts with
      | false => simp [skipped, hzero]
      | true =>
        have hnot : vts.lessEq ts = false := by
          rw [lessEq_eq_false_iff]
          exact hskip vts hs
        simp [hnot]
    simp [mvccScanKey.beneath, uncertainVersion, hzero, hvisible, valueAt]
  unfold mvccScanKey
  cases hi : h.intent with
  | none =>
    refine hbeneath ⊥ ?_
    intro vts hs
    simp [skipped, hzero] at hs
  | some intent =>
    have hlt := habove intent hi
    have hview : viewIntent cur intent ts {} = .skipAt intent.timestamp := by
      have hless : ts.less ⊥ = false := by
        rw [less_eq_false_iff]
        exact bot_le
      have habv : intentAboveRead intent.timestamp ts ⊥ = true := by
        simp [intentAboveRead, hless, hlt]
      simp [viewIntent, viewIntent.foreign, habv]
    dsimp only
    rw [hview]
    refine hbeneath intent.timestamp ?_
    intro vts hs
    simp only [skipped, Bool.and_eq_true, beq_iff_eq] at hs
    rw [hs.2]
    exact hlt

theorem scanLoop_plain (st : ScanState) (hst : st.intents = [])
    (habove : ∀ p ∈ es, ∀ intent, p.2.intent = some intent → ts < intent.timestamp) :
    scanLoop ts 0 {} es st =
      .ok ⟨st.kvs ++ es.filterMap fun p =>
        (valueAt p.2.versions ts).map (KeyValue.mk p.1), none⟩ := by
  induction es generalizing st with
  | nil =>
    unfold scanLoop
    rw [if_pos hst, filterMap_nil, append_nil]
  | cons p es ih =>
    obtain ⟨cur, h⟩ := p
    have hes : ∀ q ∈ es, ∀ intent, q.2.intent = some intent → ts < intent.timestamp :=
      fun q hq => habove q (mem_cons_of_mem _ hq)
    unfold scanLoop
    rw [hst, mvccScanKey_plain (habove (cur, h) mem_cons_self)]
    cases hv : valueAt h.versions ts with
    | none =>
      dsimp only
      rw [ih { st with intents := [] } rfl hes]
      simp [hv]
    | some value =>
      dsimp only
      rw [if_neg (by simp), ih _ rfl hes]
      simp [hv]

theorem find_live (ts : Timestamp) (hsorted : es.Pairwise fun a b => a.1 < b.1) (k : Key) :
    (((es.filterMap fun p => (valueAt p.2.versions ts).map (KeyValue.mk p.1)).find?
        fun kv => kv.key == k).map KeyValue.value) =
      (es.find? fun p => p.1 == k).bind fun p => valueAt p.2.versions ts := by
  induction es with
  | nil => rfl
  | cons p es ih =>
    obtain ⟨hhead, hes⟩ := pairwise_cons.mp hsorted
    have ih := ih hes
    by_cases hk : p.1 = k
    · have hlater : es.find? (fun p => p.1 == k) = none := by
        rw [find?_eq_none]
        intro q hq
        simpa using (hk ▸ hhead q hq).ne'
      rw [hlater] at ih
      cases hv : valueAt p.2.versions ts with
      | none => simpa [hv, hk] using ih
      | some value => simp [hv, hk]
    · cases hv : valueAt p.2.versions ts with
      | none | some value => simpa [hv, hk] using ih

theorem MVCCScan_eq_snapshot (habove : IntentsAbove e start stop ts) :
    ∃ res, MVCCScan e start stop ts 0 {} = .ok res ∧ res.resume = none ∧
      res.lookup = snapshot e start stop ts := by
  refine ⟨_, scanLoop_plain ⟨[], [], 0⟩ rfl habove, rfl, ?_⟩
  funext k
  have hlive := find_live ts (e.span_sorted start stop) k
  unfold ScanResult.lookup snapshot
  refine hlive.trans ?_
  rcases span_key_cases e start stop k with ⟨p, hp, rfl, hspan, hhist⟩ | ⟨hmem, hhist⟩
  · have hfind : (e.span start stop).find? (fun q => q.1 == p.1) = some p := by
      obtain ⟨before, after, hsplit⟩ := append_of_mem hp
      have hsorted := e.span_sorted start stop
      rw [hsplit, pairwise_append] at hsorted
      rw [hsplit, find?_append, find?_eq_none.mpr, none_or, find?_cons_of_pos (by simp)]
      intro q hq
      simpa using (hsorted.2.2 q hq p mem_cons_self).ne
    rw [hfind, if_pos hspan, hhist]
    rfl
  · rw [find?_eq_none.mpr fun q hq => by simpa using hmem q hq]
    split
    · rename_i hspan
      rw [hhist hspan]
      rfl
    · rfl

end Scans

variable {ts : Timestamp}

section Increments
variable {e : Engine} {start stop : Key} {T₁ T₂ : Timestamp}

section
variable (h : IntentsAbove e start stop ts)
include h

theorem IntentsAbove.mono {ts' : Timestamp} (hle : ts' ≤ ts) :
    IntentsAbove e start stop ts' := fun p hp intent hi => hle.trans_lt (h p hp intent hi)

theorem IntentsAbove.exportConflict (hp : p ∈ e.span start stop) :
    exportConflict ts p.1 p.2 = none := by
  unfold Datax.exportConflict
  cases hi : p.2.intent with
  | none => rfl
  | some intent =>
    have hless : ts.less intent.timestamp = true := h p hp intent hi
    rw [bind_some, hless]
    rfl

theorem exportAll_span {startTS : Timestamp} (ends : Nat → List Key)
    (limit : Nat → Nat) : exportAll e ends limit stop startTS ts (e.entries.length + 1) 0 start =
      some (.ok (exportedRecords startTS ts (e.span start stop))) := by
  refine exportAll_eq ends limit (fun p hp => h.exportConflict hp) 0 ?_
  exact Nat.lt_succ_of_le (length_filter_le _ _)

end

theorem restore_full (hend : T₁ ≠ ⊥) (htimed : ∀ p ∈ e.span start stop, p.2.Timed) :
    restore (fun _ => none) (exportedRecords ⊥ T₁ (e.span start stop)) =
      snapshot e start stop T₁ := by
  funext k
  rw [restore_span, snapshot]
  split
  · rename_i hspan
    refine exportVersion_full ?_ hend
    rcases span_key_cases e start stop k with ⟨p, hp, rfl, -, hhist⟩ | ⟨-, hhist⟩
    · rw [hhist]
      exact htimed p hp
    · rw [hhist hspan]
      intro v hv
      cases hv
  · rfl

theorem restore_increment (hlt : T₁ < T₂) :
    restore (snapshot e start stop T₁) (exportedRecords T₁ T₂ (e.span start stop)) =
      snapshot e start stop T₂ := by
  funext k
  rw [restore_span, snapshot, snapshot]
  split
  · exact exportVersion_increment hlt
  · rfl

/-- A key without an intent that is live now, although nothing was written to it up to `ts`. -/
def WrittenLater (h : KeyHistory) (ts : Timestamp) : Prop :=
  h.intent = none ∧ h.versions.upTo ts = none ∧
    ∃ vts data, h.versions.entries.head? = some (vts, some data)

/-- A full backup at the zero timestamp and an increment are a backup exactly when no
key of the span was written later only. -/
theorem restore_zero_iff (hlt : ⊥ < T₂) (htimed : ∀ p ∈ e.span start stop, p.2.Timed) :
    restore (restore (fun _ => none) (exportedRecords ⊥ ⊥ (e.span start stop)))
        (exportedRecords ⊥ T₂ (e.span start stop)) = snapshot e start stop T₂ ↔
      ∀ p ∈ e.span start stop, ¬ WrittenLater p.2 T₂ := by
  have hkey : ∀ p ∈ e.span start stop,
      (exportVersion ⊥ T₂ p.2).getD ((exportVersion ⊥ ⊥ p.2).getD none) = valueAt p.2.versions T₂ ↔
        ¬ WrittenLater p.2 T₂ := by
    intro p hp
    rw [backup_key_zero_iff (htimed p hp) hlt]
    constructor
    · rintro hall ⟨hi, hnone, vts, data, hhead⟩
      cases hall hi hnone _ hhead
    intro hnot hi hnone v hhead
    obtain ⟨vts, value⟩ := v
    cases value with
    | none => rfl
    | some data => exact absurd ⟨hi, hnone, vts, data, hhead⟩ hnot
  constructor
  · intro heq p hp
    obtain ⟨hentry, hspan⟩ := mem_span.mp hp
    have hat := congrFun heq p.1
    rw [restore_span, restore_span, snapshot, if_pos hspan, if_pos hspan, if_pos hspan,
      Engine.history_of_mem hentry] at hat
    exact (hkey p hp).mp hat
  · intro hnone
    funext k
    rw [restore_span, restore_span, snapshot]
    rcases span_key_cases e start stop k with ⟨p, hp, rfl, hspan, hhist⟩ | ⟨-, hhist⟩
    · rw [if_pos hspan, if_pos hspan, if_pos hspan, hhist]
      exact (hkey p hp).mpr (hnone p hp)
    split
    · rename_i hspan
      rw [hhist hspan, exportVersion_empty, exportVersion_empty]
      rfl
    · rfl

/-- A full backup and an increment, whatever their pages, restore what a scan sees at
the end of the increment, if and only if the full backup was not taken at the zero
timestamp or no key was written later only. -/
theorem backup_restores_iff (e : Engine) (start stop : Key) (hlt : T₁ < T₂)
    (htimed : ∀ p ∈ e.span start stop, p.2.Timed) (habove : IntentsAbove e start stop T₂)
    (ends ends' : Nat → List Key) (limit limit' : Nat → Nat) : ∃ full increment res,
      exportAll e ends limit stop ⊥ T₁ (e.entries.length + 1) 0 start = some (.ok full) ∧
      exportAll e ends' limit' stop T₁ T₂ (e.entries.length + 1) 0 start = some (.ok increment) ∧
      MVCCScan e start stop T₂ 0 {} = .ok res ∧ res.resume = none ∧
      (restore (restore (fun _ => none) full) increment = res.lookup ↔
        T₁ ≠ ⊥ ∨ ∀ p ∈ e.span start stop, ¬ WrittenLater p.2 T₂) := by
  obtain ⟨res, hres, hresume, hlookup⟩ := MVCCScan_eq_snapshot habove
  refine ⟨_, _, res, exportAll_span (habove.mono hlt.le) ends limit,
    exportAll_span habove ends' limit', hres, hresume, ?_⟩
  rw [hlookup]
  by_cases hzero : T₁ = ⊥
  · rw [hzero] at hlt ⊢
    rw [restore_zero_iff hlt htimed]
    constructor
    · exact .inr
    rintro (hne | hnone)
    · exact absurd rfl hne
    · exact hnone
  · rw [restore_full hzero htimed, restore_increment hlt]
    exact ⟨fun _ => .inl hzero, fun _ => rfl⟩

end Increments

section Examples

/-- One row written at 5 and deleted at 15, one written at 12. -/
private def rows : Engine :=
  ⟨[([1], ⟨none, ⟨[(⟨15, 0⟩, none), (⟨5, 0⟩, some [7])], by decide⟩⟩),
    ([2], ⟨none, ⟨[(⟨30, 0⟩, some [9]), (⟨12, 0⟩, some [8])], by decide⟩⟩)], by decide⟩

theorem backup_restores_rows : ∃ full increment res,
      exportAll rows (fun _ => [[2]]) (fun _ => 1) [9] ⊥ ⟨10, 0⟩ 3 0 [] = some (.ok full) ∧
      exportAll rows (fun _ => []) (fun _ => 0) [9] ⟨10, 0⟩ ⟨20, 0⟩ 3 0 [] = some (.ok increment) ∧
      MVCCScan rows [] [9] ⟨20, 0⟩ 0 {} = .ok res ∧
      restore (restore (fun _ => none) full) increment = res.lookup := by
  have hlt : (⟨10, 0⟩ : Timestamp) < ⟨20, 0⟩ := by decide
  obtain ⟨full, increment, res, hfull, hincrement, hres, -, hiff⟩ :=
    backup_restores_iff rows [] [9] hlt (by decide) (by decide) (fun _ => [[2]]) (fun _ => [])
      (fun _ => 1) (fun _ => 0)
  exact ⟨full, increment, res, hfull, hincrement, hres, hiff.mpr (.inl (by decide))⟩

/-- A full backup at the zero timestamp takes a row that is written after the increment. -/
theorem zero_backup_reads_ahead : ∃ full increment res,
      exportAll rows (fun _ => []) (fun _ => 0) [9] ⊥ ⊥ 3 0 [] = some (.ok full) ∧
      exportAll rows (fun _ => []) (fun _ => 0) [9] ⊥ ⟨10, 0⟩ 3 0 [] = some (.ok increment) ∧
      MVCCScan rows [] [9] ⟨10, 0⟩ 0 {} = .ok res ∧
      restore (restore (fun _ => none) full) increment [2] = some [9] ∧ res.lookup [2] = none :=
  ⟨_, _, _, rfl, rfl, rfl, by decide, by decide⟩

end Examples

end Datax
