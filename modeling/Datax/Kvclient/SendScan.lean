import Datax.Storage.MvccExport

/-!
# Scans over several ranges

A scan is sent range by range, while ranges split and merge between its segments, and a
range may stop a segment at a byte target. Stitched together, the segments answer what one
scan of the whole span would.
-/

namespace Datax

open List

/-- The forward loop of `sendScan`. Every turn meets the range that ends at the given
key; `none` when the turns are used up before the scan is. -/
def sendScan (e : Engine) (stop : Key) (ts : Timestamp) (opts : MVCCGetOptions) (max : Nat) :
    List Key → Key → Nat → List KeyValue → Option (Except StorageError ScanResult)
  | [], cur, _, rows => if cur < stop then none else some (.ok ⟨rows, none⟩)
  | endKey :: turns, cur, remaining, rows =>
    if cur < stop then
      -- a range that does not hold `cur` sends the client back to look it up again
      if endKey ≤ cur then sendScan e stop ts opts max turns cur remaining rows
      else
        let stop' := min endKey stop
        match MVCCScan e cur stop' ts remaining opts with
        | .error err => some (.error err)
        | .ok sr =>
          let rows := rows ++ sr.kvs
          if 0 < max ∧ remaining ≤ sr.kvs.length then
            some (.ok ⟨rows, sr.resume <|> if stop' < stop then some stop' else none⟩)
          else sendScan e stop ts opts max turns (sr.resume.getD stop')
            (remaining - sr.kvs.length) rows
    else some (.ok ⟨rows, none⟩)

variable {e : Engine} {ts : Timestamp} {opts : MVCCGetOptions} {max remaining : Nat}
  {acc kvs : List KeyValue} {cur stop stop' : Key} {sr : ScanResult}

/-- A segment, which ended in `sr`, is a step of the whole scan, which held `acc` before it
and has no byte target. -/
theorem scanLoop_segment {es : List (Key × KeyHistory)} {bytes bytes' : Nat} {other : Option Key}
    {out : Except StorageError ScanResult} (hes : e.span cur stop' = es) (hlow : cur ≤ stop')
    (hhigh : stop' ≤ stop)
    (hmax : max = 0 ∧ remaining = 0 ∨ max = acc.length + remaining ∧ kvs.length < remaining)
    (hrun : scanLoop ts remaining opts es ⟨kvs, [], bytes⟩ = .ok sr) (hout :
      ∀ bytes, (if 0 < max ∧ remaining ≤ sr.kvs.length then .ok ⟨acc ++ sr.kvs, sr.resume <|> other⟩
      else scanLoop ts max { opts with targetBytes := 0 } (e.span (sr.resume.getD stop') stop)
        ⟨acc ++ sr.kvs, [], bytes⟩) = out) :
    scanLoop ts max { opts with targetBytes := 0 } (e.span cur stop)
      ⟨acc ++ kvs, [], bytes'⟩ = out := by
  have hspan := span_append e hlow hhigh
  induction es generalizing cur kvs bytes bytes' with
  | nil =>
    cases hrun
    rw [hspan, hes, nil_append, ← hout bytes', if_neg]
    · rfl
    dsimp only
    omega
  | cons p es ih =>
    rw [hes] at hspan
    have hnext : p.1.next ≤ stop' := by
      have hp : p ∈ e.span cur stop' := hes ▸ mem_cons_self
      exact not_lt.mp (Key.not_lt_next_of_lt (mem_span.mp hp).2.2)
    have hrest : e.span p.1.next stop' = es := (span_after (show _ = [] ++ [p] ++ es from hes)).symm
    have hcons : e.span cur stop = p :: e.span p.1.next stop := by
      rw [hspan, ← span_after (show _ = [] ++ [p] ++ _ from hspan)]
      rfl
    obtain ⟨key, h⟩ := p
    have hsame : mvccScanKey h key ts { opts with targetBytes := 0 } [] =
        mvccScanKey h key ts opts [] := rfl
    rw [hcons, scanLoop, hsame]
    unfold scanLoop at hrun
    split at hrun
    · cases hrun
    · rename_i value hkey
      rw [hkey]
      dsimp only at hrun ⊢
      rw [length_append, length_singleton] at hrun
      rw [append_assoc, length_append, length_append, length_singleton]
      split at hrun
      · cases hrun
        rw [← hout (bytes' + (key.length + value.length))]
        refine if_congr ?_ rfl rfl
        rw [length_append, length_singleton]
        omega
      · rename_i hmore
        rw [if_neg (by omega)]
        refine ih hrest hnext ?_ hrun (span_append e hnext hhigh)
        rw [length_append, length_singleton]
        omega
    · rename_i value intents hplain hkey
      cases intents with
      | cons intent intents => exact absurd hrun (scanLoop_conflicted (cons_ne_nil _ _))
      | nil =>
        cases value with
        | some value => exact absurd rfl (hplain value rfl)
        | none =>
          rw [hkey]
          exact ih hrest hnext hmax hrun (span_append e hnext hhigh)

theorem sendScan_run {turns : List Key} {rows : List KeyValue} {res : ScanResult} {bytes : Nat}
    (hmax : max = 0 ∧ remaining = 0 ∨ max = rows.length + remaining ∧ 0 < remaining)
    (hrun : sendScan e stop ts opts max turns cur remaining rows = some (.ok res)) :
    scanLoop ts max { opts with targetBytes := 0 } (e.span cur stop)
      ⟨rows, [], bytes⟩ = .ok res := by
  induction turns generalizing cur remaining rows bytes with
  | nil =>
    unfold sendScan at hrun
    split at hrun
    · cases hrun
    · rename_i hge
      cases hrun
      rw [span_eq_nil hge]
      rfl
  | cons endKey turns ih =>
    unfold sendScan at hrun
    split at hrun
    · rename_i hcur
      split at hrun
      · exact ih hmax hrun
      rename_i hend
      dsimp only at hrun
      split at hrun
      · cases hrun
      rename_i sr hsr
      rw [← append_nil rows]
      apply scanLoop_segment rfl (le_min (not_le.mp hend).le hcur.le) (min_le_right _ _) hmax hsr
      intro bytes
      split at hrun
      · rename_i hfull
        rw [if_pos hfull]
        exact Option.some.inj hrun
      · rename_i hmore
        rw [if_neg hmore]
        refine ih ?_ hrun
        rw [length_append]
        omega
    · rename_i hge
      cases hrun
      rw [span_eq_nil hge]
      rfl

/-- Whatever ranges its turns meet and wherever they stop at a byte target, a scan
that succeeds answers as one scan of the whole span without a byte target, to the
row and to the resume key. -/
theorem sendScan_eq_MVCCScan {turns : List Key} {start : Key} {res : ScanResult}
    (h : sendScan e stop ts opts max turns start max [] = some (.ok res)) :
    MVCCScan e start stop ts max { opts with targetBytes := 0 } = .ok res :=
  sendScan_run (by rw [length_nil]; omega) h

/-- The range is split at 2 between the first two segments, and merged before the third. -/
theorem sendScan_eq_MVCCScan_split :
    let e : Engine :=
  ⟨[[1], [2], [3]].map fun k => (k, ⟨none, ⟨[(⟨5, 0⟩, some [7])], by decide⟩⟩), by decide⟩
    sendScan e [9] ⟨6, 0⟩ { targetBytes := 1 } 2 [[3], [2], [9]] [1] 2 [] =
        some (.ok ⟨[⟨[1], [7]⟩, ⟨[2], [7]⟩], some [2, 0]⟩) ∧
      MVCCScan e [1] [9] ⟨6, 0⟩ 2 {} = .ok ⟨[⟨[1], [7]⟩, ⟨[2], [7]⟩], some [2, 0]⟩ :=
  (and_iff_left_of_imp sendScan_eq_MVCCScan).mpr (by decide)

end Datax
