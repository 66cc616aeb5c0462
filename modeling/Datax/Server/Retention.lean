import Datax.Hlc.Timestamp
import Datax.Sql.KeyDecode

/-!
# Row-level retention

In a range that a timeseries table shares with others, garbage collection ages rows by the timestamp
that ends their primary key, read off the key alone.
-/

namespace Datax

open List Scalar Encoding

def decodeTrailingTimestamp (rest : Key) (fams : List Family) : Option Int64 :=
  if fams.getLast? = some .timestamp then do
    let (tail, nanos) ← decodeInt64 (← fams.dropLast.foldlM skipDatum rest)
    if tail = [] then some nanos else none
  else none

/-- A table with retention: its primary-index prefixes, of every retained generation, and
the types of its primary key. -/
structure RetentionSpan where
  ttl : Int64
  prefixes : List Key
  pkFams : List Family

/-- The predicate of `rowExpiry`, on a key in the span of the table. -/
def RetentionSpan.rowExpired (ts : RetentionSpan) (nowNanos : Int64) (key : Key) (vts : Timestamp) :
    Bool :=
  let cutoff := nowNanos - ts.ttl
  -- written too recently, whatever the row says
  if cutoff.toInt < vts.wallTime then false
  else
    match ts.prefixes.find? (·.isPrefixOf key) with
    | none => false
    | some gen => (decodeTrailingTimestamp (key.drop gen.length) ts.pkFams).any (· ≤ cutoff)

section Rows
variable {vs : List Scalar} {ws : List Key} (hws : Forall₂ (fun v w => keyCode v = some w) vs ws)
include hws

theorem foldlM_skipDatum (rest : Key) : (vs.map fam).foldlM skipDatum (ws.flatten ++ rest) =
      if vs.all readable = true then some rest else none := by
  induction hws with
  | nil => rfl
  | @cons v w vs ws hw _ ih =>
    rw [map_cons, foldlM_cons, flatten_cons, append_assoc, skipDatum_keyCode hw, all_cons]
    cases v.readable with
    | false => rfl
    | true => exact ih

theorem decodeTrailingTimestamp_codes (nanos : Int64) :
    decodeTrailingTimestamp (ws.flatten ++ encodeInt64 nanos) (vs.map fam ++ [.timestamp]) =
      if vs.all readable = true then some nanos else none := by
  have hlast := @decodeInt64_encodeInt64 [] nanos
  rw [append_nil] at hlast
  rw [decodeTrailingTimestamp, if_pos getLast?_concat, dropLast_concat, foldlM_skipDatum hws]
  split
  · simp [hlast]
  · rfl

/-- A version of a stored row is aged out exactly when it and the row's own timestamp are past
the retention and the columns before the timestamp can be read. -/
theorem rowExpired_iff {ts : RetentionSpan} {gen : Key} (hgen : gen ∈ ts.prefixes)
    (hlen : ∀ p ∈ ts.prefixes, p.length = gen.length)
    (hfams : ts.pkFams = vs.map fam ++ [.timestamp]) (nanos nowNanos : Int64) (vts : Timestamp) :
    ts.rowExpired nowNanos (gen ++ (ws.flatten ++ encodeInt64 nanos)) vts = true ↔
      vts.wallTime ≤ (nowNanos - ts.ttl).toInt ∧ nanos ≤ nowNanos - ts.ttl ∧
      vs.all readable = true := by
  have hfind : ts.prefixes.find?
      (·.isPrefixOf (gen ++ (ws.flatten ++ encodeInt64 nanos))) = some gen := by
    cases h : ts.prefixes.find? (·.isPrefixOf (gen ++ (ws.flatten ++ encodeInt64 nanos))) with
    | none =>
      exact absurd ( isPrefixOf_iff_prefix.mpr (prefix_append _ _)) (find?_eq_none.mp h gen hgen)
    | some p =>
      have hp := find?_some h
      rw [ isPrefixOf_iff_prefix] at hp
      have hsame := hlen p (mem_of_find?_eq_some h)
      exact congrArg some
        ((prefix_of_prefix_length_le hp (prefix_append _ _) hsame.le).eq_of_length hsame)
  rw [RetentionSpan.rowExpired, hfind, ← not_lt]
  dsimp only
  rw [drop_left, hfams, decodeTrailingTimestamp_codes hws]
  split
  · simp_all
  · cases vs.all readable <;> simp_all

end Rows

theorem rowExpired_iff_string :
    RetentionSpan.rowExpired ⟨10, [tableIndexPrefix 53 1], [.string, .timestamp]⟩ 100
      (tableIndexPrefix 53 1 ++ ([encodeBytes [97]].flatten ++ encodeInt64 90)) ⟨90, 0⟩ = true := by
  have hws : Forall₂ (fun v w => keyCode v = some w) [.string [97]] [encodeBytes [97]] :=
    .cons rfl .nil
  exact (rowExpired_iff hws mem_cons_self (by decide) rfl 90 100 ⟨90, 0⟩).mpr (by decide)

end Datax
