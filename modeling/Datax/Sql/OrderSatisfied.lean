import Datax.Sql.OrderPlan

/-!
# Rows in the requested order

A plan whose order `orderPlan` calls satisfied returns rows in the requested order exactly
when no two of them spell one interval differently at the first term that tells them apart
with the terms after it against the order.
-/

namespace Datax

open List PrefixCode Encoding

variable {cols : List ColumnID} {rows : List FetchedRow}

section Satisfied
variable {convert : Datum → Family → Option Datum} {desc : TableDescriptor}
  {store : TableStore convert desc} {filter : Row → Option Bool} {plan : AccessPlan}

theorem AccessPlan.For.stamp (h : plan.For desc) (d : OrderDecision) : (plan.stamp d).For desc :=
  { index := h.index, fanned := h.fanned, pinned := h.pinned }

inductive Satisfied (desc : TableDescriptor) (plan : AccessPlan) (order : List OrderCol)
    (d : OrderDecision) : Prop
  | nothing (h : order = [])
  | single (h : plan.kind = .uniquePoint)
  | followed (out : Option Bool)
    (follows : follow desc ((plan.natural desc).take plan.idxVals.length) none
        ((plan.natural desc).drop ((plan.natural desc).take plan.idxVals.length).dedup.length)
        order = some out)
      (scans : ∀ dir, out = some dir →
        d.reverse = dir ∧ d.mergeFan = decide (plan.kind = .pkScan ∧ 0 < plan.fanBuckets))

variable {order : List OrderCol}

theorem orderPlan_satisfied {reverseOK : Bool}
    (h : (orderPlan desc plan order reverseOK).satisfied = true) :
    Satisfied desc plan order (orderPlan desc plan order reverseOK) := by
  unfold orderPlan at h ⊢
  split at h
  · rename_i hempty
    exact .nothing (isEmpty_iff.mp hempty)
  rename_i hne
  rw [if_neg hne]
  split at h
  · cases h
  rename_i hplain
  rw [if_neg hplain]
  split at h
  · rename_i hpoint
    exact .single hpoint
  rename_i hpoint
  rw [if_neg hpoint]
  simp only at h ⊢
  split at h
  · cases h
  · rename_i hfollow
    refine .followed none hfollow ?_
    simp
  · rename_i dir hfollow
    refine .followed (some dir) hfollow ?_
    split_ifs at h with hback
    intro dir' hdir'
    cases hdir'
    rw [if_neg hback]
    exact ⟨rfl, rfl⟩

theorem NotBehind.drop {reverse : Bool} {m n : Nat} {fr fr' : FetchedRow} (hmn : m ≤ n)
    (hsame : words (cols.take n) fr = words (cols.take n) fr')
    (h : NotBehind reverse (words cols fr) (words cols fr')) :
    NotBehind reverse ((cols.drop m).map (code fr.2)) ((cols.drop m).map (code fr'.2)) := by
  have hsplit : ∀ g : FetchedRow,
      words cols g = words (cols.take m) g ++ (cols.drop m).map (code g.2) := by
    intro g
    unfold words
    rw [← map_append, take_append_drop]
  have hstart : words (cols.take m) fr = words (cols.take m) fr' := by
    have htake : ∀ g : FetchedRow, words (cols.take m) g = (words (cols.take n) g).take m := by
      intro g
      rw [← words_take, take_take, min_eq_left hmn]
    rw [htake, htake, hsame]
  rw [hsplit fr, hsplit fr', hstart] at h
  unfold NotBehind at h ⊢
  cases reverse with
  | true | false =>
    exact not_lt.mp fun hlt => not_lt.mpr h ((append_lt_append_left_iff _ _ _).mpr hlt)

theorem followed_rows {d : OrderDecision} {limit : Nat} (hplan : plan.For desc)
    (hrun : executePlan convert store filter (plan.stamp d) limit = some rows) {out : Option Bool}
    (hfollow : follow desc ((plan.natural desc).take plan.idxVals.length) none
      ((plan.natural desc).drop ((plan.natural desc).take plan.idxVals.length).dedup.length)
      order = some out)
    (hscan : ∀ dir, out = some dir →
      d.reverse = dir ∧ d.mergeFan = decide (plan.kind = .pkScan ∧ 0 < plan.fanBuckets)) :
    (∀ fr ∈ rows, Scanned desc (plan.natural desc) fr.2) ∧ rows.Pairwise fun fr fr' =>
        inOrder convert desc order fr.2 fr'.2 = spellingsAgree convert desc order fr.2 fr'.2 ∧
          spellingsAgree convert desc order fr'.2 fr.2 = true := by
  obtain ⟨hdel, hword⟩ := executePlan_delivered (hplan.stamp d) hrun
  have hscanned : ∀ fr ∈ rows, Scanned desc (plan.natural desc) fr.2 := fun fr hfr =>
    { conforms := store.conforms fr (hdel.stored fr hfr), keyed := hdel.keyed fr hfr }
  refine ⟨hscanned, ?_⟩
  have hsame : ∀ fr ∈ rows, ∀ fr' ∈ rows, ∀ id ∈ (plan.natural desc).take plan.idxVals.length,
      fr.2 id = fr'.2 id := by
    intro fr hfr fr' hfr' id hid
    have hcode := map_inj_left.mp (hdel.pinned fr hfr fr' hfr') id hid
    have hmem := mem_of_mem_take hid
    exact row_eq_of_code_eq (hdel.keyed fr hfr id hmem) (hdel.keyed fr' hfr' id hmem) hcode
  have hmn : ((plan.natural desc).take plan.idxVals.length).dedup.length ≤ plan.idxVals.length :=
    (dedup_sublist _).length_le.trans (length_take_le _ _)
  have hpair : ∀ fr ∈ rows, ∀ fr' ∈ rows,
      (∀ dir, out = some dir →
        NotBehind dir (words (plan.natural desc) fr) (words (plan.natural desc) fr')) →
      inOrder convert desc order fr.2 fr'.2 = spellingsAgree convert desc order fr.2 fr'.2 ∧
        spellingsAgree convert desc order fr'.2 fr.2 = true := by
    intro fr hfr fr' hfr' hmet
    refine inOrder_eq_spellingsAgree (hscanned fr hfr) (hscanned fr' hfr') hfollow (take_subset _ _)
      (drop_subset _ _) (hsame fr hfr fr' hfr') ?_
    intro dir hdir
    exact (hmet dir hdir).drop hmn (hdel.pinned fr hfr fr' hfr')
  cases out with
  | none =>
    refine pairwise_of_forall_mem_list ?_
    intro fr hfr fr' hfr'
    refine hpair fr hfr fr' hfr' ?_
    simp
  | some dir =>
    obtain ⟨hrev, hmerge⟩ := hscan dir rfl
    -- A fan over the shards is merged.
    have hfan : (plan.stamp d).fanBuckets = 0 ∨ (plan.stamp d).mergeFan = true := by
      rcases Nat.eq_zero_or_pos plan.fanBuckets with hzero | hpos
      · exact .inl hzero
      refine .inr ?_
      change d.mergeFan = true
      rw [hmerge, decide_eq_true_iff]
      exact ⟨(hplan.fanned hpos).1, hpos⟩
    refine (hword hfan).imp_of_mem ?_
    intro fr fr' hfr hfr' hle
    refine hpair fr hfr fr' hfr' ?_
    intro dir' hdir'
    cases hdir'
    rw [← hrev]
    exact hle

theorem pairwise_inOrder (hscanned : ∀ fr ∈ rows, Scanned desc cols fr.2)
    (hcols : ∀ oc ∈ order, ∃ col, desc.col oc.column = some col ∧ col.id ∈ cols)
    (h : rows.IsChain fun fr fr' => inOrder convert desc order fr.2 fr'.2 = true) :
    rows.Pairwise fun fr fr' => inOrder convert desc order fr.2 fr'.2 = true := by
  let ordered (fr fr' : FetchedRow) : Prop :=
    Scanned desc cols fr.2 ∧ Scanned desc cols fr'.2 ∧ inOrder convert desc order fr.2 fr'.2 = true
  have htrans : Trans ordered ordered ordered :=
    ⟨fun hab hbc => ⟨hab.1, hbc.2.1, inOrder_trans hab.1 hab.2.1 hbc.2.1 hcols hab.2.2 hbc.2.2⟩⟩
  have hchain : rows.IsChain ordered :=
    h.imp_of_mem_imp fun fr fr' hfr hfr' hin => ⟨hscanned fr hfr, hscanned fr' hfr', hin⟩
  exact hchain.pairwise.imp fun hab => hab.2.2

/-- A plan that satisfies the order returns rows in that order exactly when no two of them spell
one interval differently with the later terms against them. -/
theorem satisfied_order_iff {plan : AccessPlan} {order : List OrderCol} {reverseOK : Bool}
    {limit : Nat} {rows : List FetchedRow} (hplan : plan.For desc)
    (hsat : (orderPlan desc plan order reverseOK).satisfied = true) (hrun : executePlan
      convert store filter (plan.stamp (orderPlan desc plan order reverseOK)) limit = some rows) :
    (rows.IsChain fun fr fr' => inOrder convert desc order fr.2 fr'.2 = true) ↔
      ∀ fr ∈ rows, ∀ fr' ∈ rows, spellingsAgree convert desc order fr.2 fr'.2 = true := by
  cases orderPlan_satisfied hsat with
  | nothing hnil =>
    subst hnil
    refine iff_of_true ?_ fun _ _ _ _ => rfl
    exact (pairwise_of_forall fun _ _ => rfl).isChain
  | single hpoint =>
    have hlen := (uniquePoint_single (show (plan.stamp _).kind = .uniquePoint from hpoint) hrun).2
    rcases Nat.le_one_iff_eq_zero_or_eq_one.mp hlen with hzero | hone
    · rw [length_eq_zero_iff.mp hzero]
      exact iff_of_true .nil fun fr hfr => absurd hfr not_mem_nil
    obtain ⟨only, honly⟩ := length_eq_one_iff.mp hone
    rw [honly]
    refine iff_of_true (.singleton _) ?_
    intro fr hfr fr' hfr'
    rw [mem_singleton.mp hfr, mem_singleton.mp hfr']
    exact spellingsAgree_self order _
  | followed out hfollow hscan =>
    obtain ⟨hscanned, hpairs⟩ := followed_rows hplan hrun hfollow hscan
    have hcols := follow_mem hfollow (take_subset _ _) (drop_subset _ _)
    constructor
    · intro hchain
      have hagree := (pairwise_inOrder hscanned hcols hchain).and hpairs
      refine List.Pairwise.forall_of_forall_of_flip ?_ ?_ ?_
      · intro fr _
        exact spellingsAgree_self order fr.2
      · exact hagree.imp fun hab => hab.2.1 ▸ hab.1
      · exact hagree.imp fun hab => hab.2.2
    · intro hall
      refine (hpairs.imp_of_mem ?_).isChain
      intro fr fr' hfr hfr' hpair
      rw [hpair.1]
      exact hall fr hfr fr' hfr'

end Satisfied

/-! ### A table keyed by an interval and a number -/

namespace Durations

def table : TableDescriptor :=
  { id := 100
    columns := [{ id := 1, name := "iv", fam := .interval }, { id := 2, name := "ts", fam := .int }]
    primaryKey := [1, 2] }

def noConvert : Datum → Family → Option Datum := fun _ _ => none

def row (iv : Interval) (ts : Int64) : Row := fun id =>
  if id = 1 then .scalar (.interval iv) else if id = 2 then .scalar (.int ts) else .null

theorem row_conforms (iv : Interval) (ts : Int64) : (row iv ts).Conforms table := by
  intro id col hcol
  have hmem := mem_of_find?_eq_some hcol
  have hid := find?_some hcol
  cases beq_iff_eq.mp hid
  rcases mem_cons.mp hmem with rfl | hmem
  · refine ⟨rfl, ?_⟩
    simp
  · rw [mem_singleton.mp hmem]
    refine ⟨rfl, ?_⟩
    simp

def stored (values : List (Interval × Int64)) : List FetchedRow :=
  values.map fun v => ((pkKey noConvert table (row v.1 v.2)).getD [], row v.1 v.2)

def store (values : List (Interval × Int64))
    (sorted : (stored values).Pairwise fun a b => a.1 < b.1) (keyed : ∀ v ∈ values,
      (pkKey noConvert table (row v.1 v.2)).isSome = true) : TableStore noConvert table where
  rows := stored values
  entries := fun _ => []
  rowsSorted := sorted
  entriesSorted := fun _ => List.Pairwise.nil
  conforms := by
    intro fr hfr
    obtain ⟨v, _, rfl⟩ := List.mem_map.mp hfr
    exact row_conforms v.1 v.2
  keyed := by
    intro fr hfr
    obtain ⟨v, hv, rfl⟩ := List.mem_map.mp hfr
    obtain ⟨k, hk⟩ := Option.isSome_iff_exists.mp (keyed v hv)
    change pkKey noConvert table (row v.1 v.2) =
      some ((pkKey noConvert table (row v.1 v.2)).getD [])
    rw [hk, Option.getD_some]
  indexed := by
    intro idx hidx
    cases hidx

def thirtyDays : Interval := { months := 0, days := 30, nanos := 0 }

def oneMonth : Interval := { months := 1, days := 0, nanos := 0 }

def byLengthThenNumber : List OrderCol := [{ column := "iv" }, { column := "ts" }]

def wholeTable : AccessPlan := { kind := .fullScan }

def scan (values : TableStore noConvert table) : Option (List FetchedRow) :=
  executePlan noConvert values (fun _ => some true)
    (wholeTable.stamp (orderPlan table wholeTable byLengthThenNumber true)) 0

/-- Thirty days come before a month in the keys: the numbers of such rows stay as they are. -/
def against : TableStore noConvert table :=
  store [(thirtyDays, 5), (oneMonth, 3)] (by decide +kernel) (by decide +kernel)

def along : TableStore noConvert table :=
  store [(thirtyDays, 3), (oneMonth, 5)] (by decide +kernel) (by decide +kernel)

theorem wholeTable_for : wholeTable.For table where
  index := by
    intro idx hidx
    cases hidx
  fanned := fun hpos => absurd hpos (lt_irrefl 0)
  pinned := fun _ => rfl

def ordered (rows : List FetchedRow) : Bool :=
  decide (rows.IsChain fun fr fr' => inOrder noConvert table byLengthThenNumber fr.2 fr'.2 = true)

def agreeing (rows : List FetchedRow) : Bool :=
  decide (∀ fr ∈ rows, ∀ fr' ∈ rows,
    spellingsAgree noConvert table byLengthThenNumber fr.2 fr'.2 = true)

/-- Five comes before three, although the two lengths compare equal. -/
theorem scan_against_disordered :
    (orderPlan table wholeTable byLengthThenNumber true).satisfied = true ∧
      ∃ rows, scan against = some rows ∧ ¬ rows.IsChain fun fr fr' =>
        inOrder noConvert table byLengthThenNumber fr.2 fr'.2 = true := by
  refine ⟨by decide, ?_⟩
  have htest : (scan against).any (fun rows => !ordered rows) = true := by decide +kernel
  obtain ⟨rows, hrows, hchain⟩ := (Option.any_eq_true _ _).mp htest
  exact ⟨rows, hrows, of_decide_eq_false ((Bool.not_eq_true' _).mp hchain)⟩

theorem scan_along_ordered : ∃ rows, scan along = some rows ∧ rows.length = 2 ∧
    rows.IsChain fun fr fr' => inOrder noConvert table byLengthThenNumber fr.2 fr'.2 = true := by
  have htest : (scan along).any (fun rows => rows.length == 2 && agreeing rows) = true := by
    decide +kernel
  obtain ⟨rows, hrows, hboth⟩ := (Option.any_eq_true _ _).mp htest
  obtain ⟨hlen, hagree⟩ := Bool.and_eq_true_iff.mp hboth
  refine ⟨rows, hrows, beq_iff_eq.mp hlen, ?_⟩
  exact (satisfied_order_iff wholeTable_for (by decide) hrows).mpr (of_decide_eq_true hagree)

end Durations

end Datax
