import Datax.Sql.ScanOrder

/-!
# Scans of a sharded table

A sharded table is scanned bucket by bucket. Merged by the key bytes after the bucket, the rows come
in the order of the primary key without the bucket.
-/

namespace Datax

open Option (bind_eq_some_iff map_eq_some_iff)

open List PrefixCode Encoding AccessPlan TableStore Option

/-! ### Merging the runs of the buckets -/

variable {runs' : List (List FetchedRow)} {best : FetchedRow}

section Merge
variable {before : Key → Key → Bool}

/-- Nothing in the second comes before the first. -/
def NotAfter (before : Key → Key → Bool) (a b : FetchedRow) : Prop := before b.1 a.1 = false

variable {runs : List (List FetchedRow)}

theorem bestRun_eq_none (h : bestRun before runs = none) : runs.flatten = [] := by
  induction runs with
  | nil => rfl
  | cons run runs ih =>
    cases run with
    | nil =>
      rw [bestRun, map_eq_none_iff] at h
      exact ih h
    | cons fr frs =>
      rw [bestRun] at h
      split at h
      · split at h <;> cases h
      · cases h

theorem bestRun_perm (h : bestRun before runs = some (best, runs')) :
    (best :: runs'.flatten).Perm runs.flatten := by
  induction runs generalizing runs' best with
  | nil => cases h
  | cons run runs ih =>
    cases run with
    | nil =>
      obtain ⟨⟨best', rest⟩, hp, h⟩ := map_eq_some_iff.mp h
      cases h
      have hperm := ih hp
      exact hperm
    | cons fr frs =>
      rw [bestRun] at h
      split at h
      · rename_i hother
        split at h <;> cases h
        · exact perm_middle.symm.trans ((ih hother).append_left (fr :: frs))
        · rfl
      · cases h
        rfl

section
variable (hasymm : ∀ a b, before a b = true → before b a = false)
  (htrans : ∀ a b c : FetchedRow, NotAfter before a b → NotAfter before b c → NotAfter before a c)
include hasymm htrans

theorem bestRun_spec
    (hruns : ∀ run ∈ runs, run.Pairwise (NotAfter before))
    (h : bestRun before runs = some (best, runs')) :
    (∀ x ∈ runs'.flatten, NotAfter before best x) ∧
      ∀ run ∈ runs', run.Pairwise (NotAfter before) := by
  induction runs generalizing runs' best with
  | nil => cases h
  | cons run runs ih =>
    obtain ⟨hrun, hrest⟩ := forall_mem_cons.mp hruns
    cases run with
    | nil =>
      obtain ⟨⟨best', rest⟩, hp, h⟩ := map_eq_some_iff.mp h
      cases h
      obtain ⟨hall, hsorted⟩ := ih hrest hp
      exact ⟨hall, forall_mem_cons.mpr ⟨List.Pairwise.nil, hsorted⟩⟩
    | cons fr frs =>
      obtain ⟨hhead, htail⟩ := pairwise_cons.mp hrun
      rw [bestRun] at h
      split at h
      · rename_i other others hother
        obtain ⟨hall, hsorted⟩ := ih hrest hother
        split at h
        · rename_i hbefore
          cases h
          have hfr : NotAfter before best fr := hasymm _ _ hbefore
          refine ⟨forall_mem_append.mpr ⟨?_, hall⟩, forall_mem_cons.mpr ⟨hrun, hsorted⟩⟩
          exact forall_mem_cons.mpr ⟨hfr, fun x hx => htrans _ _ _ hfr (hhead x hx)⟩
        · rename_i hbefore
          cases h
          have hfr : NotAfter before best other := (Bool.not_eq_true _).mp hbefore
          refine ⟨forall_mem_append.mpr ⟨hhead, fun x hx => ?_⟩, forall_mem_cons.mpr ⟨htail, hrest⟩⟩
          rcases mem_cons.mp ((bestRun_perm hother).mem_iff.mpr hx) with rfl | hx
          · exact hfr
          · exact htrans _ _ _ hfr (hall x hx)
      · rename_i hnone
        cases h
        refine ⟨forall_mem_append.mpr ⟨hhead, ?_⟩, forall_mem_cons.mpr ⟨htail, hrest⟩⟩
        rw [bestRun_eq_none hnone]
        exact forall_mem_nil _

theorem mergeRuns_spec (fuel : Nat) (hruns : ∀ run ∈ runs, run.Pairwise (NotAfter before)) :
    (mergeRuns before fuel runs).Pairwise (NotAfter before) ∧ ∀ x ∈ mergeRuns before fuel runs,
      x ∈ runs.flatten := by
  induction fuel generalizing runs with
  | zero => exact ⟨List.Pairwise.nil, forall_mem_nil _⟩
  | succ fuel ih =>
    rw [mergeRuns]
    split
    · exact ⟨List.Pairwise.nil, forall_mem_nil _⟩
    rename_i best runs' hbest
    obtain ⟨hall, hsorted⟩ := bestRun_spec hasymm htrans hruns hbest
    obtain ⟨hpair, hsub⟩ := ih hsorted
    constructor
    · exact pairwise_cons.mpr ⟨fun x hx => hall x (hsub x hx), hpair⟩
    · intro x hx
      exact (bestRun_perm hbest).mem_iff.mp (cons_subset_cons best hsub hx)

end

end Merge

abbrev suffixStart (desc : TableDescriptor) : Nat := (primaryKeyPrefixFor desc).length + 8

variable {span : Key × Key}

section Fan
variable {convert : Datum → Family → Option Datum} {desc : TableDescriptor}
  {store : TableStore convert desc} {filter : Row → Option Bool}

theorem suffixBefore_asymm (n : Nat) (reverse : Bool) (a b : Key)
    (h : suffixBefore n reverse a b = true) :
    suffixBefore n reverse b a = false := by
  cases reverse with
  | true | false => exact decide_eq_false (not_lt.mpr (le_of_lt (of_decide_eq_true h)))

theorem notAfter_iff (n : Nat) (reverse : Bool) (a b : FetchedRow) :
    NotAfter (suffixBefore n reverse) a b ↔
      if reverse then b.1.drop n ≤ a.1.drop n else a.1.drop n ≤ b.1.drop n := by
  cases reverse with
  | true | false => exact decide_eq_false_iff_not.trans not_lt

theorem notAfter_trans (n : Nat) (reverse : Bool) (a b c : FetchedRow)
    (hab : NotAfter (suffixBefore n reverse) a b) (hbc : NotAfter (suffixBefore n reverse) b c) :
    NotAfter (suffixBefore n reverse) a c := by
  rw [notAfter_iff] at hab hbc ⊢
  cases reverse with
  | true => exact le_trans hbc hab
  | false => exact le_trans hab hbc

theorem TableDescriptor.shard_column (hsharded : 0 < desc.shardBuckets) :
    ∃ shard col, desc.primaryKey = shard :: desc.primaryKey.tail ∧ desc.colByID shard = some col ∧
      col.fam = .int := by
  obtain ⟨shard, hhead, hfam⟩ := desc.sharded hsharded
  obtain ⟨col, hcol, hint⟩ := map_eq_some_iff.mp hfam
  refine ⟨shard, col, ?_, hcol, hint⟩
  obtain ⟨rest, hrest⟩ := head?_eq_some_iff.mp hhead
  rw [hrest]
  rfl

theorem length_of_isCode_int {w : Key} (h : IsCode .int w) : w.length = 8 := by
  obtain ⟨v, hfam, hcode⟩ := h
  cases v <;> cases hfam
  cases hcode
  exact length_encodeInt64 _

theorem drop_bucket (hsharded : 0 < desc.shardBuckets) {fr : FetchedRow} (hfr : fr ∈ store.rows) :
    fr.1.drop (suffixStart desc) = (words desc.primaryKey.tail fr).flatten := by
  obtain ⟨shard, col, hpk, hcol, hint⟩ := TableDescriptor.shard_column hsharded
  obtain ⟨hkeyed, hkey⟩ := key_eq hfr
  obtain ⟨col', v, hcol', _, hfam, hcode⟩ := (hkeyed shard (by rw [hpk]; exact mem_cons_self)).value
  cases hcol.symm.trans hcol'
  have hlen : (code fr.2 shard).length = 8 := length_of_isCode_int ⟨v, hfam.trans hint, hcode⟩
  have hsplit : words desc.primaryKey fr = code fr.2 shard :: words desc.primaryKey.tail fr := by
    rw [hpk]
    rfl
  rw [hkey, hsplit, flatten_cons, ← append_assoc, drop_left' (by rw [length_append, hlen])]

variable {plan : AccessPlan} {limit : Nat}

theorem bucket_delivered {b : Nat} {run : List FetchedRow} {ws : List Key}
    (hsharded : 0 < desc.shardBuckets)
    (hws : WordsOf desc (desc.primaryKey.tail.take plan.idxVals.length) ws)
    (hspan : ∀ k, span.1 ≤ k → k < span.2 → bucketPrefix desc b ++ ws.flatten <+: k)
    (h : scanPrimarySpan convert store filter plan span limit = some run) :
    run.Pairwise (NotAfter (suffixBefore (suffixStart desc) plan.reverse)) ∧
      ∀ fr ∈ run, fr ∈ store.rows ∧
        words (desc.primaryKey.tail.take plan.idxVals.length) fr = ws := by
  obtain ⟨shard, col, hpk, hcol, hint⟩ := TableDescriptor.shard_column hsharded
  have hbucket : WordsOf desc (desc.primaryKey.take (plan.idxVals.length + 1))
      (encodeInt64 (Int64.ofNat b) :: ws) := by
    rw [hpk, take_succ_cons]
    exact List.Forall₂.cons ⟨col, hcol, .int (Int64.ofNat b), hint.symm, rfl⟩ hws
  obtain ⟨hsorted, hmem⟩ := scanPrimarySpan_spec h
  have hbegin : ∀ fr ∈ run, fr.1.take (suffixStart desc) = bucketPrefix desc b := by
    intro fr hfr
    obtain ⟨_, hlo, hhi⟩ := hmem fr hfr
    obtain ⟨rest, hrest⟩ := hspan fr.1 hlo hhi
    have hlen : (bucketPrefix desc b).length = suffixStart desc := by
      unfold bucketPrefix
      rw [length_append, length_encodeInt64]
    rw [← hrest, append_assoc, ← hlen, take_left]
  have hkeys : ∀ a ∈ run, ∀ c ∈ run, a.1 < c.1 →
      a.1.drop (suffixStart desc) ≤ c.1.drop (suffixStart desc) := by
    intro a ha c hc hlt
    rw [← take_append_drop (suffixStart desc) a.1,
      ← take_append_drop (suffixStart desc) c.1, hbegin a ha, hbegin c hc] at hlt
    exact le_of_lt ((append_lt_append_left_iff _ _ _).mp hlt)
  constructor
  · refine hsorted.imp_of_mem fun {a c} ha hc hac => ?_
    rw [notAfter_iff]
    exact ordered_imp hac (hkeys c hc a ha) (hkeys a ha c hc)
  · intro fr hfr
    refine ⟨(hmem fr hfr).1, ?_⟩
    have htake := scanned_words hbucket hspan h fr hfr
    rw [hpk, take_succ_cons] at htake
    exact (List.cons.inj htake).2

theorem pkScanSpan_prefix {x : Key}
    (h : plan.pkScanSpan convert desc (primaryKeyPrefixFor desc ++ x) = some span) :
    ∃ ws, WordsOf desc ((plan.pkColumns desc).take plan.idxVals.length) ws ∧
      (∀ k, appendPinned convert desc k (plan.pkColumns desc) plan.idxVals =
        some (k ++ ws.flatten)) ∧
      ∀ k, span.1 ≤ k → k < span.2 → primaryKeyPrefixFor desc ++ x ++ ws.flatten <+: k := by
  obtain ⟨pinned, hpinned, h⟩ := bind_eq_some_iff.mp h
  obtain ⟨ws, hws, hall⟩ := appendPinned_words hpinned
  refine ⟨ws, hws, hall, fun k hlo hhi => ?_⟩
  cases (hall _).symm.trans hpinned
  exact prefix_of_spanBounds (by decide) h hlo hhi

variable {out : List FetchedRow}

theorem mem_of_fetchByPrimaryKey {pk : Key}
    (h : fetchByPrimaryKey convert store filter pk = some out) :
    (∀ fr ∈ out, fr ∈ store.rows) ∧ out.length ≤ 1 := by
  unfold fetchByPrimaryKey at h
  split at h
  · cases h
    exact ⟨forall_mem_nil _, Nat.zero_le 1⟩
  rename_i raw hraw
  obtain ⟨row, hdec, h⟩ := bind_eq_some_iff.mp h
  obtain ⟨ok, _, h⟩ := bind_eq_some_iff.mp h
  cases h
  have hrow : row = raw := decodeFullRow_eq (get_eq_some hraw) hdec
  split
  · rw [hrow]
    exact ⟨forall_mem_singleton.mpr (get_eq_some hraw), Nat.le_refl 1⟩
  · exact ⟨forall_mem_nil _, Nat.zero_le 1⟩

theorem uniquePoint_single (hkind : plan.kind = .uniquePoint)
    (h : executePlan convert store filter plan limit = some out) :
    (∀ fr ∈ out, fr ∈ store.rows) ∧ out.length ≤ 1 := by
  unfold executePlan at h
  rw [hkind] at h
  obtain ⟨idx, _, h⟩ := bind_eq_some_iff.mp h
  obtain ⟨key, _, h⟩ := bind_eq_some_iff.mp h
  split at h
  · cases h
    exact ⟨forall_mem_nil _, Nat.zero_le 1⟩
  · dsimp only at h
    split_ifs at h
    exact mem_of_fetchByPrimaryKey h

theorem single_delivered {cols : List ColumnID} {n : Nat} {reverse : Bool}
    (hkeyed : ∀ fr ∈ store.rows, ∀ id ∈ cols, Keyed desc fr.2 id)
    (h : (∀ fr ∈ out, fr ∈ store.rows) ∧ out.length ≤ 1) :
    Delivered store cols n out ∧ InWordOrder cols reverse out := by
  obtain ⟨hstored, hlen⟩ := h
  have hsame : ∀ fr ∈ out, ∀ fr' ∈ out, fr = fr' := by
    intro fr hfr fr' hfr'
    cases out with
    | nil => exact absurd hfr not_mem_nil
    | cons x xs =>
      obtain rfl : xs = [] := length_eq_zero_iff.mp (by rw [length_cons] at hlen; omega)
      rw [mem_singleton.mp hfr, mem_singleton.mp hfr']
  constructor
  · exact
      { stored := hstored
        keyed := fun fr hfr => hkeyed fr (hstored fr hfr)
        pinned := fun fr hfr fr' hfr' => by rw [hsame fr hfr fr' hfr'] }
  · refine pairwise_of_forall_mem_list fun fr hfr fr' hfr' => ?_
    rw [hsame fr hfr fr' hfr']
    split <;> exact le_refl _

theorem pkScan_delivered (hkind : plan.kind = .pkScan)
    (hfan : plan.fanBuckets = 0) (h : executePlan convert store filter plan limit = some out) :
    Delivered store desc.primaryKey plan.idxVals.length out ∧
      InWordOrder desc.primaryKey plan.reverse out := by
  unfold executePlan at h
  rw [hkind] at h
  obtain ⟨spans, hspans, h⟩ := bind_eq_some_iff.mp h
  obtain ⟨runs, hruns, h⟩ := bind_eq_some_iff.mp h
  rw [if_pos hfan] at h
  cases h
  unfold pkScanSpans at hspans
  rw [if_pos hfan] at hspans
  obtain ⟨span, hspan, rfl⟩ := map_eq_some_iff.mp hspans
  have hcols : plan.pkColumns desc = desc.primaryKey := if_neg (by omega)
  have hall := mapM_forall₂ hruns
  cases hall with
  | cons hrun hrest =>
    cases hrest
    rw [flatten_singleton]
    have hspan' : plan.pkScanSpan convert desc (primaryKeyPrefixFor desc ++ []) = some span := by
      rwa [append_nil]
    obtain ⟨ws, hws, _, hstarts⟩ := pkScanSpan_prefix hspan'
    rw [hcols] at hws
    exact primary_delivered hws hstarts hrun

theorem fan_delivered (hkind : plan.kind = .pkScan) (hfan : 0 < plan.fanBuckets)
    (hsharded : 0 < desc.shardBuckets)
    (h : executePlan convert store filter plan limit = some out) :
    Delivered store desc.primaryKey.tail plan.idxVals.length out ∧
      (plan.mergeFan = true → InWordOrder desc.primaryKey.tail plan.reverse out) := by
  unfold executePlan at h
  rw [hkind] at h
  obtain ⟨spans, hspans, h⟩ := bind_eq_some_iff.mp h
  obtain ⟨runs, hruns, h⟩ := bind_eq_some_iff.mp h
  rw [if_neg (by omega)] at h
  unfold pkScanSpans at hspans
  rw [if_neg (by omega)] at hspans
  have hcols : plan.pkColumns desc = desc.primaryKey.tail := if_pos hfan
  have hspansOf := mapM_forall₂ hspans
  have hrunsOf := mapM_forall₂ hruns
  -- The pinned words are those of the first bucket's span, and of every other's.
  obtain ⟨ws, hws, hrun⟩ : ∃ ws, WordsOf desc (desc.primaryKey.tail.take plan.idxVals.length) ws ∧
      ∀ run ∈ runs, run.Pairwise (NotAfter (suffixBefore (suffixStart desc) plan.reverse)) ∧
        ∀ fr ∈ run, fr ∈ store.rows ∧
          words (desc.primaryKey.tail.take plan.idxVals.length) fr = ws := by
    obtain ⟨span₀, hspan₀⟩ :
        ∃ span, plan.pkScanSpan convert desc (bucketPrefix desc 0) = some span := by
      obtain ⟨n, hn⟩ : ∃ n, plan.fanBuckets = n + 1 := ⟨plan.fanBuckets - 1, by omega⟩
      rw [hn, range_succ_eq_map] at hspansOf
      cases hspansOf with
      | cons hspan _ => exact ⟨_, hspan⟩
    obtain ⟨ws, hws, hpin, _⟩ := pkScanSpan_prefix hspan₀
    refine ⟨ws, hcols ▸ hws, fun run hrun => ?_⟩
    obtain ⟨span, hspan, hscan⟩ := exists_of_forall₂ hrunsOf run hrun
    obtain ⟨b, _, hb⟩ := exists_of_forall₂ hspansOf span hspan
    obtain ⟨ws', _, hpin', hstarts⟩ := pkScanSpan_prefix hb
    have hsame : ws.flatten = ws'.flatten := some.inj ((hpin []).symm.trans (hpin' []))
    rw [← hsame] at hstarts
    exact bucket_delivered hsharded (hcols ▸ hws) hstarts hscan
  have hrunsStored : ∀ fr ∈ runs.flatten, fr ∈ store.rows ∧
      words (desc.primaryKey.tail.take plan.idxVals.length) fr = ws := by
    intro fr hfr
    obtain ⟨run, hrunmem, hfr⟩ := mem_flatten.mp hfr
    exact (hrun run hrunmem).2 fr hfr
  -- Whatever is returned is some of what the runs hold.
  have hdelivered : (∀ fr ∈ out, fr ∈ runs.flatten) →
      Delivered store desc.primaryKey.tail plan.idxVals.length out := by
    intro hmem
    exact .of_words (fun fr hfr => (hrunsStored fr (hmem fr hfr)).1) (fun fr hfr id hid =>
      (key_eq (hrunsStored fr (hmem fr hfr)).1).1 id (mem_of_mem_tail hid)) fun fr hfr =>
        (hrunsStored fr (hmem fr hfr)).2
  split at h
  · rename_i hmerge
    cases h
    obtain ⟨hsorted, hmem⟩ :=
      mergeRuns_spec (suffixBefore_asymm _ plan.reverse) (notAfter_trans _ plan.reverse)
      (runs.map List.length).sum fun run hr => (hrun run hr).1
    have hsub : (mergeFannedRows runs (suffixStart desc) plan.reverse limit).Sublist
        (mergeRuns (suffixBefore (suffixStart desc) plan.reverse)
          (runs.map List.length).sum runs) := by
      unfold mergeFannedRows
      split
      · exact List.Sublist.refl _
      · exact take_sublist _ _
    have hin := fun fr hfr => hmem fr (hsub.subset hfr)
    refine ⟨hdelivered hin, fun _ => (hsorted.sublist hsub).imp_of_mem fun {a c} ha hc hac => ?_⟩
    have ha' := (hrunsStored a (hin a ha)).1
    have hc' := (hrunsStored c (hin c hc)).1
    have hwa := Keyed.wordsOf fun id hid => (key_eq ha').1 id (mem_of_mem_tail hid)
    have hwc := Keyed.wordsOf fun id hid => (key_eq hc').1 id (mem_of_mem_tail hid)
    rw [notAfter_iff, drop_bucket hsharded ha', drop_bucket hsharded hc'] at hac
    exact ordered_imp hac
      (fun hle => not_lt.mp fun hlt => not_lt.mpr hle ((hwa.lt_iff hwc []).mpr hlt))
      fun hle => not_lt.mp fun hlt => not_lt.mpr hle ((hwc.lt_iff hwa []).mpr hlt)
  · rename_i hmerge
    cases h
    refine ⟨hdelivered fun fr hfr => ?_, fun hm => absurd hm hmerge⟩
    split at hfr
    · exact hfr
    · exact mem_of_mem_take hfr

theorem executePlan_delivered (hplan : plan.For desc)
    (h : executePlan convert store filter plan limit = some out) :
    Delivered store (plan.natural desc) plan.idxVals.length out ∧
      (plan.fanBuckets = 0 ∨ plan.mergeFan = true →
        InWordOrder (plan.natural desc) plan.reverse out) := by
  unfold natural
  cases hkind : plan.kind with
  | fullScan =>
    unfold executePlan at h
    rw [hkind] at h
    rw [hplan.pinned (.inl hkind)]
    have hnone : WordsOf desc (desc.primaryKey.take 0) [] := List.Forall₂.nil
    obtain ⟨hd, ho⟩ :=
      primary_delivered hnone (fun k hlo hhi => prefix_of_lt_prefixEnd (by decide) hlo hhi) h
    exact ⟨hd, fun _ => ho⟩
  | pkPoint =>
    unfold executePlan at h
    rw [hkind] at h
    obtain ⟨key, _, h⟩ := bind_eq_some_iff.mp h
    obtain ⟨hd, ho⟩ := single_delivered (fun fr hfr => (key_eq hfr).1) (mem_of_fetchByPrimaryKey h)
    exact ⟨hd, fun _ => ho⟩
  | uniquePoint =>
    obtain ⟨hd, ho⟩ := single_delivered (fun _ _ => forall_mem_nil _) (uniquePoint_single hkind h)
    exact ⟨hd, fun _ => ho⟩
  | indexScan =>
    unfold executePlan at h
    rw [hkind] at h
    obtain ⟨idx, hidx, h⟩ := bind_eq_some_iff.mp h
    obtain ⟨start, hstart, h⟩ := bind_eq_some_iff.mp h
    obtain ⟨span, hspan, h⟩ := bind_eq_some_iff.mp h
    obtain ⟨pks, hpks, h⟩ := bind_eq_some_iff.mp h
    rw [hidx]
    have hstarts : ∀ k, span.1 ≤ k → k < span.2 → start <+: k := by
      intro k hlo hhi
      have hstart' := hstart
      unfold encodeIndexPrefix at hstart'
      split_ifs at hstart'
      obtain ⟨ws, _, rfl⟩ := appendColumns_words hstart'
      exact prefix_of_spanBounds (by decide) hspan hlo hhi
    obtain ⟨hd, ho⟩ := index_delivered (hplan.index idx hidx) hstart hstarts hpks h
    exact ⟨hd, fun _ => ho⟩
  | pkScan =>
    dsimp only
    split_ifs with hfan
    · obtain ⟨hd, ho⟩ := fan_delivered hkind hfan (hplan.fanned hfan).2 h
      exact ⟨hd, fun hor => ho (hor.resolve_left hfan.ne')⟩
    · obtain ⟨hd, ho⟩ := pkScan_delivered hkind (by omega) h
      exact ⟨hd, fun _ => ho⟩

end Fan

end Datax
