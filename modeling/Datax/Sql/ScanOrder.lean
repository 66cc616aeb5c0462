import Datax.Sql.AccessPlan

/-!
# The order in which a plan returns its rows

Whatever the filter and the limit, a read returns some of the rows its span holds, in key order or,
in a reverse scan, against it.
-/

namespace Datax

open Option (bind_eq_some_iff map_eq_some_iff)

open List PrefixCode Encoding AccessPlan TableStore

variable {out : List FetchedRow} {filter : Row → Option Bool} {left : Option Nat}
  {desc : TableDescriptor}

theorem collect_sublist {frs : List FetchedRow}
    (hrows : ∀ fr ∈ frs, ∀ row, decodeFullRow desc fr.1 fr.2 = some row → row = fr.2)
    (h : collect desc filter left frs = some out) : out.Sublist frs := by
  induction frs generalizing left out with
  | nil =>
    cases h
    exact List.Sublist.refl []
  | cons fr frs ih =>
    obtain ⟨hfr, hlater⟩ := forall_mem_cons.mp hrows
    obtain ⟨row, hrow, h⟩ := bind_eq_some_iff.mp h
    obtain rfl := hfr row hrow
    obtain ⟨ok, _, h⟩ := bind_eq_some_iff.mp h
    split at h
    · split at h
      · cases h
        exact List.Sublist.cons_cons fr (nil_sublist frs)
      · obtain ⟨rest, hrest, h⟩ := bind_eq_some_iff.mp h
        cases h
        exact (ih hlater hrest).cons_cons fr
    · exact (ih hlater h).cons fr

variable {pks : List Key}

theorem collectPrimary_spec {get : Key → Option Row}
    (h : collectPrimary desc get filter left pks = some out) :
    (out.map Prod.fst).Sublist pks ∧
      ∀ fr ∈ out, ∃ raw, get fr.1 = some raw ∧ decodeFullRow desc fr.1 raw = some fr.2 := by
  induction pks generalizing left out with
  | nil =>
    cases h
    exact ⟨List.Sublist.refl [], forall_mem_nil _⟩
  | cons pk pks ih =>
    obtain ⟨raw, hraw, h⟩ := bind_eq_some_iff.mp h
    obtain ⟨row, hdec, h⟩ := bind_eq_some_iff.mp h
    obtain ⟨ok, _, h⟩ := bind_eq_some_iff.mp h
    have hrow : ∃ raw, get pk = some raw ∧ decodeFullRow desc pk raw = some row := ⟨raw, hraw, hdec⟩
    split at h
    · split at h
      · cases h
        exact ⟨List.Sublist.cons_cons pk (nil_sublist pks), forall_mem_singleton.mpr hrow⟩
      · obtain ⟨rest, hrest, h⟩ := bind_eq_some_iff.mp h
        cases h
        obtain ⟨hsub, hget⟩ := ih hrest
        exact ⟨hsub.cons_cons pk, forall_mem_cons.mpr ⟨hrow, hget⟩⟩
    · obtain ⟨hsub, hget⟩ := ih h
      exact ⟨hsub.cons pk, hget⟩

variable {reverse : Bool}

theorem ordered_imp {p p' q q' : Prop} (h : if reverse then p else q) (hp : p → p') (hq : q → q') :
    if reverse then p' else q' := by
  cases reverse with
  | true => exact hp h
  | false => exact hq h

def KeyOrder (reverse : Bool) (a b : Key) : Prop := if reverse then b < a else a < b

variable {α : Type}

theorem spanScan_spec {kvs : List (Key × α)} (start stop : Key) (limit : Nat) (reverse : Bool)
    (hsorted : kvs.Pairwise fun a b => a.1 < b.1) :
    (spanScan kvs start stop limit reverse).Pairwise (fun a b => KeyOrder reverse a.1 b.1) ∧
      ∀ kv ∈ spanScan kvs start stop limit reverse, kv ∈ kvs ∧ start ≤ kv.1 ∧ kv.1 < stop := by
  let hits := kvs.filter fun kv => decide (start ≤ kv.1) && decide (kv.1 < stop)
  have hsub : (spanScan kvs start stop limit reverse).Sublist
      (if reverse then hits.reverse else hits) := by
    unfold spanScan
    dsimp only
    split
    · exact List.Sublist.refl _
    · exact take_sublist _ _
  have hhits : hits.Pairwise fun a b => a.1 < b.1 := hsorted.filter _
  constructor
  · refine List.Pairwise.sublist hsub ?_
    cases reverse with
    | true => exact pairwise_reverse.mpr hhits
    | false => exact hhits
  · intro kv hkv
    have hmem : kv ∈ hits := by
      cases reverse with
      | true => exact mem_reverse.mp (hsub.subset hkv)
      | false => exact hsub.subset hkv
    obtain ⟨hin, hspan⟩ := mem_filter.mp hmem
    obtain ⟨hlo, hhi⟩ := Bool.and_eq_true_iff.mp hspan
    exact ⟨hin, of_decide_eq_true hlo, of_decide_eq_true hhi⟩

variable {span : Key × Key}

section Bounds
variable {convert : Datum → Family → Option Datum} {desc : TableDescriptor}

theorem prefixEnd_ge {bs : Key} {b : Byte} (hb : b ≠ 255) :
    (b :: bs : Key) ≤ Key.prefixEnd (b :: bs) := by
  obtain ⟨e, he⟩ := Option.ne_none_iff_exists'.mp (Key.increment_cons_ne_none hb bs)
  unfold Key.prefixEnd
  rw [he]
  exact le_of_lt (Key.lt_of_increment he)

theorem prefix_of_lt_prefixEnd {bs q : Key} {b : Byte} (hb : b ≠ 255) (hle : (b :: bs : Key) ≤ q)
    (hlt : q < Key.prefixEnd (b :: bs)) : (b :: bs : Key) <+: q := by
  obtain ⟨e, he⟩ := Option.ne_none_iff_exists'.mp (Key.increment_cons_ne_none hb bs)
  unfold Key.prefixEnd at hlt
  rw [he] at hlt
  exact Key.prefix_of_lt_increment he hle hlt

theorem le_append (k x : Key) : k ≤ k ++ x := by
  cases x with
  | nil => rw [append_nil]
  | cons b bs =>
    apply le_of_lt
    have h := (append_lt_append_left_iff k [] (b :: bs)).mpr (nil_lt_cons b bs)
    rwa [append_nil] at h

theorem prefix_of_spanBounds {p : AccessPlan} {bs q : Key} {b : Byte} {fam : Option Family}
    (hb : b ≠ 255) (h : p.spanBounds convert (b :: bs) fam = some span) (hlo : span.1 ≤ q)
    (hhi : q < span.2) :
    (b :: bs : Key) <+: q := by
  obtain ⟨lo, hstart, h⟩ := bind_eq_some_iff.mp h
  obtain ⟨hi, hstop, h⟩ := bind_eq_some_iff.mp h
  cases h
  have hbound : ∀ {bound : ColBound} {pastIt : Bool} {k : Key} {f : Family},
      boundKey convert (b :: bs) f bound pastIt = some k →
        ∃ x, k = if pastIt then Key.prefixEnd (b :: (bs ++ x)) else b :: (bs ++ x) := by
    intro bound pastIt k f hk
    obtain ⟨k', hk', rfl⟩ := map_eq_some_iff.mp hk
    obtain ⟨x, _, rfl⟩ := appendDatum_isCode hk'
    exact ⟨x, rfl⟩
  have hle : (b :: bs : Key) ≤ q := by
    refine le_trans ?_ hlo
    unfold startKey at hstart
    split at hstart
    · cases hstart
      exact le_refl _
    obtain ⟨f, _, hk⟩ := bind_eq_some_iff.mp hstart
    obtain ⟨x, rfl⟩ := hbound hk
    have happend : (b :: bs : Key) ≤ b :: (bs ++ x) := le_append (b :: bs) x
    split
    · exact happend.trans (prefixEnd_ge hb)
    · exact happend
  unfold stopKey at hstop
  split at hstop
  · cases hstop
    exact prefix_of_lt_prefixEnd hb hle hhi
  obtain ⟨f, _, hk⟩ := bind_eq_some_iff.mp hstop
  obtain ⟨x, rfl⟩ := hbound hk
  split at hhi
  · rcases lt_or_ge q (b :: (bs ++ x)) with hlt | hge
    · exact Key.prefix_of_lt_append hle hlt
    · exact (prefix_append (b :: bs) x).trans (prefix_of_lt_prefixEnd hb hge hhi)
  · exact Key.prefix_of_lt_append hle hhi

theorem appendDatum_eq (k : Key) (fam : Family) (d : Datum) :
    appendDatum convert k fam d = (appendDatum convert [] fam d).map (k ++ ·) := by
  unfold appendDatum
  split
  · rw [Option.map_map]
    rfl
  · split
    · rw [Option.map_map]
      rfl
    · rfl
  · rfl
  · rfl

theorem appendPinned_words {ids : List ColumnID} {ds : List Datum} {k₀ k₀' : Key}
    (h : appendPinned convert desc k₀ ids ds = some k₀') :
    ∃ ws, WordsOf desc (ids.take ds.length) ws ∧
      ∀ k, appendPinned convert desc k ids ds = some (k ++ ws.flatten) := by
  induction ds generalizing k₀ ids with
  | nil =>
    refine ⟨[], List.Forall₂.nil, fun k => ?_⟩
    rw [appendPinned, flatten_nil, append_nil]
  | cons d ds ih =>
    cases ids with
    | nil => cases h
    | cons id ids =>
      obtain ⟨col, hcol, h⟩ := bind_eq_some_iff.mp h
      obtain ⟨k₁, hk₁, h⟩ := bind_eq_some_iff.mp h
      obtain ⟨ws, hws, hall⟩ := ih h
      rw [appendDatum_eq] at hk₁
      obtain ⟨w, hw, _⟩ := map_eq_some_iff.mp hk₁
      obtain ⟨_, hcode, rfl⟩ := appendDatum_isCode hw
      refine ⟨w :: ws, List.Forall₂.cons ⟨col, hcol, hcode⟩ hws, fun k => ?_⟩
      rw [appendPinned, hcol]
      change (do appendPinned convert desc (← appendDatum convert k col.fam d) ids ds) = _
      rw [appendDatum_eq, hw]
      change appendPinned convert desc (k ++ w) ids ds = _
      rw [hall, flatten_cons, append_assoc]

end Bounds

/-! ### What a read returns -/

variable {b a : FetchedRow} {cols : List ColumnID} {plan : AccessPlan} {β : Type} {as : List α}
  {idx : IndexDescriptor}

section Delivered
variable {convert : Datum → Family → Option Datum} {desc : TableDescriptor}
  {store : TableStore convert desc} {filter : Row → Option Bool}

def words (cols : List ColumnID) (fr : FetchedRow) : List Key := cols.map (code fr.2)

/-- Stored rows with values in the key columns, equal ones in the pinned columns. -/
structure Delivered (store : TableStore convert desc) (cols : List ColumnID) (pinned : Nat)
    (out : List FetchedRow) : Prop where
  stored : ∀ fr ∈ out, fr ∈ store.rows
  keyed : ∀ fr ∈ out, ∀ id ∈ cols, Keyed desc fr.2 id
  pinned : ∀ fr ∈ out, ∀ fr' ∈ out, words (cols.take pinned) fr = words (cols.take pinned) fr'

def InWordOrder (cols : List ColumnID) (reverse : Bool) (out : List FetchedRow) : Prop :=
  out.Pairwise fun a b => if reverse then words cols b ≤ words cols a
    else words cols a ≤ words cols b

theorem TableStore.key_eq {fr : FetchedRow} (h : fr ∈ store.rows) :
    (∀ id ∈ desc.primaryKey, Keyed desc fr.2 id) ∧
      fr.1 = primaryKeyPrefixFor desc ++ (words desc.primaryKey fr).flatten :=
  pkKey_eq (fun id _ => (store.conforms fr h).ofType id) (store.keyed fr h)

theorem words_take (cols : List ColumnID) (n : Nat) (fr : FetchedRow) :
    words (cols.take n) fr = (words cols fr).take n := map_take

theorem TableStore.get_eq_some {pk : Key} {row : Row} (h : store.get convert pk = some row) :
    (pk, row) ∈ store.rows := by
  obtain ⟨fr, hfind, rfl⟩ := map_eq_some_iff.mp h
  have hfound := find?_some hfind
  have hpk : fr.1 = pk := beq_iff_eq.mp hfound
  rw [← hpk]
  exact mem_of_find?_eq_some hfind

theorem foldl_update_self (row : Row) (ids : List ColumnID) :
    (ids.zip (ids.map row)).foldl (fun row p => Function.update row p.1 p.2) row = row := by
  induction ids with
  | nil => rfl
  | cons id ids ih => rw [map_cons, zip_cons_cons, foldl_cons, Function.update_eq_self, ih]

/-- A row whose key is read back is read as it was stored. -/
theorem TableStore.decodeFullRow_eq {fr : FetchedRow} {row : Row} (hfr : fr ∈ store.rows)
    (h : decodeFullRow desc fr.1 fr.2 = some row) : row = fr.2 := by
  obtain ⟨pkVals, hvals, h⟩ := bind_eq_some_iff.mp h
  obtain ⟨hkeyed, hkey⟩ := key_eq hfr
  rw [hkey, words, decodePK_row hkeyed] at hvals
  split_ifs at hvals
  cases hvals
  cases h
  exact foldl_update_self fr.2 desc.primaryKey

theorem TableStore.key_lt_iff (ha : a ∈ store.rows) (hb : b ∈ store.rows) :
    a.1 < b.1 ↔ words desc.primaryKey a < words desc.primaryKey b := by
  obtain ⟨hka, hea⟩ := key_eq ha
  obtain ⟨hkb, heb⟩ := key_eq hb
  rw [hea, heb]
  exact (Keyed.wordsOf hka).lt_iff (Keyed.wordsOf hkb) _

theorem keyOrder_of_words (hout : out.Pairwise fun a b => KeyOrder reverse a.1 b.1)
    (hlt : ∀ a ∈ out, ∀ b ∈ out, a.1 < b.1 → words cols a ≤ words cols b) :
    InWordOrder cols reverse out := by
  refine hout.imp_of_mem ?_
  intro a b ha hb hab
  exact ordered_imp hab (hlt b hb a ha) (hlt a ha b hb)

theorem scanPrimarySpan_spec {limit : Nat}
    (h : scanPrimarySpan convert store filter plan span limit = some out) :
    out.Pairwise (fun a b => KeyOrder plan.reverse a.1 b.1) ∧
      ∀ fr ∈ out, fr ∈ store.rows ∧ span.1 ≤ fr.1 ∧ fr.1 < span.2 := by
  obtain ⟨hsorted, hmem⟩ :=
    spanScan_spec span.1 span.2 (if plan.residual then 0 else limit) plan.reverse
    store.rowsSorted
  have hsub := collect_sublist (fun fr hfr _ => decodeFullRow_eq (hmem fr hfr).1) h
  exact ⟨hsorted.sublist hsub, fun fr hfr => hmem fr (hsub.subset hfr)⟩

theorem mapM_forall₂ {f : α → Option β} {bs : List β} (h : as.mapM f = some bs) :
    List.Forall₂ (fun a b => f a = some b) as bs := by
  induction as generalizing bs with
  | nil =>
    cases h
    exact List.Forall₂.nil
  | cons a as ih =>
    rw [mapM_cons] at h
    obtain ⟨b, hb, h⟩ := bind_eq_some_iff.mp h
    obtain ⟨bs', hbs, h⟩ := bind_eq_some_iff.mp h
    cases h
    exact List.Forall₂.cons hb (ih hbs)

section
variable {R : α → β → Prop} {bs : List β} (h : List.Forall₂ R as bs)
include h

theorem exists_of_forall₂ : ∀ b ∈ bs, ∃ a ∈ as, R a b := by
  induction h with
  | nil => exact forall_mem_nil _
  | cons hab _ ih =>
    refine forall_mem_cons.mpr ⟨⟨_, mem_cons_self, hab⟩, fun b hb => ?_⟩
    obtain ⟨a, ha, hR⟩ := ih b hb
    exact ⟨a, mem_cons_of_mem _ ha, hR⟩

theorem pairwise_of_forall₂ {P : α → α → Prop} {Q : β → β → Prop} (hP : as.Pairwise P)
    (hQ : ∀ a ∈ as, ∀ a' ∈ as, ∀ b b', R a b → R a' b' → P a a' → Q b b') : bs.Pairwise Q := by
  induction h with
  | nil => exact List.Pairwise.nil
  | @cons a b as bs hab hrest ih =>
    obtain ⟨hhead, htail⟩ := pairwise_cons.mp hP
    refine pairwise_cons.mpr
      ⟨fun b' hb' => ?_, ih htail fun x hx y hy => hQ x (mem_cons_of_mem a hx) y
      (mem_cons_of_mem a hy)⟩
    obtain ⟨a', ha', hR⟩ := exists_of_forall₂ hrest b' hb'
    exact hQ a mem_cons_self a' (mem_cons_of_mem a ha') b b' hab hR (hhead a' ha')

end

theorem map_fst_zip_eq_take {bs : List β} (h : bs.length ≤ as.length) :
    (as.zip bs).map Prod.fst = as.take bs.length := by
  induction as generalizing bs with
  | nil => rw [zip_nil_left, take_nil, map_nil]
  | cons a as ih =>
    cases bs with
    | nil => rfl
    | cons b bs =>
      rw [zip_cons_cons, map_cons, length_cons, take_succ_cons, ih (Nat.le_of_succ_le_succ h)]

theorem Delivered.of_words {n : Nat} {ws : List Key} (hstored : ∀ fr ∈ out, fr ∈ store.rows)
    (hkeyed : ∀ fr ∈ out, ∀ id ∈ cols, Keyed desc fr.2 id)
    (hwords : ∀ fr ∈ out, words (cols.take n) fr = ws) :
    Delivered store cols n out :=
  ⟨hstored, hkeyed, fun fr hfr fr' hfr' => (hwords fr hfr).trans (hwords fr' hfr').symm⟩

section Primary
variable {plan : AccessPlan} {span : Key × Key} {limit n : Nat} {out : List FetchedRow}
  {ws : List Key}

section
variable (hws : WordsOf desc (desc.primaryKey.take n) ws)
  (hspan : ∀ k, span.1 ≤ k → k < span.2 → primaryKeyPrefixFor desc ++ ws.flatten <+: k)
  (h : scanPrimarySpan convert store filter plan span limit = some out)
include hws hspan h

theorem scanned_words : ∀ fr ∈ out, words (desc.primaryKey.take n) fr = ws := by
  intro fr hfr
  obtain ⟨hin, hlo, hhi⟩ := (scanPrimarySpan_spec h).2 fr hfr
  obtain ⟨hkeyed, hkey⟩ := key_eq hin
  have hstarts := hspan fr.1 hlo hhi
  rw [hkey] at hstarts
  rw [words_take]
  exact hws.take_eq (Keyed.wordsOf hkeyed) hstarts

theorem primary_delivered :
    Delivered store desc.primaryKey n out ∧ InWordOrder desc.primaryKey plan.reverse out := by
  obtain ⟨hsorted, hmem⟩ := scanPrimarySpan_spec h
  constructor
  · exact .of_words (fun fr hfr => (hmem fr hfr).1) (fun fr hfr => (key_eq (hmem fr hfr).1).1)
      (scanned_words hws hspan h)
  · exact keyOrder_of_words hsorted fun a ha b hb hab =>
      le_of_lt ((key_lt_iff (hmem a ha).1 (hmem b hb).1).mp hab)

end

end Primary

theorem TableStore.eq_of_key_eq (ha : a ∈ store.rows) (hb : b ∈ store.rows) (h : a.1 = b.1) :
    a = b := by
  have hnodup : (store.rows.map Prod.fst).Nodup :=
    pairwise_map.mpr (store.rowsSorted.imp fun hlt heq => absurd (heq ▸ hlt) (lt_irrefl _))
  exact inj_on_of_nodup_map hnodup ha hb h

theorem TableStore.entry_row (hidx : idx ∈ desc.indexes) {e : Key × Key} {pk : Key}
    (he : e ∈ store.entries idx.id) (hpk : indexEntryPrimaryKey desc idx e.1 e.2 = some pk) :
    ∃ fr ∈ store.rows, fr.1 = pk ∧ (∀ id ∈ idx.keyColumns desc, Keyed desc fr.2 id) ∧
      e.1 = tableIndexPrefix desc.id idx.id ++ (words (idx.keyColumns desc) fr).flatten := by
  obtain ⟨fr, hfr, hentry⟩ := (store.indexed idx hidx e).mp he
  obtain ⟨hkeyed, hkey⟩ := key_eq hfr
  obtain ⟨hcols, hekey, _⟩ := encodeIndexEntry_eq (store.conforms fr hfr) hkeyed hentry
  refine ⟨fr, hfr, ?_, hcols, hekey⟩
  rw [hkey, indexEntryPrimaryKey_eq (store.conforms fr hfr) hkeyed hentry hpk]
  rfl

theorem index_delivered {start : Key} {limit : Nat} (hidx : idx ∈ desc.indexes)
    (hstart : encodeIndexPrefix convert desc idx plan.idxVals = some start)
    (hspan : ∀ k, span.1 ≤ k → k < span.2 → start <+: k)
    (hpks : (spanScan (store.entries idx.id) span.1 span.2 (if plan.residual then 0 else limit)
      plan.reverse).mapM
      (fun e => indexEntryPrimaryKey desc idx e.1 e.2) = some pks)
    (h : collectPrimary desc (store.get convert) filter (remaining limit) pks = some out) :
    Delivered store (idx.keyColumns desc) plan.idxVals.length out ∧
      InWordOrder (idx.keyColumns desc) plan.reverse out := by
  obtain ⟨hsorted, hmem⟩ :=
    spanScan_spec span.1 span.2 (if plan.residual then 0 else limit) plan.reverse
    (store.entriesSorted idx.id)
  have hentries := mapM_forall₂ hpks
  obtain ⟨hsub, hget⟩ := collectPrimary_spec h
  have hstored : ∀ fr ∈ out, fr ∈ store.rows := by
    intro fr hfr
    obtain ⟨raw, hraw, hdec⟩ := hget fr hfr
    have hin := get_eq_some hraw
    have hrow : fr.2 = raw := decodeFullRow_eq hin hdec
    rwa [← hrow] at hin
  -- The entry behind a returned row.
  have hbehind : ∀ fr ∈ out, ∃ e, start <+: e ∧ (∀ id ∈ idx.keyColumns desc, Keyed desc fr.2 id) ∧
      e = tableIndexPrefix desc.id idx.id ++ (words (idx.keyColumns desc) fr).flatten := by
    intro fr hfr
    obtain ⟨e, he, hpk⟩ := exists_of_forall₂ hentries fr.1 (hsub.subset (mem_map_of_mem hfr))
    obtain ⟨hein, hlo, hhi⟩ := hmem e he
    obtain ⟨fr', hfr', hkey, hcols, hekey⟩ := entry_row hidx hein hpk
    obtain rfl := eq_of_key_eq hfr' (hstored fr hfr) hkey
    exact ⟨e.1, hspan e.1 hlo hhi, hcols, hekey⟩
  -- The pinned values are words of the indexed columns.
  obtain ⟨ws, hws, hstarts⟩ :
    ∃ ws, WordsOf desc ((idx.keyColumns desc).take plan.idxVals.length) ws ∧
      start = tableIndexPrefix desc.id idx.id ++ ws.flatten := by
    unfold encodeIndexPrefix at hstart
    split_ifs at hstart with hlen
    obtain ⟨ws, hws, hstart⟩ := appendColumns_words hstart
    refine ⟨ws, ?_, hstart⟩
    have hids : (idx.keyColumns desc).take plan.idxVals.length =
        (idx.columnIDs.zip plan.idxVals).map Prod.fst := by
      rw [map_fst_zip_eq_take (not_lt.mp hlen)]
      unfold IndexDescriptor.keyColumns
      split
      · rfl
      · rw [take_append_of_le_length (not_lt.mp hlen)]
    rw [hids]
    exact hws
  have hwords : ∀ fr ∈ out, words ((idx.keyColumns desc).take plan.idxVals.length) fr = ws := by
    intro fr hfr
    obtain ⟨e, he, hcols, rfl⟩ := hbehind fr hfr
    rw [hstarts] at he
    rw [words_take]
    exact hws.take_eq (Keyed.wordsOf hcols) he
  constructor
  · refine .of_words hstored (fun fr hfr => ?_) hwords
    obtain ⟨_, _, hcols, _⟩ := hbehind fr hfr
    exact hcols
  · have hpksOrder : pks.Pairwise fun pk pk' => ∀ fr ∈ store.rows, ∀ fr' ∈ store.rows, fr.1 = pk →
        fr'.1 = pk' →
        if plan.reverse then words (idx.keyColumns desc) fr' ≤ words (idx.keyColumns desc) fr
        else words (idx.keyColumns desc) fr ≤ words (idx.keyColumns desc) fr' := by
      refine pairwise_of_forall₂ hentries hsorted ?_
      intro e he e' he' pk pk' hpk hpk' hlt fr hfr fr' hfr' hkey hkey'
      obtain ⟨x, hx, hxkey, hcols, hex⟩ := entry_row hidx (hmem e he).1 hpk
      obtain ⟨x', hx', hxkey', hcols', hex'⟩ := entry_row hidx (hmem e' he').1 hpk'
      obtain rfl := eq_of_key_eq hx hfr (hxkey.trans hkey.symm)
      obtain rfl := eq_of_key_eq hx' hfr' (hxkey'.trans hkey'.symm)
      rw [hex, hex'] at hlt
      exact ordered_imp hlt
        (fun hlt => (((Keyed.wordsOf hcols').lt_iff (Keyed.wordsOf hcols) _).mp hlt).le)
        fun hlt => (((Keyed.wordsOf hcols).lt_iff (Keyed.wordsOf hcols') _).mp hlt).le
    have hout := pairwise_map.mp (hpksOrder.sublist hsub)
    exact hout.imp_of_mem fun ha hb hab => hab _ (hstored _ ha) _ (hstored _ hb) rfl rfl

end Delivered

end Datax
