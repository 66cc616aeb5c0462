import Datax.Sql.Reshard

/-!
# What writes leave in the two layouts

A row is mirrored when the new layout has its value and every copy of an index its entry. The live
indexes have exactly the entries of the rows, and the copies none that no row has, provided that a
transaction without the marker takes nothing away that the new layout shows.
-/

namespace Datax.Reshard

open Option Function List Store Table Batch

variable {PK V C : Type}

/-! ## Keys -/

variable {marker : Bool}

section Keys
variable {t : Table PK V C} {idx idx' : Index PK V C} {n n' : Bool} {pk pk' : PK} {c c' : C}

def Index.idOf (idx : Index PK V C) (new : Bool) : Nat := if new then idx.newID else idx.id

theorem nodup_ids (t : Table PK V C) :
    (t.indexes.map Index.id).Nodup ∧ (t.indexes.map Index.newID).Nodup ∧
      ∀ idx ∈ t.indexes, ∀ idx' ∈ t.indexes, idx.id ≠ idx'.newID := by
  have h := (nodup_cons.mp t.fresh).2
  rw [nodup_append] at h
  refine ⟨h.1, h.2.1, ?_⟩
  intro idx hidx idx' hidx'
  exact h.2.2 _ (mem_map_of_mem hidx) _ (mem_map_of_mem hidx')

theorem nodup_indexes (t : Table PK V C) : t.indexes.Nodup := (nodup_ids t).1.of_map

theorem idOf_inj (hidx : idx ∈ t.indexes) (hidx' : idx' ∈ t.indexes)
    (h : idx.idOf n = idx'.idOf n') :
    n = n' ∧ idx = idx' := by
  obtain ⟨hids, hnew, hdisj⟩ := nodup_ids t
  cases n with
  | false =>
    cases n' with
    | false => exact ⟨rfl, inj_on_of_nodup_map hids hidx hidx' h⟩
    | true => exact absurd h (hdisj idx hidx idx' hidx')
  | true =>
    cases n' with
    | false => exact absurd h.symm (hdisj idx' hidx' idx hidx)
    | true => exact ⟨rfl, inj_on_of_nodup_map hnew hidx hidx' h⟩

theorem entryKey_inj (hidx : idx ∈ t.indexes) (hidx' : idx' ∈ t.indexes)
    (h : t.entryKey n idx pk c = t.entryKey n' idx' pk' c') :
    n = n' ∧ idx = idx' ∧ c = c' ∧ (idx.unique = false → pk = pk') := by
  simp only [entryKey, StoreKey.entry.injEq] at h
  obtain ⟨hid, hc, hsuffix⟩ := h
  obtain ⟨hn, heq⟩ := idOf_inj hidx hidx' hid
  subst heq
  refine ⟨hn, rfl, hc, ?_⟩
  intro hunique
  simp only [hunique, Bool.false_eq_true, if_false, Option.some.injEq, Prod.mk.injEq] at hsuffix
  exact hsuffix.2

theorem entryKey_unique (hunique : idx.unique = true) (pk pk' : PK) :
    t.entryKey n idx pk c = t.entryKey n idx pk' c := by
  simp only [entryKey, hunique, if_true]

theorem entryVal_unique (hunique : idx.unique = true)
    (h : t.entryVal n idx pk = t.entryVal n' idx pk') :
    pk = pk' := by
  simp only [entryVal, hunique, if_true, StoreVal.pk.injEq] at h
  exact h.2

theorem live_ne_copy (hidx : idx ∈ t.indexes) :
    t.entryKey false idx pk c ≠ t.entryKey true idx pk' c' := by
  intro h
  cases (entryKey_inj hidx hidx h).1

theorem mem_entries {x y : Option (StoreVal PK V)} {w : Write PK V C}
    (h : w ∈ (t.entryKey false idx pk c, x) ::
      if marker then [(t.entryKey true idx pk c, y)] else []) :
    ∃ n, (n = true → marker = true) ∧ w.1 = t.entryKey n idx pk c := by
  rcases mem_cons.mp h with rfl | h
  · exact ⟨false, by simp, rfl⟩
  cases marker with
  | false => cases h
  | true =>
    rw [mem_singleton.mp h]
    exact ⟨true, by simp, rfl⟩

variable [DecidableEq C]

theorem mem_indexWrites {old new : Option C} {w : Write PK V C}
    (h : w ∈ t.indexWrites marker idx pk old new) :
    old ≠ new ∧ ∃ n c, (n = true → marker = true) ∧ w.1 = t.entryKey n idx pk c ∧
      (old = some c ∨ new = some c) := by
  unfold indexWrites at h
  split at h
  · cases h
  rename_i hne
  refine ⟨hne, ?_⟩
  rcases mem_append.mp h with h | h
  · obtain ⟨c, hc, h⟩ := mem_flatMap.mp h
    obtain ⟨n, hn, hkey⟩ := mem_entries h
    exact ⟨n, c, hn, hkey, .inl (mem_toList.mp hc)⟩
  · obtain ⟨c, hc, h⟩ := mem_flatMap.mp h
    obtain ⟨n, hn, hkey⟩ := mem_entries h
    exact ⟨n, c, hn, hkey, .inr (mem_toList.mp hc)⟩

variable [LinearOrder PK]
variable {kv : StoreKey PK C → Option (StoreVal PK V)} {marker : Bool} {old new : Option C}

theorem apply_entries {x y : Option (StoreVal PK V)} (hidx : idx ∈ t.indexes)
    (hn : n = true → marker = true) :
    apply kv ((t.entryKey false idx pk c, x) ::
      if marker then [(t.entryKey true idx pk c, y)] else []) (t.entryKey n idx pk c) =
    if n then y else x := by
  rw [apply_cons]
  cases n with
  | false =>
    cases marker with
    | false => exact update_self ..
    | true =>
      refine (apply_of_forall_ne ?_).trans (update_self ..)
      intro w hw
      rw [mem_singleton.mp hw]
      exact (live_ne_copy hidx).symm
  | true =>
    rw [hn rfl]
    exact update_self ..

theorem apply_indexWrites_new (hidx : idx ∈ t.indexes) (hold : old ≠ some c)
    (hn : n = true → marker = true) :
    apply kv (t.indexWrites marker idx pk old (some c)) (t.entryKey n idx pk c) =
      some (t.entryVal n idx pk) := by
  unfold indexWrites
  rw [if_neg hold, apply_append]
  simp only [toList_some, flatMap_cons, flatMap_nil, append_nil, apply_entries hidx hn]
  cases n <;> rfl

theorem apply_indexWrites_old (hidx : idx ∈ t.indexes) (hnew : new ≠ some c)
    (hn : n = true → marker = true) :
    apply kv (t.indexWrites marker idx pk (some c) new) (t.entryKey n idx pk c) = none := by
  unfold indexWrites
  rw [if_neg (Ne.symm hnew), apply_append, apply_of_forall_ne]
  · simp only [toList_some, flatMap_cons, flatMap_nil, append_nil, apply_entries hidx hn, ite_self]
  · intro w hw heq
    obtain ⟨c', hc', hw⟩ := mem_flatMap.mp hw
    obtain ⟨n', -, hkey⟩ := mem_entries hw
    have hcc := (entryKey_inj hidx hidx (hkey.symm.trans heq)).2.2.1
    exact hnew (hcc ▸ mem_toList.mp hc')

end Keys

variable [LinearOrder PK] [DecidableEq C]

/-! ## One row changes -/

variable {pk' : PK}

namespace Store
variable (t : Table PK V C) (st : Store PK V C) (marker : Bool) (ts : Timestamp) (pk : PK)
  (new : Option V)

def moved : Store PK V C :=
  t.putRow marker ts st pk new (t.moveIndexEntries marker pk (st.current pk) new)

variable {t st marker ts pk new}

theorem history_moved_self :
    (st.moved t marker ts pk new).history pk = ⟨ts, new, marker⟩ :: st.history pk := by
  change (((st.rows.insert pk _).lookup pk).getD [] : History V) = _
  rw [AList.lookup_insert]
  rfl

theorem history_moved_of_ne (hne : pk' ≠ pk) :
    (st.moved t marker ts pk new).history pk' = st.history pk' := by
  change (((st.rows.insert pk _).lookup pk').getD [] : History V) = _
  rw [AList.lookup_insert_ne hne]
  rfl

theorem current_moved_self : (st.moved t marker ts pk new).current pk = new := by
  unfold current
  rw [history_moved_self]
  rfl

theorem current_moved_of_ne (hne : pk' ≠ pk) :
    (st.moved t marker ts pk new).current pk' = st.current pk' := by
  unfold current
  rw [history_moved_of_ne hne]

theorem kv_moved_entry {idx : Index PK V C} (hidx : idx ∈ t.indexes) (n : Bool) (columns : C)
    (suffix : Option (Nat × PK)) :
    (st.moved t marker ts pk new).kv (.entry (idx.idOf n) columns suffix) =
      apply st.kv (t.indexWrites marker idx pk (idx.columnsOf pk (st.current pk))
        (idx.columnsOf pk new)) (.entry (idx.idOf n) columns suffix) := by
  have hrow : apply st.kv (if marker then [(t.reshardShadowKey pk, new.map .row)] else [])
      (.entry (idx.idOf n) columns suffix) = st.kv (.entry (idx.idOf n) columns suffix) := by
    apply apply_of_forall_ne
    intro w hw
    cases marker with
    | false => cases hw
    | true =>
      rw [mem_singleton.mp hw]
      intro heq
      cases heq
  refine (congrFun (apply_append _) _).trans ?_
  refine (apply_flatMap hidx (nodup_indexes t) ?_).trans (apply_congr hrow)
  intro idx' hidx' hne w hw heq
  obtain ⟨_, n', c', _, hkey, _⟩ := mem_indexWrites hw
  rw [hkey] at heq
  simp only [entryKey, StoreKey.entry.injEq] at heq
  exact hne (idOf_inj hidx' hidx heq.1).2

theorem kv_moved_row (bucket : Nat) (pk' : PK) :
    (st.moved t marker ts pk new).kv (.row t.newIndexID bucket pk') =
      if marker = true ∧ bucket = t.shardBucketAt true pk ∧ pk' = pk then new.map .row
      else st.kv (.row t.newIndexID bucket pk') := by
  have hentries : ∀ kv, apply kv (t.moveIndexEntries marker pk (st.current pk) new)
      (.row t.newIndexID bucket pk') = kv (.row t.newIndexID bucket pk') := by
    intro kv
    apply apply_of_forall_ne
    intro w hw heq
    obtain ⟨idx, _, hw⟩ := mem_flatMap.mp hw
    obtain ⟨_, n', c', _, hkey, _⟩ := mem_indexWrites hw
    rw [hkey] at heq
    cases heq
  refine (congrFun (apply_append _) _).trans ?_
  rw [hentries]
  cases marker with
  | false => simp
  | true =>
    change Function.update st.kv (t.reshardShadowKey pk) (new.map .row) _ = _
    by_cases heq : bucket = t.shardBucketAt true pk ∧ pk' = pk
    · obtain ⟨rfl, rfl⟩ := heq
      rw [if_pos ⟨rfl, rfl, rfl⟩]
      exact update_self ..
    · rw [if_neg fun h => heq h.2]
      apply update_of_ne
      intro h
      simp only [reshardShadowKey, StoreKey.row.injEq, true_and] at h
      exact heq h

end Store

def Op.value : Op V → Option V
  | .insert v => some v
  | .update v => some v
  | .delete => none

theorem evalStatement_spec {t : Table PK V C} {ts : Timestamp} {st st' : Store PK V C}
    {stmt : Statement PK V} (h : t.evalStatement marker ts st stmt = some st') :
    st' = st.moved t marker ts stmt.pk stmt.op.value ∧
      ∀ idx ∈ t.indexes,
        t.indexAllows st idx stmt.pk (st.current stmt.pk) stmt.op.value = true := by
  unfold evalStatement at h
  dsimp only at h
  split at h
  · rename_i v hop hcur
    split_ifs at h with hall
    cases h
    rw [hop]
    constructor
    · unfold moved
      rw [hcur]
      rfl
    · rw [hcur]
      exact all_eq_true.mp hall
  · rename_i v old hop hcur
    split_ifs at h with hall
    cases h
    rw [hop]
    constructor
    · unfold moved
      rw [hcur]
      rfl
    · rw [hcur]
      exact all_eq_true.mp hall
  · rename_i old hop hcur
    cases h
    rw [hop]
    constructor
    · unfold moved
      rw [hcur]
      rfl
    · intro idx _
      simp [indexAllows, Op.value]
  · cases h

/-! ## The invariant of the store -/

/-- Since the last time there was no row, only transactions with the marker wrote. -/
def fresh : History V → Bool
  | [] => true
  | v :: rest => v.value.isNone || (v.dual && fresh rest)

section Invariant
variable (t : Table PK V C) (st : Store PK V C)

def Complete (new : Bool) (pk : PK) : Prop :=
  ∀ idx ∈ t.indexes, ∀ c, idx.columnsOf pk (st.current pk) = some c →
    st.kv (t.entryKey new idx pk c) = some (t.entryVal new idx pk)

def Sound (new : Bool) : Prop :=
  ∀ idx ∈ t.indexes, ∀ columns suffix val, st.kv (.entry (idx.idOf new) columns suffix) = some val →
    ∃ pk c, idx.columnsOf pk (st.current pk) = some c ∧
      .entry (idx.idOf new) columns suffix = t.entryKey new idx pk c ∧ val = t.entryVal new idx pk

structure Mirrored (pk : PK) : Prop where
  row : st.kv (t.reshardShadowKey pk) = (st.current pk).map .row
  entries : Complete t st true pk

structure StoreInv (kept : PK → Prop) : Prop where
  live : ∀ pk, Complete t st false pk
  sound : ∀ new, Sound t st new
  newRow : ∀ bucket pk val, st.kv (.row t.newIndexID bucket pk) = some val →
    bucket = t.shardBucketAt true pk ∧ (st.current pk).isSome = true
  mirrored : ∀ pk, fresh (st.history pk) = true ∨ kept pk → Mirrored t st pk

/-- A write without the marker takes nothing away that the new layout shows. -/
def hidden (pk : PK) (new : Option V) : Bool :=
  (new.isSome || (st.kv (t.reshardShadowKey pk)).isNone) && t.indexes.all fun idx =>
      (idx.columnsOf pk (st.current pk)).all fun c =>
        decide (idx.columnsOf pk new = some c) || (st.kv (t.entryKey true idx pk c)).isNone

end Invariant

variable {n : Bool}

section Unique
variable {t : Table PK V C} {st : Store PK V C} {idx : Index PK V C} {pk pk' : PK} {c : C}

section
variable (hlive : ∀ pk, Complete t st false pk) (hidx : idx ∈ t.indexes) {c' : C}
include hlive hidx

omit [DecidableEq C] in
theorem eq_of_entryKey
    (hc : idx.columnsOf pk (st.current pk) = some c)
    (hc' : idx.columnsOf pk' (st.current pk') = some c')
    (h : t.entryKey n idx pk c = t.entryKey n idx pk' c') : pk = pk' := by
  obtain ⟨_, _, hcc, hpk⟩ := entryKey_inj hidx hidx h
  subst hcc
  cases hunique : idx.unique with
  | false => exact hpk hunique
  | true =>
    have h₁ := hlive pk idx hidx c hc
    have h₂ := hlive pk' idx hidx c hc'
    rw [entryKey_unique hunique pk pk', h₂] at h₁
    exact (entryVal_unique hunique (Option.some.inj h₁)).symm

theorem ne_of_allows {new : Option V}
    (hallows : t.indexAllows st idx pk (st.current pk) new = true)
    (hnew : idx.columnsOf pk new = some c) (hold : idx.columnsOf pk (st.current pk) ≠ some c)
    (hc' : idx.columnsOf pk' (st.current pk') = some c') (hne : pk' ≠ pk) :
    t.entryKey n idx pk' c' ≠ t.entryKey n idx pk c := by
  intro h
  obtain ⟨_, _, hcc, hpk⟩ := entryKey_inj hidx hidx h
  subst hcc
  cases hunique : idx.unique with
  | false => exact hne (hpk hunique)
  | true =>
    have hsome : new.isNone = false := by
      cases new with
      | none => cases hnew
      | some v => rfl
    simp only [indexAllows, hunique, hsome, hnew, Bool.not_true, Bool.false_or, any_some,
      Bool.or_eq_true, decide_eq_true_eq, hold, false_or, isNone_iff_eq_none] at hallows
    have := hlive pk' idx hidx c' hc'
    simp [entryKey_unique hunique pk' pk, hallows] at this

end

end Unique

section Moved
variable {t : Table PK V C} {st : Store PK V C} {kept : PK → Prop} {marker : Bool}
  {ts : Timestamp} {pk : PK} {new : Option V} {idx : Index PK V C}

theorem kv_moved_of_ne (hlive : ∀ pk, Complete t st false pk)
    (hallows : ∀ idx ∈ t.indexes, t.indexAllows st idx pk (st.current pk) new = true)
    (hne : pk' ≠ pk) (hidx : idx ∈ t.indexes) {c : C}
    (hc : idx.columnsOf pk' (st.current pk') = some c) :
    (st.moved t marker ts pk new).kv (t.entryKey n idx pk' c) = st.kv (t.entryKey n idx pk' c) := by
  refine (kv_moved_entry hidx n _ _).trans (apply_of_forall_ne ?_)
  intro w hw heq
  obtain ⟨hchanged, n', c', _, hkey, hor⟩ := mem_indexWrites hw
  have hkeys : t.entryKey n' idx pk c' = t.entryKey n idx pk' c := hkey.symm.trans heq
  have hn := (entryKey_inj hidx hidx hkeys).1
  subst hn
  rcases hor with hold | hnew
  · exact hne (eq_of_entryKey hlive hidx hold hc hkeys).symm
  have hold : idx.columnsOf pk (st.current pk) ≠ some c' := by
    rw [← hnew]
    exact hchanged
  exact ne_of_allows hlive hidx (hallows idx hidx) hnew hold hc hne hkeys.symm

theorem kv_moved_new (hidx : idx ∈ t.indexes) {c : C} (hn : n = true → marker = true)
    (hnew : idx.columnsOf pk new = some c) (hold : idx.columnsOf pk (st.current pk) ≠ some c) :
    (st.moved t marker ts pk new).kv (t.entryKey n idx pk c) = some (t.entryVal n idx pk) := by
  refine (kv_moved_entry hidx n _ _).trans ?_
  rw [hnew]
  exact apply_indexWrites_new hidx hold hn

theorem kv_moved_of_untouched (hidx : idx ∈ t.indexes) {columns : C} {suffix : Option (Nat × PK)}
    (h : idx.columnsOf pk (st.current pk) = idx.columnsOf pk new ∨ n = true ∧ marker = false) :
    (st.moved t marker ts pk new).kv (.entry (idx.idOf n) columns suffix) =
      st.kv (.entry (idx.idOf n) columns suffix) := by
  refine (kv_moved_entry hidx n _ _).trans (apply_of_forall_ne ?_)
  intro w hw heq
  obtain ⟨hchanged, n', c', hmark, hkey, _⟩ := mem_indexWrites hw
  rcases h with hsame | ⟨hn, hmarker⟩
  · exact hchanged hsame
  rw [hkey] at heq
  simp only [entryKey, StoreKey.entry.injEq] at heq
  have hn' := (idOf_inj hidx hidx heq.1).1
  simp [hmark (hn'.trans hn)] at hmarker

theorem moved_complete (hlive : ∀ pk, Complete t st false pk)
    (hallows : ∀ idx ∈ t.indexes, t.indexAllows st idx pk (st.current pk) new = true)
    (hn : n = true → marker = true) (hbefore : (pk' = pk → new ≠ none) → Complete t st n pk') :
    Complete t (st.moved t marker ts pk new) n pk' := by
  intro idx hidx c hc
  by_cases hpk : pk' = pk
  · subst hpk
    rw [current_moved_self] at hc
    by_cases hold : idx.columnsOf pk' (st.current pk') = some c
    · refine (kv_moved_of_untouched hidx (.inl (hold.trans hc.symm))).trans ?_
      refine hbefore ?_ idx hidx c hold
      rintro _ rfl
      cases hc
    · exact kv_moved_new hidx hn hc hold
  · rw [current_moved_of_ne hpk] at hc
    rw [kv_moved_of_ne hlive hallows hpk hidx hc]
    exact hbefore (fun h => absurd h hpk) idx hidx c hc

theorem moved_sound
    (hallows : ∀ idx ∈ t.indexes, t.indexAllows st idx pk (st.current pk) new = true)
    (hs : Sound t st n) (hhidden : n = true → marker = false → hidden t st pk new = true) :
    Sound t (st.moved t marker ts pk new) n := by
  intro idx hidx columns suffix val hval
  -- what an entry that was there before belongs to, if its row is another one
  have hstay : ∀ pk' c, idx.columnsOf pk' (st.current pk') = some c → pk' ≠ pk →
      .entry (idx.idOf n) columns suffix = t.entryKey n idx pk' c → val = t.entryVal n idx pk' →
      ∃ pk' c, idx.columnsOf pk' ((st.moved t marker ts pk new).current pk') = some c ∧
        .entry (idx.idOf n) columns suffix = t.entryKey n idx pk' c ∧
          val = t.entryVal n idx pk' := by
    intro pk' c hc hne hkey hv
    refine ⟨pk', c, ?_, hkey, hv⟩
    rw [current_moved_of_ne hne]
    exact hc
  by_cases htouched : idx.columnsOf pk (st.current pk) = idx.columnsOf pk new ∨ n = true ∧
    marker = false
  · rw [kv_moved_of_untouched hidx htouched] at hval
    obtain ⟨pk', c, hc, hkey, hv⟩ := hs idx hidx columns suffix val hval
    by_cases hpk : pk' = pk
    · subst hpk
      rcases Decidable.em (idx.columnsOf pk' (st.current pk') = idx.columnsOf pk' new) with hsame
        | hchanged
      · refine ⟨pk', c, ?_, hkey, hv⟩
        rw [current_moved_self, ← hsame]
        exact hc
      · obtain ⟨rfl, rfl⟩ := htouched.resolve_left hchanged
        have hh := all_eq_true.mp (Bool.and_eq_true_iff.mp (hhidden rfl rfl)).2 idx hidx
        rw [hc] at hh hchanged
        simp only [all_some, Bool.or_eq_true, decide_eq_true_eq, isNone_iff_eq_none] at hh
        rcases hh with hnew | hnone
        · exact absurd hnew.symm hchanged
        · simp [hkey, hnone] at hval
    · exact hstay pk' c hc hpk hkey hv
  · have hn : n = true → marker = true := by
      intro hn
      cases marker with
      | false => exact absurd (.inr ⟨hn, rfl⟩) htouched
      | true => rfl
    have hchanged : idx.columnsOf pk (st.current pk) ≠ idx.columnsOf pk new :=
      fun h => htouched (.inl h)
    by_cases hnewkey : ∃ c, idx.columnsOf pk new = some c ∧
      .entry (idx.idOf n) columns suffix = t.entryKey n idx pk c
    · obtain ⟨c, hnew, hkey⟩ := hnewkey
      rw [hkey, kv_moved_new hidx hn hnew (hnew ▸ hchanged)] at hval
      refine ⟨pk, c, ?_, hkey, (Option.some.inj hval).symm⟩
      rw [current_moved_self]
      exact hnew
    · by_cases holdkey : ∃ c, idx.columnsOf pk (st.current pk) = some c ∧
          .entry (idx.idOf n) columns suffix = t.entryKey n idx pk c
      · obtain ⟨c, hold, hkey⟩ := holdkey
        rw [kv_moved_entry hidx, hkey, hold,
          apply_indexWrites_old hidx (fun h => hchanged (hold.trans h.symm)) hn] at hval
        cases hval
      · have hsame : (st.moved t marker ts pk new).kv (.entry (idx.idOf n) columns suffix) =
            st.kv (.entry (idx.idOf n) columns suffix) := by
          refine (kv_moved_entry hidx n _ _).trans (apply_of_forall_ne ?_)
          intro w hw heq
          obtain ⟨_, n', c', _, hkey, hor⟩ := mem_indexWrites hw
          have hkeys : t.entryKey n' idx pk c' = .entry (idx.idOf n) columns suffix :=
            hkey.symm.trans heq
          have hn' : n' = n := by
            simp only [entryKey, StoreKey.entry.injEq] at hkeys
            exact (idOf_inj hidx hidx hkeys.1).1
          subst hn'
          rcases hor with hold | hnew
          · exact holdkey ⟨c', hold, hkeys.symm⟩
          · exact hnewkey ⟨c', hnew, hkeys.symm⟩
        rw [hsame] at hval
        obtain ⟨pk', c, hc, hkey, hv⟩ := hs idx hidx columns suffix val hval
        refine hstay pk' c hc ?_ hkey hv
        rintro rfl
        exact holdkey ⟨c, hc, hkey⟩

theorem moved_newRow (h : StoreInv t st kept) (hhidden : marker = false → hidden t st pk new = true)
    (bucket : Nat) (pk' : PK) (val : StoreVal PK V)
    (hval : (st.moved t marker ts pk new).kv (.row t.newIndexID bucket pk') = some val) :
    bucket = t.shardBucketAt true pk' ∧
      ((st.moved t marker ts pk new).current pk').isSome = true := by
  rw [kv_moved_row] at hval
  split at hval
  · rename_i hcond
    obtain ⟨_, hbucket, rfl⟩ := hcond
    rw [current_moved_self]
    refine ⟨hbucket, ?_⟩
    cases new with
    | none => cases hval
    | some v => rfl
  · rename_i hcond
    obtain ⟨hbucket, hsome⟩ := h.newRow bucket pk' val hval
    refine ⟨hbucket, ?_⟩
    by_cases hpk : pk' = pk
    · subst hpk
      rw [current_moved_self]
      have hmarker : marker = false := by
        cases marker with
        | false => rfl
        | true => exact absurd ⟨rfl, hbucket, rfl⟩ hcond
      have hh := (Bool.and_eq_true_iff.mp (hhidden hmarker)).1
      rcases Bool.or_eq_true_iff.mp hh with hh | hh
      · exact hh
      · rw [isNone_iff_eq_none, reshardShadowKey, ← hbucket, hval] at hh
        cases hh
    · rw [current_moved_of_ne hpk]
      exact hsome

/-- A statement keeps the invariant of the store: one under the marker always, another one
when it touches no row that is to stay mirrored and takes nothing away. -/
theorem StoreInv.moved (h : StoreInv t st kept)
    (hallows : ∀ idx ∈ t.indexes, t.indexAllows st idx pk (st.current pk) new = true)
    (hplain : marker = false → ¬ kept pk ∧ hidden t st pk new = true) :
    StoreInv t (st.moved t marker ts pk new) kept where
  live pk' := moved_complete (n := false) h.live hallows (fun hn => absurd hn Bool.false_ne_true)
    fun _ => h.live pk'
  sound n := moved_sound hallows (h.sound n) fun _ hm => (hplain hm).2
  newRow := moved_newRow h fun hm => (hplain hm).2
  mirrored := by
    intro pk' hor
    by_cases hpk : pk' = pk
    · subst hpk
      rw [history_moved_self] at hor
      cases marker with
      | true =>
        constructor
        · rw [reshardShadowKey, kv_moved_row, if_pos ⟨rfl, rfl, rfl⟩, current_moved_self]
        refine moved_complete h.live hallows (fun _ => rfl) fun hsome => ?_
        refine (h.mirrored pk' (hor.imp_left fun hf => ?_)).entries
        cases new with
        | none => exact absurd rfl (hsome rfl)
        | some v => exact hf
      | false =>
        obtain ⟨hnot, hhidden⟩ := hplain rfl
        have hnone : new = none := by
          cases new with
          | none => rfl
          | some v => exact absurd (hor.resolve_right hnot) (by simp [fresh])
        subst hnone
        have hrow : st.kv (t.reshardShadowKey pk') = none := by
          have := (Bool.and_eq_true_iff.mp hhidden).1
          simpa using this
        constructor
        · rw [current_moved_self, reshardShadowKey, kv_moved_row, if_neg (by simp)]
          exact hrow
        · intro idx hidx c hc
          rw [current_moved_self] at hc
          cases hc
    · rw [history_moved_of_ne hpk] at hor
      have hm := h.mirrored pk' hor
      constructor
      · rw [current_moved_of_ne hpk, reshardShadowKey, kv_moved_row,
          if_neg fun hc => hpk hc.2.2]
        exact hm.row
      · intro idx hidx c hc
        rw [current_moved_of_ne hpk] at hc
        rw [kv_moved_of_ne h.live hallows hpk hidx hc]
        exact hm.entries idx hidx c hc

end Moved

end Datax.Reshard
