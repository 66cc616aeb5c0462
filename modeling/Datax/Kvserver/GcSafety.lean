import Datax.Kvserver.Gc

/-!
# What a garbage collection pass may change

A pass deletes, key by key, the newest tombstone at or below the threshold and then the values
it hides. Reads above the threshold notice nothing as long as no command boundary falls between
the two; where one does, the older value is visible again until the next command, and for good
if the pass stops there.
-/

namespace Datax

open List

open Shared (Chain)

section Reads
variable {h : KeyHistory} {k : Key} {ts T : Timestamp} {opts : MVCCGetOptions}

theorem mvccScanKey_eq_beneath (hi : h.intent = none) (intents : List Intent) :
    mvccScanKey h k ts opts intents = mvccScanKey.beneath h ts opts intents ⊥ := by
  simp only [mvccScanKey, hi]

end Reads

/-- Reads of one key above `T` cannot tell the two histories apart. -/
def SameKeyReads (T : Timestamp) (k : Key) (h h' : KeyHistory) : Prop :=
  ∀ ts, T < ts → ∀ opts, mvccGet h' k ts opts = mvccGet h k ts opts ∧
    ∀ intents, mvccScanKey h' k ts opts intents = mvccScanKey h k ts opts intents

section Deleted
variable {h : KeyHistory} {k : Key} {T : Timestamp} {p : Timestamp → Bool}

theorem uncertainVersion_keep (hp : ∀ s, T < s → p s = true) {ts : Timestamp} (hts : T < ts)
    (opts : MVCCGetOptions) :
    uncertainVersion (h.versions.keep p) ts ⊥ opts = uncertainVersion h.versions ts ⊥ opts := by
  unfold uncertainVersion
  split
  · rename_i hlim
    rw [visible_bot, visible_bot]
    by_cases hex : ∃ e ∈ h.versions.entries, T < e.1 ∧ e.1 ≤ opts.uncertaintyLimit
    · obtain ⟨e, he, hTe, hel⟩ := hex
      obtain ⟨d, hc, hk⟩ := Chain.upTo_keep_of_mem hp he hTe hel
      rw [hc, hk]
    · -- nothing lies between the threshold and the limit, so both views are at or below `T`
      have below : ∀ c : Chain Timestamp (Option Bytes), (∀ e ∈ c.entries, e ∈ h.versions.entries) →
          ((c.upTo opts.uncertaintyLimit).bind fun v => if ts.less v.1 then some v.1 else none) =
            none := by
        intro c hc
        rw [Option.bind_eq_none_iff]
        intro d hv
        obtain ⟨hd, newer, older, hsplit, _⟩ := Chain.upTo_eq_some_iff.mp hv
        have hmem : d ∈ h.versions.entries := hc d (by simp [hsplit])
        have hdT : d.1 ≤ T := by
          by_contra hlt
          exact hex ⟨d, hmem, not_le.mp hlt, hd⟩
        have : ¬ ts < d.1 := not_lt.mpr (hdT.trans hts.le)
        simp [this]
      rw [below _ fun e he => (mem_filter.mp he).1, below _ fun e he => he]
  · rfl

theorem sameKeyReads_of_valueAt (hi : h.intent = none) (hp : ∀ s, T < s → p s = true)
    (hval : ∀ ts, T < ts → valueAt (h.versions.keep p) ts = valueAt h.versions ts) :
    SameKeyReads T k h { h with versions := h.versions.keep p } := by
  intro ts hts opts
  have hunc := uncertainVersion_keep (h := h) hp hts opts
  have hv := hval ts hts
  constructor
  · rw [mvccGet_eq_readBeneath hi, mvccGet_eq_readBeneath (by exact hi)]
    simp only [readBeneath, hunc, visible_bot]
    simp only [valueAt] at hv
    rw [hv]
  · intro intents
    rw [mvccScanKey_eq_beneath hi, mvccScanKey_eq_beneath (by exact hi)]
    simp only [mvccScanKey.beneath, hunc, visible_bot]
    simp only [valueAt] at hv
    rw [hv]

end Deleted

def ordinary (T : Timestamp) : GarbageRules := ⟨T, false, none⟩

def gcItem (k : Key) (v : Timestamp × Option Bytes) : GCVersion := ⟨k, v.1, storedBytes k v.2⟩

variable {older newer : List (Timestamp × Option Bytes)}

section KeyGarbage
variable {T : Timestamp} {k : Key}

theorem garbageOfKey_older (h : ∀ v ∈ older, v.1 ≤ T) :
    garbageOfKey (ordinary T) k true older = older.map (gcItem k) := by
  induction older with
  | nil => rfl
  | cons v older ih =>
    have hv : v.1 ≤ T := h v mem_cons_self
    have hrest := ih fun w hw => h w (mem_cons_of_mem v hw)
    simp [garbageOfKey, ordinary, GarbageRules.rowAgedOut, hv, gcItem] at hrest ⊢
    exact hrest

theorem garbageOfKey_newer {rest : List (Timestamp × Option Bytes)} (h : ∀ v ∈ newer, T < v.1) :
    garbageOfKey (ordinary T) k false (newer ++ rest) = garbageOfKey (ordinary T) k false rest := by
  induction newer with
  | nil => rfl
  | cons v newer ih =>
    have hv : ¬ v.1 ≤ T := not_le.mpr (h v mem_cons_self)
    have hrest := ih fun w hw => h w (mem_cons_of_mem v hw)
    simp [garbageOfKey, ordinary, GarbageRules.rowAgedOut, hv] at hrest ⊢
    exact hrest

theorem mem_garbageOfKey {seen : Bool} {l : List (Timestamp × Option Bytes)} {v : GCVersion}
    (hv : v ∈ garbageOfKey (ordinary T) k seen l) : v.key = k ∧ v.ts ≤ T := by
  induction l generalizing seen with
  | nil => simp [garbageOfKey] at hv
  | cons w l ih =>
    simp only [garbageOfKey, ordinary, GarbageRules.rowAgedOut, Bool.or_false, Bool.false_eq_true,
      if_false, Timestamp.lessEq_iff] at hv
    split at hv
    · rename_i hle
      split at hv
      · rcases mem_cons.mp hv with rfl | hv
        · exact ⟨rfl, hle⟩
        · exact ih hv
      · split at hv
        · rcases mem_cons.mp hv with rfl | hv
          · exact ⟨rfl, hle⟩
          · exact ih hv
        · exact ih hv
    · exact ih hv

theorem garbageOfKey_cases (c : Chain Timestamp (Option Bytes)) :
    (c.upTo T = none ∧ garbageOfKey (ordinary T) k false c.entries = []) ∨
    ∃ newer s older, c.entries = newer ++ s :: older ∧ (∀ v ∈ newer, T < v.1) ∧ s.1 ≤ T ∧
      c.upTo T = some s ∧ garbageOfKey (ordinary T) k false c.entries =
        (if s.2 = none then s :: older else older).map (gcItem k) := by
  cases hs : c.upTo T with
  | none =>
    left
    refine ⟨rfl, ?_⟩
    rw [← append_nil c.entries, garbageOfKey_newer (Chain.upTo_eq_none_iff.mp hs)]
    rfl
  | some s =>
    right
    obtain ⟨hsT, newer, older, hsplit, hnewer⟩ := Chain.upTo_eq_some_iff.mp hs
    refine ⟨newer, s, older, hsplit, hnewer, hsT, rfl, ?_⟩
    have hdesc := c.descending
    rw [hsplit, pairwise_append] at hdesc
    have holder : ∀ v ∈ older, v.1 ≤ T :=
      fun v hv => ((pairwise_cons.mp hdesc.2.1).1 v hv).le.trans hsT
    rw [hsplit, garbageOfKey_newer hnewer]
    have hrest := garbageOfKey_older (k := k) holder
    obtain ⟨sts, sval⟩ := s
    simp only [ordinary] at hrest
    cases sval with
    | none => simp [garbageOfKey, ordinary, GarbageRules.rowAgedOut, hsT, hrest, gcItem]
    | some data => simp [garbageOfKey, ordinary, GarbageRules.rowAgedOut, hsT, hrest]

end KeyGarbage

/-- Deleting everything up to a version `ts` of the history, but not `ts` itself,
brings a value back: `ts` holds a value, the newest version at or below the
threshold is a tombstone, and no version directly above the threshold hides it. -/
def Resurrects (T : Timestamp) (h : KeyHistory) (ts : Timestamp) : Prop :=
  (∃ data, (ts, some data) ∈ h.versions.entries) ∧ (∃ s, h.versions.upTo T = some (s, none)) ∧
    ∀ v, (T.next, v) ∉ h.versions.entries

def KeyHistory.without (h : KeyHistory) (k : Key) (vs : List GCVersion) : KeyHistory :=
  { h with versions := h.versions.keep fun t => vs.all fun v => v.key ≠ k ∨ v.ts ≠ t }

theorem all_gcItem (k : Key) (t : Timestamp) (l : List (Timestamp × Option Bytes)) :
    ((l.map (gcItem k)).all fun v => decide (v.key ≠ k ∨ v.ts ≠ t)) =
      l.all fun d => decide (d.1 ≠ t) := by
  simp only [all_map, Function.comp_def, gcItem, ne_eq, not_true_eq_false, false_or]

section KeyPrefix
variable {T : Timestamp} {k : Key} {h : KeyHistory}

theorem upTo_without_value {s : Timestamp × Option Bytes}
    (hsplit : h.versions.entries = newer ++ s :: older) (hnewer : ∀ v ∈ newer, T < v.1)
    (hsT : s.1 ≤ T) (j : Nat) :
    (h.without k ((older.map (gcItem k)).take j)).versions.upTo T = some s := by
  have hdesc := h.versions.descending
  rw [hsplit, pairwise_append] at hdesc
  have hkept : (older.take j).all (fun d => decide (d.1 ≠ s.1)) = true := by
    rw [all_eq_true]
    intro d hd
    have := (pairwise_cons.mp hdesc.2.1).1 d (mem_of_mem_take hd)
    simpa using this.ne
  refine Chain.upTo_eq_some_iff.mpr
    ⟨hsT, newer.filter fun e => (older.take j).all fun d => decide (d.1 ≠ e.1),
    older.filter fun e => (older.take j).all fun d => decide (d.1 ≠ e.1), ?_, ?_⟩
  · simp only [KeyHistory.without, Chain.keep_entries, hsplit, filter_append,
      ← map_take, all_gcItem]
    congr 1
    exact filter_cons_of_pos hkept
  · intro d hd
    exact hnewer d (mem_filter.mp hd).1

theorem upTo_without_tombstone {below : List (Timestamp × Option Bytes)}
    (hsplit : h.versions.entries = newer ++ below) (hnewer : ∀ v ∈ newer, T < v.1)
    (hbelow : ∀ v ∈ below, v.1 ≤ T) (j : Nat) :
    (h.without k ((below.map (gcItem k)).take j)).versions.upTo T = below[j]? := by
  have hdesc := h.versions.descending
  rw [hsplit, pairwise_append] at hdesc
  have hentries : (h.without k ((below.map (gcItem k)).take j)).versions.entries =
      newer ++ below.drop j := by
    simp only [KeyHistory.without, Chain.keep_entries, hsplit, filter_append,
      ← map_take, all_gcItem]
    congr 1
    · rw [filter_eq_self]
      intro v hv
      rw [all_eq_true]
      intro d hd
      have := hdesc.2.2 v hv d (mem_of_mem_take hd)
      simpa using this.ne
    · exact Chain.filter_not_mem_take hdesc.2.1 j
  rw [← head?_drop]
  cases hd : below.drop j with
  | nil =>
    rw [head?_nil, Chain.upTo_eq_none_iff, hentries, hd, append_nil]
    exact hnewer
  | cons v vs =>
    have hv : v ∈ below := mem_of_mem_drop (by rw [hd]; exact mem_cons_self)
    exact Chain.upTo_eq_some_iff.mpr ⟨hbelow v hv, newer, vs, by rw [hentries, hd], hnewer⟩

/-- What a plain read at the threshold finds after a prefix of a key's garbage is
gone: the same as before unless that prefix ends above a hidden value. -/
theorem valueAt_prefix_iff (j : Nat) :
    valueAt
        (h.without k ((garbageOfKey (ordinary T) k false h.versions.entries).take j)).versions T =
        valueAt h.versions T ↔
      ∀ v, (garbageOfKey (ordinary T) k false h.versions.entries)[j]? = some v →
        (∃ s, h.versions.upTo T = some (s, none)) →
          ∀ data, (v.ts, some data) ∉ h.versions.entries := by
  rcases garbageOfKey_cases (T := T) (k := k) h.versions with ⟨hnone, hg⟩ |
    ⟨newer, ⟨sts, sval⟩, older, hsplit, hnewer, hsT, hs, hg⟩
  · simp [hg, hnone, KeyHistory.without, Chain.keep_of_forall]
  cases sval with
  | some data =>
    rw [if_neg (by simp)] at hg
    rw [hg, valueAt, valueAt, upTo_without_value hsplit hnewer hsT, hs]
    simp
  | none =>
    rw [if_pos rfl] at hg
    have hdesc := h.versions.descending
    rw [hsplit, pairwise_append] at hdesc
    have hbelow : ∀ v ∈ (sts, none) :: older, v.1 ≤ T := by
      intro v hv
      rcases mem_cons.mp hv with rfl | hv
      · exact hsT
      · exact ((pairwise_cons.mp hdesc.2.1).1 v hv).le.trans hsT
    rw [hg, valueAt, valueAt, upTo_without_tombstone hsplit hnewer hbelow, hs]
    cases hj : ((sts, none) :: older)[j]? with
    | none =>
      simp only [getElem?_map, hj, Option.map_none]
      simp
    | some w =>
      have hw : w ∈ h.versions.entries := by
        rw [hsplit]
        exact mem_append_right newer (mem_of_getElem? hj)
      simp only [getElem?_map, hj, Option.map_some, Option.some.injEq, gcItem, Option.bind_some]
      constructor
      · rintro hwnone v rfl - data hmem
        have := Chain.eq_of_mem hw hmem rfl
        rw [this] at hwnone
        simp at hwnone
      · intro hall
        cases hval : w.2 with
        | none => rfl
        | some data =>
          refine absurd ?_ (hall _ rfl ⟨sts, rfl⟩ data)
          rw [← hval]
          exact hw

theorem valueAt_above_iff (j : Nat) : (∀ ts, T < ts →
      valueAt
        (h.without k ((garbageOfKey (ordinary T) k false h.versions.entries).take j)).versions ts =
        valueAt h.versions ts) ↔
      ∀ v, (garbageOfKey (ordinary T) k false h.versions.entries)[j]? = some v →
        ¬ Resurrects T h v.ts := by
  have hp : ∀ s, T < s → (((garbageOfKey (ordinary T) k false h.versions.entries).take j).all
      fun v => decide (v.key ≠ k ∨ v.ts ≠ s)) = true := by
    intro s hs
    rw [all_eq_true]
    intro v hv
    have hle := (mem_garbageOfKey (mem_of_mem_take hv)).2
    simpa using .inr (hle.trans_lt hs).ne
  have habove := Chain.same_above_iff (c := h.versions) hp (fun o => o.bind Prod.snd)
    fun s => Timestamp.next_le_iff.symm
  refine habove.trans ?_
  change _ ∨ valueAt (h.without k _).versions T = valueAt h.versions T ↔ _
  rw [valueAt_prefix_iff]
  constructor
  · rintro hor v hv ⟨⟨data, hdata⟩, htomb, hnext⟩
    rcases hor with ⟨w, hw⟩ | hall
    · exact hnext w hw
    · exact hall v hv htomb data hdata
  · intro hno
    by_cases hnext : ∃ w, (T.next, w) ∈ h.versions.entries
    · exact .inl hnext
    · refine .inr fun v hv htomb data hdata => hno v hv ⟨⟨data, hdata⟩, htomb, ?_⟩
      exact fun w hw => hnext ⟨w, hw⟩

end KeyPrefix

end Datax
