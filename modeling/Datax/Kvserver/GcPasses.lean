import Datax.Kvserver.GcSafety

/-!
# Prefixes of a range's garbage

The garbage of a range is the concatenation of the garbage of its keys, so a prefix of it deletes
some keys' garbage whole, a prefix of one key's, and nothing of the others.
-/

namespace Datax

open List KeyHistory

open Shared (Chain)

variable {p : Key × KeyHistory}

section Engines
variable {e : Engine} {f : Key → KeyHistory → KeyHistory} {T : Timestamp}

theorem sameReadsAbove_of_keys (hf : ∀ k, f k empty = empty)
    (hkeys : ∀ p ∈ e.entries, SameKeyReads T p.1 p.2 (f p.1 p.2)) :
    SameReadsAbove T e (e.mapHistories f) := by
  intro ts hts
  constructor
  · intro key opts
    simp only [MVCCGet, Engine.history_mapHistories hf]
    cases hfind : e.entries.find? (fun p => p.1 == key) with
    | none => simp [Engine.history, hfind, hf]
    | some p =>
      have hkey : p.1 = key := by simpa using find?_some hfind
      have hsame := (hkeys p (mem_of_find?_eq_some hfind) ts hts opts).1
      simpa [Engine.history, hfind, hkey] using hsame
  · intro start stop max opts
    simp only [MVCCScan, Engine.mapHistories, filter_map, Function.comp_def]
    apply scanLoop_map
    intro p hp
    exact (hkeys p (mem_filter.mp hp).1 ts hts opts).2

theorem entries_in_successor_span (hp : p ∈ e.entries) :
    (e.entries.filter fun q => p.1 ≤ q.1 ∧ q.1 < p.1.next) = [p] := by
  obtain ⟨before, after, hsplit⟩ := append_of_mem hp
  have hsorted := e.sorted
  rw [hsplit, pairwise_append] at hsorted
  obtain ⟨_, hafter, hbefore⟩ := hsorted
  rw [hsplit, filter_append, filter_eq_nil_iff.mpr, nil_append, filter_cons_of_pos,
    filter_eq_nil_iff.mpr]
  · intro q hq
    have := Key.not_lt_next_of_lt ((pairwise_cons.mp hafter).1 q hq)
    simp [this]
  · simpa using Key.lt_next p.1
  · intro q hq
    have : ¬ p.1 ≤ q.1 := not_le.mpr (hbefore q hq p mem_cons_self)
    simp [this]

theorem scan_of_key (hp : p ∈ e.entries) (hi : p.2.intent = none) (ts : Timestamp) :
    MVCCScan e p.1 p.1.next ts 0 {} =
      .ok ⟨(valueAt p.2.versions ts).toList.map fun value => ⟨p.1, value⟩, none⟩ := by
  have hunc : uncertainVersion p.2.versions ts ⊥ {} = none := by
    have : (⊥ : Timestamp).isEmpty = true := Timestamp.isEmpty_iff.mpr rfl
    simp [uncertainVersion, this]
  have hkey : mvccScanKey p.2 p.1 ts {} [] = .ok (valueAt p.2.versions ts, []) := by
    rw [mvccScanKey_eq_beneath hi]
    simp [mvccScanKey.beneath, hunc, visible_bot, valueAt]
  simp only [MVCCScan, entries_in_successor_span hp, scanLoop, hkey]
  cases valueAt p.2.versions ts with
  | none | some value => simp

theorem valueAt_of_sameReads (hsame : SameReadsAbove T e (e.mapHistories f)) (hp : p ∈ e.entries)
    (hi : p.2.intent = none) (hi' : (f p.1 p.2).intent = none) (ts : Timestamp) (hts : T < ts) :
    valueAt (f p.1 p.2).versions ts = valueAt p.2.versions ts := by
  have hp' : (p.1, f p.1 p.2) ∈ (e.mapHistories f).entries := mem_map.mpr ⟨p, hp, rfl⟩
  have hscan := (hsame ts hts).2 p.1 p.1.next 0 {}
  rw [scan_of_key hp hi, scan_of_key hp' hi'] at hscan
  cases hv : valueAt p.2.versions ts <;> cases hv' :
    valueAt (f p.1 p.2).versions ts <;> simp [hv, hv'] at hscan ⊢
  exact hscan

end Engines

variable {es : List (Key × KeyHistory)}

section Prefixes
variable {T : Timestamp}

def rangeGarbage (T : Timestamp) (es : List (Key × KeyHistory)) : List GCVersion :=
  es.flatMap fun p => garbageOfKey (ordinary T) p.1 false p.2.versions.entries

theorem key_of_mem_rangeGarbage {v : GCVersion} (hv : v ∈ rangeGarbage T es) :
    ∃ p ∈ es, p.1 = v.key := by
  obtain ⟨p, hp, hv⟩ := mem_flatMap.mp hv
  exact ⟨p, hp, (mem_garbageOfKey hv).1.symm⟩

theorem all_other {vs : List GCVersion} {k : Key} (hvs : ∀ v ∈ vs, v.key ≠ k) (t : Timestamp) :
    (vs.all fun v => decide (v.key ≠ k ∨ v.ts ≠ t)) = true := by
  rw [all_eq_true]
  intro v hv
  exact decide_eq_true (.inl (hvs v hv))

theorem without_append (h : KeyHistory) (k : Key) (vs ws : List GCVersion)
    (hvs : ∀ v ∈ vs, v.key ≠ k) : h.without k (vs ++ ws) = h.without k ws := by
  simp only [without, all_append, all_other hvs, Bool.true_and]

theorem without_append_right (h : KeyHistory) (k : Key) (vs ws : List GCVersion)
    (hws : ∀ v ∈ ws, v.key ≠ k) : h.without k (vs ++ ws) = h.without k vs := by
  simp only [without, all_append, all_other hws, Bool.and_true]

theorem without_nil (h : KeyHistory) (k : Key) : h.without k [] = h := by
  simp [without, Chain.keep_of_forall]

/-- Plain reads of every key survive a prefix of the range's garbage exactly when
the version that comes next does not bring a value back. -/
theorem rangeGarbage_prefix_iff (hsorted : es.Pairwise fun a b => a.1 < b.1) (n : Nat) :
    (∀ p ∈ es, ∀ ts, T < ts →
      valueAt (p.2.without p.1 ((rangeGarbage T es).take n)).versions ts =
        valueAt p.2.versions ts) ↔
      ∀ v, (rangeGarbage T es)[n]? = some v → ∀ p ∈ es, p.1 = v.key → ¬ Resurrects T p.2 v.ts := by
  induction es generalizing n with
  | nil => simp
  | cons p es ih =>
    obtain ⟨hp, hes⟩ := pairwise_cons.mp hsorted
    have ih := ih hes
    -- the garbage of `p` comes first and shares no key with the rest
    set G := garbageOfKey (ordinary T) p.1 false p.2.versions.entries with hG
    have hV : rangeGarbage T (p :: es) = G ++ rangeGarbage T es := by
      simp [rangeGarbage, hG]
    have hGkey : ∀ v ∈ G, v.key = p.1 := fun v hv => (mem_garbageOfKey hv).1
    have hVkey : ∀ v ∈ rangeGarbage T es, v.key ≠ p.1 := by
      intro v hv heq
      obtain ⟨q, hq, hqv⟩ := key_of_mem_rangeGarbage hv
      exact (hp q hq).ne (heq ▸ hqv.symm)
    have hself : p.2.without p.1 ((G ++ rangeGarbage T es).take n) =
        p.2.without p.1 (G.take n) := by
      rw [take_append]
      exact without_append_right _ _ _ _ fun v hv => hVkey v (mem_of_mem_take hv)
    have hrest : ∀ q ∈ es, q.2.without q.1 ((G ++ rangeGarbage T es).take n) =
        q.2.without q.1 ((rangeGarbage T es).take (n - G.length)) := by
      intro q hq
      rw [take_append]
      refine without_append _ _ _ _ fun v hv => ?_
      rw [hGkey v (mem_of_mem_take hv)]
      exact (hp q hq).ne
    rw [hV, forall_mem_cons, hself, valueAt_above_iff]
    have hsplit : (∀ q ∈ es, ∀ ts, T < ts →
        valueAt (q.2.without q.1 ((G ++ rangeGarbage T es).take n)).versions ts =
          valueAt q.2.versions ts) ↔
        ∀ v, (rangeGarbage T es)[n - G.length]? = some v → ∀ q ∈ es, q.1 = v.key →
          ¬ Resurrects T q.2 v.ts := by
      rw [← ih]
      exact forall₂_congr fun q hq => by rw [hrest q hq]
    rw [hsplit]
    by_cases hn : n < G.length
    · rw [getElem?_append_left hn]
      have hfirst : ∀ v, (rangeGarbage T es)[n - G.length]? = some v → ∀ q ∈ es, q.1 = v.key →
          ¬ Resurrects T q.2 v.ts := by
        rw [← ih, show n - G.length = 0 by omega]
        intro q _ ts _
        rw [take_zero, without_nil]
      constructor
      · rintro ⟨hG, -⟩ v hv q hq hqv
        have hkey : v.key = p.1 := hGkey v (mem_of_getElem? hv)
        rcases mem_cons.mp hq with rfl | hq
        · exact hG v hv
        · exact absurd (hqv.trans hkey) (hp q hq).ne'
      · intro hall
        refine ⟨fun v hv => ?_, hfirst⟩
        exact hall v hv p mem_cons_self (hGkey v (mem_of_getElem? hv)).symm
    · rw [getElem?_append_right (not_lt.mp hn)]
      constructor
      · rintro ⟨-, hrest⟩ v hv q hq hqv
        rcases mem_cons.mp hq with rfl | hq
        · exact absurd hqv.symm (hVkey v (mem_of_getElem? hv))
        · exact hrest v hv q hq hqv
      · intro hall
        refine ⟨?_, fun v hv q hq => hall v hv q (mem_cons_of_mem p hq)⟩
        intro v hv
        rw [getElem?_eq_none (not_lt.mp hn)] at hv
        cases hv

end Prefixes

section Range
variable (startKey endKey : Key)

theorem sameReads_prefix_iff (e : Engine) (T : Timestamp) (n : Nat) :
    SameReadsAbove T e (e.withoutVersions
        ((enumerateGarbageVersions e startKey endKey (ordinary T)).versions.take n)) ↔
      ∀ v, (enumerateGarbageVersions e startKey endKey (ordinary T)).versions[n]? = some v →
        ¬ Resurrects T (e.history v.key) v.ts := by
  set settled := (e.entries.filter fun p => startKey ≤ p.1 ∧ p.1 < endKey).filter
    fun p => p.2.intent.isNone with hsettled
  have hV : (enumerateGarbageVersions e startKey endKey (ordinary T)).versions =
      rangeGarbage T settled := rfl
  have hsub : settled.Sublist e.entries := filter_sublist.trans filter_sublist
  have hintent : ∀ p ∈ settled, p.2.intent = none := by
    intro p hp
    simpa using (mem_filter.mp hp).2
  have hmap : ∀ vs, e.withoutVersions vs = e.mapHistories fun k h => h.without k vs := fun _ => rfl
  have hgone := rangeGarbage_prefix_iff (T := T) (e.sorted.sublist hsub) n
  rw [hV, hmap]
  constructor
  · intro hsame v hv
    obtain ⟨p, hp, hpv⟩ := key_of_mem_rangeGarbage (mem_of_getElem? hv)
    rw [← hpv, Engine.history_of_mem (hsub.subset hp)]
    refine hgone.mp (fun q hq => ?_) v hv p hp hpv
    exact valueAt_of_sameReads hsame (hsub.subset hq) (hintent q hq) (hintent q hq)
  · intro hno
    have hvalues := hgone.mpr fun v hv p hp hpv => by
      have := hno v hv
      rwa [← hpv, Engine.history_of_mem (hsub.subset hp)] at this
    refine sameReadsAbove_of_keys (fun k => rfl) fun p hp => ?_
    by_cases hmem : p ∈ settled
    · refine sameKeyReads_of_valueAt (hintent p hmem) ?_ (hvalues p hmem)
      intro s hs
      rw [all_eq_true]
      intro v hv
      obtain ⟨q, _, hq⟩ := mem_flatMap.mp (mem_of_mem_take hv)
      simpa using .inr ((mem_garbageOfKey hq).2.trans_lt hs).ne
    · have hkeys : ∀ v ∈ (rangeGarbage T settled).take n, v.key ≠ p.1 := by
        intro v hv heq
        obtain ⟨q, hq, hqv⟩ := key_of_mem_rangeGarbage (mem_of_mem_take hv)
        have hqp : q.2 = p.2 := by
          rw [← Engine.history_of_mem (hsub.subset hq), hqv, heq, Engine.history_of_mem hp]
        exact hmem ((Prod.ext (hqv.trans heq) hqp : q = p) ▸ hq)
      have := without_append p.2 p.1 _ [] hkeys
      rw [append_nil, without_nil] at this
      intro ts _ opts
      rw [this]
      exact ⟨rfl, fun _ => rfl⟩

end Range

end Datax
