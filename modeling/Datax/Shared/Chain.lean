import Mathlib.Data.List.Nodup
import Mathlib.Order.Lattice

/-!
# Version chains

A chain is a finite map from a linearly ordered stamp type, stored newest
first. It is what a multi-version store keeps for one key: reads look for the
newest stamp with some property, writes insert at a stamp, and collection
deletes stamps.
-/

namespace Shared

open List

universe u v

@[ext]
structure Chain (τ : Type u) (ν : Type v) [LT τ] where
  entries : List (τ × ν)
  descending : entries.Pairwise fun a b => b.1 < a.1

namespace Chain

section Order
variable {τ : Type u} {ν : Type v} [LinearOrder τ]

instance [DecidableEq ν] : DecidableEq (Chain τ ν) := fun c d =>
  decidable_of_iff (c.entries = d.entries) Chain.ext_iff.symm

def empty : Chain τ ν := ⟨[], List.Pairwise.nil⟩

def newest (c : Chain τ ν) (p : τ → Bool) : Option (τ × ν) := c.entries.find? fun e => p e.1

def get (c : Chain τ ν) (t : τ) : Option ν := (c.newest (· == t)).map Prod.snd

def insertEntry (t : τ) (v : ν) : List (τ × ν) → List (τ × ν)
  | [] => [(t, v)]
  | e :: es =>
    if e.1 < t then (t, v) :: e :: es
    else if e.1 = t then (t, v) :: es
    else e :: insertEntry t v es

variable {c : Chain τ ν} {t : τ} {v : ν} {es : List (τ × ν)} {e : τ × ν}

theorem mem_insertEntry_iff (h : es.Pairwise fun a b => b.1 < a.1) :
    e ∈ insertEntry t v es ↔ e = (t, v) ∨ e ∈ es ∧ e.1 ≠ t := by
  induction es with
  | nil => simp [insertEntry]
  | cons d es ih =>
    obtain ⟨hd, hes⟩ := pairwise_cons.mp h
    simp only [insertEntry]
    split
    · rename_i hlt
      have hne : ∀ b ∈ d :: es, b.1 ≠ t := by
        intro b hb
        rcases mem_cons.mp hb with rfl | hb
        · exact hlt.ne
        · exact ((hd b hb).trans hlt).ne
      rw [mem_cons]
      exact or_congr_right ⟨fun he => ⟨he, hne e he⟩, fun he => he.1⟩
    · split
      · rename_i heq
        rw [mem_cons, mem_cons]
        apply or_congr_right
        constructor
        · intro he
          exact ⟨.inr he, (heq ▸ hd e he).ne⟩
        · rintro ⟨rfl | he, hne⟩
          · exact absurd heq hne
          · exact he
      · rename_i heq
        rw [mem_cons, mem_cons, ih hes]
        constructor
        · rintro (rfl | rfl | ⟨he, hne⟩)
          · exact .inr ⟨.inl rfl, heq⟩
          · exact .inl rfl
          · exact .inr ⟨.inr he, hne⟩
        · rintro (rfl | ⟨rfl | he, hne⟩)
          · exact .inr (.inl rfl)
          · exact .inl rfl
          · exact .inr (.inr ⟨he, hne⟩)

theorem insertEntry_descending (t : τ) (v : ν) (h : es.Pairwise fun a b => b.1 < a.1) :
    (insertEntry t v es).Pairwise fun a b => b.1 < a.1 := by
  induction es with
  | nil => simp [insertEntry]
  | cons d es ih =>
    obtain ⟨hd, hes⟩ := pairwise_cons.mp h
    simp only [insertEntry]
    split
    · rename_i hlt
      refine pairwise_cons.mpr ⟨?_, h⟩
      intro e he
      rcases mem_cons.mp he with rfl | he
      · exact hlt
      · exact (hd e he).trans hlt
    · split
      · rename_i heq
        exact pairwise_cons.mpr ⟨fun e he => heq ▸ hd e he, hes⟩
      rename_i hlt heq
      refine pairwise_cons.mpr ⟨?_, ih hes⟩
      intro e he
      rcases (mem_insertEntry_iff hes).mp he with rfl | ⟨he, _⟩
      · exact lt_of_le_of_ne (not_lt.mp hlt) (Ne.symm heq)
      · exact hd e he

def put (c : Chain τ ν) (t : τ) (v : ν) : Chain τ ν :=
  ⟨insertEntry t v c.entries, insertEntry_descending t v c.descending⟩

def keep (c : Chain τ ν) (p : τ → Bool) : Chain τ ν :=
  ⟨c.entries.filter fun e => p e.1, c.descending.sublist List.filter_sublist⟩

def delete (c : Chain τ ν) (t : τ) : Chain τ ν := c.keep (· != t)

@[simp] theorem keep_entries (c : Chain τ ν) (p : τ → Bool) :
    (c.keep p).entries = c.entries.filter fun e => p e.1 := rfl

@[simp] theorem keep_keep (c : Chain τ ν) (p q : τ → Bool) :
    (c.keep p).keep q = c.keep fun t => p t && q t := by
  ext1
  simp [filter_filter, Bool.and_comm]

theorem keep_of_forall {p : τ → Bool} (h : ∀ e ∈ c.entries, p e.1 = true) : c.keep p = c := by
  ext1
  exact filter_eq_self.mpr h

theorem eq_of_mem {d : τ × ν} (hd : d ∈ c.entries) (he : e ∈ c.entries) (h : d.1 = e.1) :
    d = e := by
  have hnodup : (c.entries.map Prod.fst).Nodup := by
    rw [List.Nodup, pairwise_map]
    exact c.descending.imp fun hlt => hlt.ne'
  exact inj_on_of_nodup_map hnodup hd he h

theorem get_eq_some_iff : c.get t = some v ↔ (t, v) ∈ c.entries := by
  unfold get newest
  constructor
  · intro h
    obtain ⟨e, hfind, rfl⟩ := Option.map_eq_some_iff.mp h
    have ht : e.1 = t := by simpa using find?_some hfind
    rw [← ht]
    exact mem_of_find?_eq_some hfind
  · intro hmem
    cases hfind : c.entries.find? fun e => e.1 == t with
    | none =>
      have hno := find?_eq_none.mp hfind (t, v) hmem
      simp at hno
    | some e =>
      have ht : e.1 = t := by simpa using find?_some hfind
      rw [eq_of_mem (mem_of_find?_eq_some hfind) hmem ht]
      rfl

theorem get_put (c : Chain τ ν) (t u : τ) (v : ν) :
    (c.put t v).get u = if u = t then some v else c.get u := by
  apply Option.ext
  intro w
  rw [get_eq_some_iff]
  change (u, w) ∈ insertEntry t v c.entries ↔ _
  rw [mem_insertEntry_iff c.descending, Prod.mk.injEq]
  split
  · rename_i heq
    simp [heq, eq_comm]
  · rename_i hne
    simp [hne, get_eq_some_iff]

theorem get_delete (c : Chain τ ν) (t u : τ) :
    (c.delete t).get u = if u = t then none else c.get u := by
  apply Option.ext
  intro w
  rw [get_eq_some_iff, delete, keep_entries, mem_filter]
  split
  · rename_i heq
    simp [heq]
  · rename_i hne
    simp [hne, get_eq_some_iff]

theorem ext_get {d : Chain τ ν} (h : ∀ t, c.get t = d.get t) : c = d := by
  have hnodup : ∀ x : Chain τ ν, x.entries.Nodup := by
    intro x
    exact x.descending.imp fun hlt heq => hlt.ne (congrArg Prod.fst heq).symm
  have hmem : ∀ e, e ∈ c.entries ↔ e ∈ d.entries := by
    rintro ⟨t, v⟩
    rw [← get_eq_some_iff, ← get_eq_some_iff, h]
  have hperm := (perm_ext_iff_of_nodup (hnodup c) (hnodup d)).mpr hmem
  ext1
  exact hperm.eq_of_pairwise (fun a b _ _ hab hba => absurd (hab.trans hba) (lt_irrefl _))
    c.descending d.descending

section
variable (c) (t) (v)

theorem delete_put : (c.put t v).delete t = c.delete t := by
  apply ext_get
  intro u
  rw [get_delete, get_delete, get_put]
  split
  · rfl
  · rfl

theorem put_delete : (c.delete t).put t v = c.put t v := by
  apply ext_get
  intro u
  rw [get_put, get_put, get_delete]
  split
  · rfl
  · rfl

end

theorem delete_eq_self_iff : c.delete t = c ↔ c.get t = none := by
  constructor
  · intro h
    rw [← h, get_delete, if_pos rfl]
  intro h
  apply ext_get
  intro u
  rw [get_delete]
  split
  · rename_i heq
    rw [heq, h]
  · rfl

theorem newest_of_mem {p : τ → Bool} (he : e ∈ c.entries) (hp : p e.1 = true)
    (hmax : ∀ d ∈ c.entries, p d.1 = true → d.1 ≤ e.1) : c.newest p = some e := by
  unfold newest
  cases hfind : c.entries.find? fun e => p e.1 with
  | none => exact absurd hp (find?_eq_none.mp hfind e he)
  | some d =>
    obtain ⟨hpd, newer, older, hsplit, hnewer⟩ := find?_eq_some_iff_append.mp hfind
    have hdesc := c.descending
    have hmem := he
    rw [hsplit] at hdesc hmem
    rcases mem_append.mp hmem with hmem | hmem
    · have hno := hnewer e hmem
      simp [hp] at hno
    rcases mem_cons.mp hmem with rfl | hmem
    · rfl
    have hlt := (pairwise_cons.mp (pairwise_append.mp hdesc).2.1).1 e hmem
    have hle := hmax d (by rw [hsplit]; exact mem_append_right _ mem_cons_self) hpd
    exact absurd hlt (not_lt.mpr hle)

section Newest
variable (h : ∀ e ∈ c.entries.head?, e.1 < t)
include h

theorem forall_lt_of_head : ∀ e ∈ c.entries, e.1 < t := by
  intro e he
  cases hes : c.entries with
  | nil =>
    simp [hes] at he
  | cons d es =>
    have hd : d.1 < t := h d (by simp [hes])
    have hdesc := c.descending
    rw [hes] at he hdesc
    rcases mem_cons.mp he with rfl | he
    · exact hd
    · exact ((pairwise_cons.mp hdesc).1 e he).trans hd

theorem put_entries_of_newest (v : ν) : (c.put t v).entries = (t, v) :: c.entries := by
  change insertEntry t v c.entries = _
  cases hes : c.entries with
  | nil => rfl
  | cons d es =>
    have hd : d.1 < t := h d (by simp [hes])
    simp [insertEntry, hd]

theorem get_put_of_newest (v : ν) : (c.put t v).get t = some v := by
  simp [get, newest, put_entries_of_newest h v]

theorem delete_put_of_newest (v : ν) : (c.put t v).delete t = c := by
  ext1
  rw [delete, keep_entries, put_entries_of_newest h v]
  have hkeep : c.entries.filter (fun e => e.1 != t) = c.entries := by
    apply filter_eq_self.mpr
    intro e he
    simpa using (forall_lt_of_head h e he).ne
  simpa using hkeep

end Newest

def upTo (c : Chain τ ν) (t : τ) : Option (τ × ν) := c.newest fun s => decide (s ≤ t)

theorem upTo_eq_none_iff : c.upTo t = none ↔ ∀ e ∈ c.entries, t < e.1 := by
  simp [upTo, newest, find?_eq_none]

theorem upTo_eq_some_iff : c.upTo t = some e ↔ e.1 ≤ t ∧ ∃ newer older,
      c.entries = newer ++ e :: older ∧ ∀ d ∈ newer, t < d.1 := by
  simp [upTo, newest, find?_eq_some_iff_append]

theorem upTo_eq_some_iff_mem :
    c.upTo t = some e ↔ e ∈ c.entries ∧ e.1 ≤ t ∧ ∀ d ∈ c.entries, d.1 ≤ t → d.1 ≤ e.1 := by
  constructor
  · intro h
    obtain ⟨het, newer, older, hsplit, hnewer⟩ := upTo_eq_some_iff.mp h
    refine ⟨by simp [hsplit], het, ?_⟩
    intro d hd hdt
    have hdesc := c.descending
    rw [hsplit, pairwise_append] at hdesc
    rw [hsplit] at hd
    rcases mem_append.mp hd with hd | hd
    · exact absurd (hnewer d hd) (not_lt.mpr hdt)
    rcases mem_cons.mp hd with rfl | hd
    · exact le_rfl
    · exact ((pairwise_cons.mp hdesc.2.1).1 d hd).le
  · rintro ⟨hmem, het, hmax⟩
    exact newest_of_mem hmem (decide_eq_true het) fun d hd hdt => hmax d hd (of_decide_eq_true hdt)

theorem upTo_put_self (c : Chain τ ν) (t : τ) (v : ν) : (c.put t v).upTo t = some (t, v) := by
  refine upTo_eq_some_iff_mem.mpr ⟨get_eq_some_iff.mp ?_, le_rfl, fun d _ hd => hd⟩
  rw [get_put, if_pos rfl]

theorem upTo_congr {d : Chain τ ν} (h : ∀ e, e.1 ≤ t → (e ∈ c.entries ↔ e ∈ d.entries)) :
    c.upTo t = d.upTo t := by
  apply Option.ext
  intro e
  rw [upTo_eq_some_iff_mem, upTo_eq_some_iff_mem]
  constructor
  · rintro ⟨hmem, het, hmax⟩
    exact ⟨(h e het).mp hmem, het, fun d hd hdt => hmax d ((h d hdt).mpr hd) hdt⟩
  · rintro ⟨hmem, het, hmax⟩
    exact ⟨(h e het).mpr hmem, het, fun d hd hdt => hmax d ((h d hdt).mp hd) hdt⟩

theorem upTo_of_not_mem {u : τ} (htu : t < u) (h : ∀ e ∈ c.entries, t < e.1 → u < e.1) :
    c.upTo u = c.upTo t := by
  have hiff : ∀ e ∈ c.entries, e.1 ≤ u ↔ e.1 ≤ t := by
    intro e he
    refine ⟨fun heu => ?_, fun het => het.trans htu.le⟩
    by_contra hlt
    exact absurd (h e he (not_le.mp hlt)) (not_lt.mpr heu)
  apply Option.ext
  intro e
  rw [upTo_eq_some_iff_mem, upTo_eq_some_iff_mem]
  refine and_congr_right fun hmem => and_congr (hiff e hmem) ?_
  exact forall₂_congr fun d hd => imp_congr_left (hiff d hd)

section Keep
variable {p : τ → Bool} (hp : ∀ s, t < s → p s = true)
include hp

theorem upTo_keep_of_mem {u : τ} (he : e ∈ c.entries) (hte : t < e.1) (heu : e.1 ≤ u) :
    ∃ d, c.upTo u = some d ∧ (c.keep p).upTo u = some d := by
  cases hc : c.upTo u with
  | none => exact absurd (upTo_eq_none_iff.mp hc e he) (not_lt.mpr heu)
  | some d =>
    obtain ⟨hdu, newer, older, hsplit, hnewer⟩ := upTo_eq_some_iff.mp hc
    have htd : t < d.1 := by
      have hdesc := c.descending
      rw [hsplit, pairwise_append] at hdesc
      rw [hsplit] at he
      rcases mem_append.mp he with he | he
      · exact absurd (hnewer e he) (not_lt.mpr heu)
      rcases mem_cons.mp he with rfl | he
      · exact hte
      · exact hte.trans ((pairwise_cons.mp hdesc.2.1).1 e he)
    refine ⟨d, rfl,
      upTo_eq_some_iff.mpr ⟨hdu, newer.filter fun e => p e.1, older.filter fun e => p e.1, ?_, ?_⟩⟩
    · simp [hsplit, hp d.1 htd]
    · intro b hb
      exact hnewer b (mem_filter.mp hb).1

/-- Deleting entries at or below `t` is invisible above `t` exactly when an entry
sits directly above `t`, or the view at `t` itself is unchanged. -/
theorem same_above_iff {β : Type*} (f : Option (τ × ν) → β) {t' : τ} (hsucc : ∀ s, t < s ↔ t' ≤ s) :
    (∀ u, t < u → f ((c.keep p).upTo u) = f (c.upTo u)) ↔
      (∃ v, (t', v) ∈ c.entries) ∨ f ((c.keep p).upTo t) = f (c.upTo t) := by
  have htt' : t < t' := (hsucc t').mpr le_rfl
  constructor
  · intro h
    by_cases hmem : ∃ v, (t', v) ∈ c.entries
    · exact .inl hmem
    right
    have hgap : ∀ e ∈ c.entries, t < e.1 → t' < e.1 := by
      intro e he hte
      refine lt_of_le_of_ne ((hsucc e.1).mp hte) ?_
      rintro rfl
      exact hmem ⟨e.2, he⟩
    have hkeep : ∀ e ∈ (c.keep p).entries, t < e.1 → t' < e.1 :=
      fun e he => hgap e (mem_filter.mp he).1
    rw [← upTo_of_not_mem htt' hgap, ← upTo_of_not_mem htt' hkeep]
    exact h t' htt'
  · intro h u htu
    by_cases hex : ∃ e ∈ c.entries, t < e.1 ∧ e.1 ≤ u
    · obtain ⟨e, he, hte, heu⟩ := hex
      obtain ⟨d, hc, hk⟩ := upTo_keep_of_mem hp he hte heu
      rw [hc, hk]
    · have hgap : ∀ e ∈ c.entries, t < e.1 → u < e.1 := by
        intro e he hte
        by_contra hlt
        exact hex ⟨e, he, hte, not_lt.mp hlt⟩
      have hkeep : ∀ e ∈ (c.keep p).entries, t < e.1 → u < e.1 :=
        fun e he => hgap e (mem_filter.mp he).1
      rw [upTo_of_not_mem htu hgap, upTo_of_not_mem htu hkeep]
      rcases h with ⟨v, hv⟩ | h
      · exact absurd (hgap _ hv htt') (not_lt.mpr ((hsucc u).mp htu))
      · exact h

end Keep

theorem filter_not_mem_take (h : es.Pairwise fun a b => b.1 < a.1) (j : Nat) :
    (es.filter fun e => (es.take j).all fun d => decide (d.1 ≠ e.1)) = es.drop j := by
  have hsplit := take_append_drop j es
  rw [← hsplit, pairwise_append] at h
  obtain ⟨_, _, hlt⟩ := h
  calc
    _ = ((es.take j ++ es.drop j).filter fun e => (es.take j).all fun d => decide (d.1 ≠ e.1)) := by
      rw [hsplit]
    _ = es.drop j := by
      rw [filter_append]
      have htake : ((es.take j).filter fun e => (es.take j).all fun d => decide (d.1 ≠ e.1)) =
          [] := by
        rw [filter_eq_nil_iff]
        intro e he hall
        simpa using all_eq_true.mp hall e he
      have hdrop : ((es.drop j).filter fun e => (es.take j).all fun d => decide (d.1 ≠ e.1)) =
          es.drop j := by
        rw [filter_eq_self]
        intro e he
        rw [all_eq_true]
        intro d hd
        simpa using (hlt d hd e he).ne'
      rw [htake, hdrop, nil_append]

end Order

end Chain

end Shared
