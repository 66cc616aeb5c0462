import Datax.Kvpb.RangeDescriptor
import Datax.Shared.Runs
import Mathlib.Data.List.Sort

/-!
# The range cache

`Insert` walks over the cached descriptors that a new one overlaps. It drops them, except one of the
same range that is at least as fresh: that one stays, and the new one is marked by the range ID 0
and left out. The fallback for the meta span is taken from the new descriptor afterwards, and so
with the range ID 0 if it was marked.
-/

namespace Datax

open Bool List

structure RangeCache where
  -- sorted by end key
  descs : List RangeDescriptor := []
  lastMeta : Option RangeDescriptor := none

namespace RangeCache

/-- The start of `MetaSpan`. -/
def metaStart : Key := [2]

def overlaps (cur d : RangeDescriptor) : Bool :=
  decide (cur.startKey < d.endKey) && decide (d.startKey < cur.endKey)

def lookup (c : RangeCache) (key : Key) : Option RangeDescriptor :=
  ((c.descs.find? fun d => decide (key < d.endKey)).filter fun d => d.containsKey key).or
    (c.lastMeta.filter fun d => d.containsKey key)

/-- The loop of `Insert` over the cached descriptors: those that stay, and the new one. -/
def filtered : List RangeDescriptor → RangeDescriptor → List RangeDescriptor × RangeDescriptor
  | [], d => ([], d)
  | cur :: rest, d =>
    if overlaps cur d then
      if d.generation ≤ cur.generation ∧ cur.rangeID = d.rangeID then
        let p := filtered rest { d with rangeID := 0 }
        (cur :: p.1, p.2)
      else filtered rest d
    else
      let p := filtered rest d
      (cur :: p.1, p.2)

def insertOne (c : RangeCache) (d : RangeDescriptor) : RangeCache :=
  let p := filtered c.descs d
  { descs := if p.2.rangeID ≠ 0 then p.1 ++ [p.2] else p.1
    lastMeta :=
      if p.2.containsKey metaStart && c.lastMeta.all fun m =>
        decide (m.generation ≤ p.2.generation) then some p.2
      else c.lastMeta }

def sortDescs (c : RangeCache) : RangeCache :=
  { c with descs := c.descs.insertionSort fun a b => a.endKey ≤ b.endKey }

def insert (c : RangeCache) (ds : List RangeDescriptor) : RangeCache :=
  (ds.foldl insertOne c).sortDescs

def evict (c : RangeCache) (rangeID : RangeID) : RangeCache :=
  { c with descs := c.descs.eraseP fun d => d.rangeID == rangeID }

/-- The cache and its history: what was inserted, and what was cached of each range
since its last `Evict`. -/
structure State where
  cache : RangeCache := {}
  inserted : List RangeDescriptor := []
  past : List RangeDescriptor := []

inductive Action where
  | insert (ds : List RangeDescriptor)
  | evict (rangeID : RangeID)

def refused (descs : List RangeDescriptor) (d : RangeDescriptor) : Bool :=
  descs.any fun cur =>
    overlaps cur d && decide (d.generation ≤ cur.generation ∧ cur.rangeID = d.rangeID)

namespace State

def insertOne (s : State) (d : RangeDescriptor) : State where
  cache := s.cache.insertOne d
  inserted := s.inserted ++ [d]
  past := if refused s.cache.descs d then s.past else s.past ++ [d]

def step (s : State) : Action → Option State
  | .insert ds =>
    if ds.all fun d => d.rangeID != 0 && decide (d.startKey < d.endKey) then
      some { ds.foldl insertOne s with cache := s.cache.insert ds }
    else none
  | .evict rangeID =>
    some { s with
      cache := s.cache.evict rangeID, past := s.past.filter fun d => d.rangeID != rangeID }

/-- A descriptor that is left out does not become the fallback for the meta span. One
that goes in is not older than what was cached of its range, and overlaps what is. -/
def admits (s : State) (d : RangeDescriptor) : Bool :=
  if refused s.cache.descs d then
    !(d.containsKey metaStart && s.cache.lastMeta.all fun m => decide (m.generation ≤ d.generation))
  else
    (s.past.all fun e => e.rangeID != d.rangeID || decide (e.generation ≤ d.generation)) &&
      s.cache.descs.all fun e => e.rangeID != d.rangeID || overlaps e d

def careful (s : State) : Action → Bool
  | .insert ds => go s ds
  | .evict _ => true
where
  go : State → List RangeDescriptor → Bool
    | _, [] => true
    | s, d :: ds => s.admits d && go (s.insertOne d) ds

/-- The cache routes to real ranges. -/
structure Routes (s : State) : Prop where
  sorted : s.cache.descs.Pairwise fun a b => a.endKey < b.endKey
  disjoint : s.cache.descs.Pairwise fun a b => overlaps a b = false
  real : ∀ k d, s.cache.lookup k = some d → d ∈ s.inserted ∧ d.containsKey k = true
  fresh : ∀ d ∈ s.cache.descs, ∀ e ∈ s.past, e.rangeID = d.rangeID → e.generation ≤ d.generation
  covered : (∃ d ∈ s.inserted, d.containsKey metaStart = true) →
    (s.cache.lookup metaStart).isSome = true

end State

section Loop
variable {descs : List RangeDescriptor} {d : RangeDescriptor}

theorem filtered_of_not_refused (hin : refused descs d = false) :
    filtered descs d = (descs.filter fun cur => !overlaps cur d, d) := by
  induction descs with
  | nil => rfl
  | cons cur rest ih =>
    rw [refused, any_cons, or_eq_false_iff] at hin
    have hrest := ih hin.2
    unfold filtered
    by_cases ho : overlaps cur d = true
    · rw [ho, Bool.true_and, decide_eq_false_iff_not] at hin
      rw [if_pos ho, if_neg hin.1, filter_cons_of_neg (by simp [ho])]
      exact hrest
    · rw [if_neg ho, filter_cons_of_pos (by simpa using ho), hrest]

theorem filtered_snd_of_refused (hout : refused descs d = true) :
    (filtered descs d).2 = { d with rangeID := 0 } := by
  induction descs generalizing d with
  | nil => cases hout
  | cons cur rest ih =>
    rw [refused, any_cons, or_eq_true, and_eq_true, decide_eq_true_eq] at hout
    unfold filtered
    split
    · rename_i ho
      split
      · -- the descriptor is marked already, and stays so
        cases hmarked : refused rest { d with rangeID := 0 } with
        | true => exact ih hmarked
        | false => exact congrArg Prod.snd (filtered_of_not_refused hmarked)
      · rename_i hc
        exact ih (hout.resolve_left fun h => hc h.2)
    · rename_i ho
      exact ih (hout.resolve_left fun h => ho h.1)

theorem filtered_sublist (descs : List RangeDescriptor) (d : RangeDescriptor) :
    (filtered descs d).1.Sublist descs := by
  fun_induction filtered descs d with
  | case1 => exact List.Sublist.refl _
  | case2 cur rest d ho hc p ih => exact ih.cons_cons cur
  | case3 cur rest d ho hc ih => exact ih.cons cur
  | case4 cur rest d ho p ih => exact ih.cons_cons cur

end Loop

namespace State

/-- Between the insertions of one call the descriptors are not sorted. -/
structure Inv (s : State) : Prop where
  bounds : ∀ d ∈ s.cache.descs, d.startKey < d.endKey
  inserted : ∀ d ∈ s.cache.descs, d ∈ s.inserted
  disjoint : s.cache.descs.Pairwise fun a b => overlaps a b = false
  fallback : ∀ m ∈ s.cache.lastMeta, m ∈ s.inserted ∧ m.containsKey metaStart = true
  covered : (∃ d ∈ s.inserted, d.containsKey metaStart = true) → s.cache.lastMeta.isSome = true
  fresh : ∀ d ∈ s.cache.descs, ∀ e ∈ s.past, e.rangeID = d.rangeID → e.generation ≤ d.generation

variable {s s' : State} {d : RangeDescriptor}

theorem Inv.fewer (h : Inv s) {descs past : List RangeDescriptor} (hd : descs.Sublist s.cache.descs)
    (hp : ∀ e ∈ past, e ∈ s.past) :
    Inv { s with cache := { s.cache with descs := descs }, past := past } where
  bounds := fun d hm => h.bounds d (hd.subset hm)
  inserted := fun d hm => h.inserted d (hd.subset hm)
  disjoint := h.disjoint.sublist hd
  fallback := h.fallback
  covered := h.covered
  fresh := fun d hm e he => h.fresh d (hd.subset hm) e (hp e he)

theorem Inv.insertOne (h : Inv s) (hid : d.rangeID ≠ 0) (hd : d.startKey < d.endKey)
    (ha : s.admits d = true) :
    Inv (s.insertOne d) := by
  have hless : Inv { s with cache := { s.cache with descs := (filtered s.cache.descs d).1 } } :=
    h.fewer (filtered_sublist s.cache.descs d) fun _ he => he
  unfold admits at ha
  unfold State.insertOne RangeCache.insertOne
  cases hr : refused s.cache.descs d with
  | true =>
    have hkeep : (d.containsKey metaStart && s.cache.lastMeta.all fun m =>
      decide (m.generation ≤ d.generation)) =
        false := by
      rw [hr, if_pos rfl] at ha
      exact not_eq_true' _ |>.mp ha
    simp only [filtered_snd_of_refused hr, ne_eq, not_true_eq_false, if_false, if_true]
    change Inv ⟨⟨(filtered s.cache.descs d).1,
      if (d.containsKey metaStart && _) = true then _ else _⟩, _, _⟩
    rw [hkeep, if_neg Bool.false_ne_true]
    refine { hless with
      inserted := fun e he => mem_append_left _ (hless.inserted e he)
      fallback := fun m hm => ⟨mem_append_left _ (h.fallback m hm).1, (h.fallback m hm).2⟩
      covered := ?_ }
    rintro ⟨e, he, hcov⟩
    rcases mem_append.mp he with he | he
    · exact h.covered ⟨e, he, hcov⟩
    cases mem_singleton.mp he
    cases hm : s.cache.lastMeta with
    | some m => rfl
    | none => simp [hcov, hm] at hkeep
  | false =>
    rw [hr, if_neg Bool.false_ne_true, Bool.and_eq_true, all_eq_true, all_eq_true] at ha
    obtain ⟨hnewer, hover⟩ := ha
    have hfiltered := filtered_of_not_refused hr
    have hapart : ∀ cur ∈ (filtered s.cache.descs d).1, cur ∈ s.cache.descs ∧
        overlaps cur d = false := by
      intro cur hcur
      rw [hfiltered] at hcur
      simpa using mem_filter.mp hcur
    have hsnd : (filtered s.cache.descs d).2 = d := congrArg Prod.snd hfiltered
    simp only [hsnd, if_pos hid, false_eq_true, if_false]
    constructor
    case bounds => exact forall_mem_append.mpr ⟨hless.bounds, forall_mem_singleton.mpr hd⟩
    case inserted =>
      intro e he
      exact (mem_append.mp he).elim (fun he => mem_append_left _ (hless.inserted e he))
        (mem_append_right _)
    case disjoint =>
      rw [pairwise_append]
      refine ⟨hless.disjoint, pairwise_singleton _ _, ?_⟩
      intro a ha b hb
      cases mem_singleton.mp hb
      exact (hapart a ha).2
    case fallback =>
      intro m hm
      split at hm
      · rename_i hcov
        cases hm
        exact ⟨mem_append_right _ mem_cons_self, (and_eq_true _ _ |>.mp hcov).1⟩
      · exact ⟨mem_append_left _ (h.fallback m hm).1, (h.fallback m hm).2⟩
    case covered =>
      rintro ⟨e, he, hcov⟩
      split
      · rfl
      rename_i hnot
      rcases mem_append.mp he with he | he
      · exact h.covered ⟨e, he, hcov⟩
      cases mem_singleton.mp he
      cases hm : s.cache.lastMeta with
      | some m => rfl
      | none => simp [hcov, hm] at hnot
    case fresh =>
      intro e he x hx hsame
      rcases mem_append.mp he with he | he
      · rcases mem_append.mp hx with hx | hx
        · exact hless.fresh e he x hx hsame
        -- a cached descriptor of the same range overlaps the new one, and is gone
        cases mem_singleton.mp hx
        have := hover e (hapart e he).1
        rw [(hapart e he).2, Bool.or_false, bne_iff_ne] at this
        exact absurd hsame.symm this
      · cases mem_singleton.mp he
        rcases mem_append.mp hx with hx | hx
        · simpa [hsame] using hnewer x hx
        · cases mem_singleton.mp hx
          exact le_refl _

theorem Inv.insertAll {ds : List RangeDescriptor} (h : Inv s)
    (hds : ∀ d ∈ ds, d.rangeID ≠ 0 ∧ d.startKey < d.endKey) (hc : careful.go s ds = true) :
    Inv (ds.foldl State.insertOne s) := by
  induction ds generalizing s with
  | nil => exact h
  | cons d ds ih =>
    rw [careful.go, and_eq_true] at hc
    obtain ⟨hd, hds⟩ := forall_mem_cons.mp hds
    exact ih (h.insertOne hd.1 hd.2 hc.1) hds hc.2

theorem Inv.sortDescs (h : Inv s) : Inv { s with cache := s.cache.sortDescs } := by
  have hperm := perm_insertionSort (fun a b : RangeDescriptor => a.endKey ≤ b.endKey) s.cache.descs
  exact { h with
    bounds := fun d hd => h.bounds d (hperm.mem_iff.mp hd)
    inserted := fun d hd => h.inserted d (hperm.mem_iff.mp hd)
    disjoint := hperm.symm.pairwise h.disjoint fun {a b} hab => by
      rw [overlaps, Bool.and_comm]; exact hab
    fresh := fun d hd => h.fresh d (hperm.mem_iff.mp hd) }

theorem Inv.routes (h : Inv s) (hsorted : s.cache.descs.Pairwise fun a b => a.endKey ≤ b.endKey) :
    Routes s where
  sorted := by
    refine (hsorted.and h.disjoint).imp_of_mem ?_
    rintro a b ha hb ⟨hle, hapart⟩
    refine lt_of_le_of_ne hle fun heq => ?_
    have hboth : overlaps a b = true := by
      simp only [overlaps, and_eq_true, decide_eq_true_eq]
      exact ⟨heq ▸ h.bounds a ha, heq ▸ h.bounds b hb⟩
    simp [hboth] at hapart
  disjoint := h.disjoint
  real := by
    intro k d hd
    rcases Option.or_eq_some_iff.mp hd with hd | ⟨_, hd⟩
    · obtain ⟨hfind, hk⟩ := Option.filter_eq_some_iff.mp hd
      exact ⟨h.inserted d (mem_of_find?_eq_some hfind), hk⟩
    · obtain ⟨hm, hk⟩ := Option.filter_eq_some_iff.mp hd
      exact ⟨(h.fallback d hm).1, hk⟩
  fresh := h.fresh
  covered := by
    intro hcov
    obtain ⟨m, hm⟩ := Option.isSome_iff_exists.mp (h.covered hcov)
    have : s.cache.lastMeta.filter (fun d => d.containsKey metaStart) = some m :=
      Option.filter_eq_some_iff.mpr ⟨hm, (h.fallback m hm).2⟩
    rw [lookup, this, Option.isSome_or, Option.isSome_some, Bool.or_true]

theorem foldl_insertOne_cache (s : State) (ds : List RangeDescriptor) :
    (ds.foldl insertOne s).cache = ds.foldl RangeCache.insertOne s.cache := by
  induction ds generalizing s with
  | nil => rfl
  | cons d ds ih => exact ih (s.insertOne d)

theorem inv_step (a : Action) (h : Inv s ∧ s.cache.descs.Pairwise fun a b => a.endKey ≤ b.endKey)
    (hc : s.careful a = true) (hs : step s a = some s') :
    Inv s' ∧ s'.cache.descs.Pairwise fun a b => a.endKey ≤ b.endKey := by
  cases a with
  | insert ds =>
    simp only [step] at hs
    split_ifs at hs with hds
    cases hs
    rw [RangeCache.insert, ← foldl_insertOne_cache]
    refine ⟨(h.1.insertAll ?_ hc).sortDescs, pairwise_insertionSort _ _⟩
    intro d hd
    simpa using all_eq_true.mp hds d hd
  | evict rangeID =>
    cases hs
    have hsub :=
      eraseP_sublist (p := fun d : RangeDescriptor => d.rangeID == rangeID) (l := s.cache.descs)
    exact ⟨h.1.fewer hsub fun e he => mem_of_mem_filter he, h.2.sublist hsub⟩

end State

/-- In every run in which each inserted descriptor is admitted, the cache routes to real ranges. -/
theorem cache_routes {s : State} {as : List Action}
    (hc : Runs.Guarded State.step (fun s a => s.careful a = true) {} as)
    (hr : Runs.run State.step {} as = some s) : s.Routes := by
  have hstart : State.Inv {} := by constructor <;> simp
  obtain ⟨hinv, hsorted⟩ := Runs.invariant_of_run (fun s a s' h hc hs => State.inv_step a h hc hs)
    ⟨hstart, List.Pairwise.nil⟩ hc hr
  exact hinv.routes hsorted

def descriptor (rangeID : RangeID) (startKey endKey : Key) (generation : Int) : RangeDescriptor :=
  ⟨rangeID, startKey, endKey, [⟨1, 1, 1⟩], 2, generation⟩

def lateDescriptor : List Action :=
  [.insert [descriptor 1 [2] [9] 1], .insert [descriptor 1 [2] [5] 2, descriptor 2 [5] [9] 2],
    .insert [descriptor 1 [2] [9] 1], .evict 1]

theorem cache_routes_split : ∃ s, Runs.run State.step {} lateDescriptor = some s ∧ s.Routes := by
  obtain ⟨s, hr⟩ : ∃ s, Runs.run State.step {} lateDescriptor = some s := ⟨_, rfl⟩
  exact ⟨s, hr, cache_routes (by decide +kernel) hr⟩

/-- The descriptor of the meta range is inserted twice and evicted: the fallback has no range ID.
And a range that gave way to another comes back with an older generation. -/
theorem cache_misroutes :
    (∃ s, Runs.run State.step {}
      [.insert [descriptor 1 [2] [9] 1], .insert [descriptor 1 [2] [9] 1], .evict 1] =
      some s ∧ s.cache.lookup metaStart = some (descriptor 0 [2] [9] 1) ∧ ¬ s.Routes) ∧
    ∃ s, Runs.run State.step {} [.insert [descriptor 1 [2] [9] 5], .insert [descriptor 2 [4] [9] 1],
      .insert [descriptor 1 [2] [4] 3]] = some s ∧ ¬ s.Routes := by
  refine ⟨⟨_, rfl, by decide +kernel, fun h => ?_⟩, _, rfl, fun h => ?_⟩
  · exact absurd (h.real metaStart (descriptor 0 [2] [9] 1) (by decide +kernel)).1
      (by decide +kernel)
  · exact absurd (h.fresh (descriptor 1 [2] [4] 3) (by decide +kernel) (descriptor 1 [2] [9] 5)
      (by decide +kernel) rfl)
      (by decide)

end RangeCache

end Datax
