import Datax.Kvserver.MetaRepairs

/-!
# Addressing converges

The range to the left of a key rises in generation with every change, so a put at an end key
outranks what was sent before, and a delete names the last put. An end key of a live range is on its
way to the range's descriptor, any other to be empty. A delete delivered ahead of the put it deletes
finds nothing, and the put lands where no range ends.
-/

namespace Datax.Addressing

open List RangeDescriptor
open Shared (Chain)
open Ranges (Layout Command)
open OrderDual (toDual ofDual)
open Register (Write Latest Gone UpTo)

structure Inv (keyspace : Set Key) (s : State) : Prop where
  ranges : Ranges.Inv keyspace s.layout
  once : ∀ batch ∈ s.pending, (batch.map UpdateMetaRequest.key).Nodup
  upTo : ∀ e d, Reaches s.layout e d →
    UpTo generation d.generation (s.records.get (toDual e)) (queueAt e s.pending)
  latest : ∀ e d, Reaches s.layout e d → d.endKey = e →
    Latest generation d (s.records.get (toDual e)) (queueAt e s.pending)
  gone : ∀ e, (∀ d, Reaches s.layout e d → d.endKey ≠ e) →
    Gone rangeID generation (s.records.get (toDual e)) (queueAt e s.pending)

section Changes
variable {keyspace : Set Key} {s : State} {layout : Layout} {batch : List UpdateMetaRequest}
  {old new : List RangeDescriptor}

theorem queueAt_append (e : Key) (p q : List (List UpdateMetaRequest)) :
    queueAt e (p ++ q) = queueAt e p ++ queueAt e q := flatMap_append

theorem queueAt_singleton (e : Key) : queueAt e [batch] = writesAt e batch := flatMap_singleton _ _

variable {d : RangeDescriptor}

theorem reaches_end (h : Ranges.Inv keyspace layout)
    (hd : layout.live d.rangeID = some d) : Reaches layout d.endKey d := ⟨hd, h.wide _ _ hd, le_rfl⟩

theorem Repairs.writesAt_cases (hrep : Repairs batch old new) (e : Key) :
    writesAt e batch = [] ∨ (∃ n ∈ new, n.endKey = e ∧ writesAt e batch = [.put n]) ∨
      ∃ o ∈ old, o.endKey = e ∧ writesAt e batch = [.delete o.rangeID o.generation] := by
  rcases Addressing.writesAt_cases hrep.once with hnil | ⟨q, hq, hkey, heq⟩
  · exact Or.inl hnil
  apply Or.inr
  rcases hrep.only q hq with ⟨n, hn, rfl⟩ | ⟨o, ho, rfl⟩
  · exact Or.inl ⟨n, hn, hkey, heq⟩
  · exact Or.inr ⟨o, ho, hkey, heq⟩

theorem Repairs.writesAt_put (hrep : Repairs batch old new) {n : RangeDescriptor} (hn : n ∈ new) :
    writesAt n.endKey batch = [.put n] := by
  have hmem : Write.put n ∈ writesAt n.endKey batch :=
    mem_writesAt.mpr ⟨_, hrep.puts n hn, rfl, rfl⟩
  rcases Addressing.writesAt_cases hrep.once with hnil | ⟨q, _, _, heq⟩
  · rw [hnil] at hmem
    cases hmem
  · rw [heq] at hmem ⊢
    rw [mem_singleton.mp hmem]

variable (h : Inv keyspace s) (h' : Ranges.Inv keyspace layout)
  (hrepl : Replaces s.layout layout old new) (hrep : Repairs batch old new)
include h h' hrepl hrep

variable {e : Key}

theorem Inv.untouched (hd : Reaches layout e d) (hnew : d ∉ new) :
    Reaches s.layout e d ∧ writesAt e batch = [] := by
  obtain ⟨hlive, hold⟩ := ((hrepl.live d).mp hd.live).resolve_left hnew
  have hreach : Reaches s.layout e d := ⟨hlive, hd.below, hd.above⟩
  refine ⟨hreach, ?_⟩
  rcases hrep.writesAt_cases e with hnil | ⟨n, hn, hend, _⟩ | ⟨o, ho, hend, _⟩
  · exact hnil
  · have hlast : Reaches layout e n := hend ▸ reaches_end h' ((hrepl.live n).mpr (.inl hn))
    rw [reaches_unique h' hd hlast] at hnew
    exact absurd hn hnew
  · have hlast : Reaches s.layout e o := hend ▸ reaches_end h.ranges (hrepl.gone o ho)
    rw [reaches_unique h.ranges hreach hlast] at hold
    exact absurd ho hold

theorem Inv.upTo_new (hd : Reaches layout e d) (hnew : d ∈ new) :
    UpTo generation d.generation (s.records.get (toDual e))
      (queueAt e s.pending ++ writesAt e batch) := by
  obtain ⟨o, ho, hlo, hhi, hgen⟩ := hrepl.rises d hnew e hd.below hd.above
  have hreach : Reaches s.layout e o := ⟨hrepl.gone o ho, hlo, hhi⟩
  have hle : o.generation ≤ d.generation := by
    rcases hgen with hlt | rfl
    · exact hlt.le
    · exact le_rfl
  have hold := (h.upTo e o hreach).mono hle
  rcases hrep.writesAt_cases e with hnil | ⟨n, hn, hend, heq⟩ | ⟨g, hg, hend, heq⟩
  · rw [hnil, append_nil]
    exact hold
  · have hlast : Reaches layout e n := hend ▸ reaches_end h' ((hrepl.live n).mpr (.inl hn))
    rw [heq, reaches_unique h' hlast hd]
    exact hold.put le_rfl
  · have hlast : Reaches s.layout e g := hend ▸ reaches_end h.ranges (hrepl.gone g hg)
    rw [heq, reaches_unique h.ranges hlast hreach]
    exact hold.delete hle

theorem Inv.latest_new (hnew : d ∈ new) : Latest generation d (s.records.get (toDual d.endKey))
      (queueAt d.endKey s.pending ++ writesAt d.endKey batch) := by
  have hlive := (hrepl.live d).mpr (.inl hnew)
  have hd := reaches_end h' hlive
  obtain ⟨o, ho, hlo, hhi, hgen⟩ := hrepl.rises d hnew d.endKey hd.below hd.above
  have hreach : Reaches s.layout d.endKey o := ⟨hrepl.gone o ho, hlo, hhi⟩
  rw [hrep.writesAt_put hnew]
  rcases hgen with hlt | rfl
  · exact (h.upTo _ o hreach).latest hlt
  · exact (h.latest _ o hreach rfl).again

theorem Inv.gone_after (hno : ∀ d, Reaches layout e d → d.endKey ≠ e) :
    Gone rangeID generation (s.records.get (toDual e))
      (queueAt e s.pending ++ writesAt e batch) := by
  have hnone : ∀ n ∈ new, n.endKey ≠ e := by
    rintro n hn rfl
    exact hno n (reaches_end h' ((hrepl.live n).mpr (.inl hn))) rfl
  rcases hrep.writesAt_cases e with hnil | ⟨n, hn, hend, _⟩ | ⟨o, ho, hend, heq⟩
  · rw [hnil, append_nil]
    apply h.gone
    rintro d hd rfl
    by_cases hold : d ∈ old
    · rcases hrep.ends d hold with ⟨n, hn, hend⟩ | hdel
      · exact hnone n hn hend
      · have hmem : (deleteRecord d).write ∈ writesAt d.endKey batch :=
          mem_writesAt.mpr ⟨_, hdel, rfl, rfl⟩
        simp [hnil] at hmem
    · exact hno d (reaches_end h' ((hrepl.live d).mpr (.inr ⟨hd.live, hold⟩))) rfl
  · exact absurd hend (hnone n hn)
  · subst hend
    rw [heq]
    exact (h.latest _ o (reaches_end h.ranges (hrepl.gone o ho)) rfl).gone

theorem Inv.change : Inv keyspace { s with layout := layout, pending := s.pending ++ [batch] } := by
  constructor
  case ranges => exact h'
  case once =>
    refine forall_mem_append.mpr ⟨h.once, forall_mem_singleton.mpr ?_⟩
    exact hrep.once
  case upTo =>
    intro e d hd
    rw [queueAt_append, queueAt_singleton]
    by_cases hnew : d ∈ new
    · exact h.upTo_new h' hrepl hrep hd hnew
    obtain ⟨hreach, hnil⟩ := h.untouched h' hrepl hrep hd hnew
    rw [hnil, append_nil]
    exact h.upTo e d hreach
  case latest =>
    rintro e d hd rfl
    rw [queueAt_append, queueAt_singleton]
    by_cases hnew : d ∈ new
    · exact h.latest_new h' hrepl hrep hnew
    obtain ⟨hreach, hnil⟩ := h.untouched h' hrepl hrep hd hnew
    rw [hnil, append_nil]
    exact h.latest _ d hreach rfl
  case gone =>
    intro e hno
    rw [queueAt_append, queueAt_singleton]
    exact h.gone_after h' hrepl hrep hno

end Changes

section Delivery
variable {keyspace : Set Key} {s : State} {i : Nat} {batch : List UpdateMetaRequest}

theorem pending_split (hi : s.pending[i]? = some batch) :
    s.pending = s.pending.take i ++ batch :: s.pending.drop (i + 1) := by
  obtain ⟨hlt, hget⟩ := List.getElem?_eq_some_iff.mp hi
  rw [← hget, List.getElem_cons_drop, List.take_append_drop]

theorem no_put_before (hguard : inOrder s (.deliver i) = true) (hi : s.pending[i]? = some batch)
    {q : UpdateMetaRequest} (hq : q ∈ batch) (hdel : q.desc = none) (v : RangeDescriptor) :
    Write.put v ∉ queueAt q.key (s.pending.take i) := by
  intro hmem
  simp only [inOrder, hi, Option.getD_some, all_eq_true, Bool.or_eq_true] at hguard
  obtain ⟨b, hb, hw⟩ := mem_flatMap.mp hmem
  obtain ⟨p, hp, hkey, hput⟩ := mem_writesAt.mp hw
  rcases hguard q hq with hsome | hall
  · simp [hdel] at hsome
  rcases hall b hb p hp with hnone | hne
  · rw [Option.isNone_iff_eq_none] at hnone
    unfold UpdateMetaRequest.write at hput
    simp [hnone] at hput
  · exact absurd hkey (bne_iff_ne.mp hne)

theorem queueAt_deliver (hi : s.pending[i]? = some batch) (e : Key) : queueAt e s.pending =
        queueAt e (s.pending.take i) ++ (writesAt e batch ++ queueAt e (s.pending.drop (i + 1))) ∧
      queueAt e (s.pending.eraseIdx i) =
        queueAt e (s.pending.take i) ++ queueAt e (s.pending.drop (i + 1)) := by
  constructor
  · calc queueAt e s.pending = queueAt e (s.pending.take i ++ batch :: s.pending.drop (i + 1)) :=
        congrArg (queueAt e) (pending_split hi)
      _ = _ := by
        rw [queueAt_append]
        rfl
  · rw [eraseIdx_eq_take_drop_succ, queueAt_append]

theorem Inv.deliver (h : Inv keyspace s) (hguard : inOrder s (.deliver i) = true)
    (hi : s.pending[i]? = some batch) :
    Inv keyspace { s with
      records := batch.foldl evalUpdateMeta s.records, pending := s.pending.eraseIdx i } := by
  have hcases := fun e => Addressing.writesAt_cases (e := e) (h.once batch (mem_of_getElem? hi))
  constructor
  case ranges => exact h.ranges
  case once => exact fun b hb => h.once b (mem_of_mem_eraseIdx hb)
  case upTo =>
    intro e d hd
    have hold := h.upTo e d hd
    obtain ⟨hbefore, hafter⟩ := queueAt_deliver hi e
    rw [hbefore] at hold
    rw [hafter, get_foldl_evalUpdateMeta]
    rcases hcases e with hnil | ⟨q, _, _, heq⟩
    · rw [hnil] at hold ⊢
      exact hold
    · rw [heq] at hold ⊢
      exact hold.deliver
  case latest =>
    intro e d hd hend
    have hold := h.latest e d hd hend
    obtain ⟨hbefore, hafter⟩ := queueAt_deliver hi e
    rw [hbefore] at hold
    rw [hafter, get_foldl_evalUpdateMeta]
    rcases hcases e with hnil | ⟨q, _, _, heq⟩
    · rw [hnil] at hold ⊢
      exact hold
    · rw [heq] at hold ⊢
      exact hold.deliver
  case gone =>
    intro e hno
    have hold := h.gone e hno
    obtain ⟨hbefore, hafter⟩ := queueAt_deliver hi e
    rw [hbefore] at hold
    rw [hafter, get_foldl_evalUpdateMeta]
    rcases hcases e with hnil | ⟨q, hq, hkey, heq⟩
    · rw [hnil] at hold ⊢
      exact hold
    rw [heq] at hold ⊢
    apply hold.deliver
    intro j k hwrite v
    rw [← hkey]
    apply no_put_before hguard hi hq
    cases hdesc : q.desc with
    | none => rfl
    | some d =>
      unfold UpdateMetaRequest.write at hwrite
      simp [hdesc] at hwrite

end Delivery

variable {layout : Layout}

section Runs
variable {keyspace : Set Key} {s s' : State}

theorem Inv.quiet (h : Inv keyspace s) (h' : Ranges.Inv keyspace layout)
    (hlive : layout.live = s.layout.live) :
    Inv keyspace { s with layout := layout } := by
  have hreach : ∀ e d, Reaches layout e d ↔ Reaches s.layout e d := by
    intro e d
    constructor
    · exact fun hd => ⟨hlive ▸ hd.live, hd.below, hd.above⟩
    · exact fun hd => ⟨hlive ▸ hd.live, hd.below, hd.above⟩
  exact { h with
    ranges := h'
    upTo := fun e d hd => h.upTo e d ((hreach e d).mp hd)
    latest := fun e d hd => h.latest e d ((hreach e d).mp hd)
    gone := fun e hno => h.gone e fun d hd => hno d ((hreach e d).mpr hd) }

theorem issued_cases (h : Ranges.Inv keyspace s.layout) {a : Ranges.Action}
    (hl : Ranges.step s.layout a = some layout) :
    (issued s.layout a = [] ∧ layout.live = s.layout.live) ∨
      ∃ c, issued s.layout a = [metaUpdates c] ∧ Ranges.Changed s.layout c layout := by
  cases a with
  | apply i =>
    obtain ⟨⟨c, r⟩, hout, heq⟩ := Option.map_eq_some_iff.mp hl
    cases r with
    | error e =>
      cases heq
      exact .inl ⟨by simp only [issued, hout], rfl⟩
    | ok t =>
      cases heq
      exact .inr ⟨c, by simp only [issued, hout], (h.changed hout).2⟩
  | proposeSplit desc splitKey closedTS | proposeMerge desc rhsDesc rhs
  | proposeConfChange desc self change =>
    exact .inl ⟨rfl, Ranges.live_of_propose hl (fun i hi => by cases hi)⟩

theorem inv_step (h : Inv keyspace s) {a : Action} (hguard : inOrder s a = true)
    (hs : step s a = some s') :
    Inv keyspace s' := by
  cases a with
  | range a =>
    obtain ⟨layout, hl, rfl⟩ := Option.map_eq_some_iff.mp hs
    have h' := (Ranges.inv_step h.ranges hl).1
    rcases issued_cases h.ranges hl with ⟨hnil, hlive⟩ | ⟨c, hone, hch⟩
    · rw [hnil, append_nil]
      exact h.quiet h' hlive
    · obtain ⟨old, new, hrepl, hrep⟩ := changed_replaces h.ranges hch
      rw [hone]
      exact h.change h' hrepl hrep
  | deliver i =>
    obtain ⟨batch, hi, rfl⟩ := Option.map_eq_some_iff.mp hs
    exact h.deliver hguard hi

/-- With nothing under way the records are those of the live ranges, and the first
one past a key is that of the range around it. -/
theorem Inv.converged (h : Inv keyspace s) : Converged keyspace s := by
  intro hnil k hk
  obtain ⟨id, d, hd, hin⟩ := (h.ranges.partition.covers k).mp hk
  obtain rfl : d.rangeID = id := h.ranges.ledger.own _ _ hd
  refine ⟨d, hd, hin, ?_⟩
  obtain ⟨hlo, hhi⟩ := containsKey_iff.mp hin
  have hrec : s.records.get (toDual d.endKey) = some d := by
    have hlatest := h.latest _ d (reaches_end h.ranges hd) rfl
    rw [hnil] at hlatest
    exact hlatest.eq_of_nil
  have hbetween : ∀ e, k < e → e < d.endKey → s.records.get (toDual e) = none := by
    intro e hke hed
    have hreach : Reaches s.layout e d := ⟨hd, hlo.trans_lt hke, hed.le⟩
    have hgone := h.gone e (by
      intro d' hd' hend
      rw [← reaches_unique h.ranges hreach hd'] at hend
      exact absurd hend hed.ne')
    rw [hnil] at hgone
    exact hgone.eq_of_nil
  unfold firstRecord
  rw [Chain.newest_of_mem (Chain.get_eq_some_iff.mp hrec)]
  · rfl
  · exact Bool.not_eq_true' _ ▸ decide_eq_false (Key.not_lt_next_of_lt hhi)
  rintro ⟨e, v⟩ he hp
  have hke : k < ofDual e := (Key.lt_next k).trans_le (by simpa using hp)
  by_contra hnot
  have hnone := hbetween (ofDual e) hke (not_le.mp hnot)
  simp [show toDual (ofDual e) = e from rfl, Chain.get_eq_some_iff.mpr he] at hnone

theorem inv_start {descs : List RangeDescriptor} {records : MetaRecords}
    (hranges : Ranges.Inv keyspace (Layout.start descs))
    (hexact : Exact (Layout.start descs) records) :
    Inv keyspace ⟨Layout.start descs, records, []⟩ := by
  constructor
  case ranges => exact hranges
  case once => exact fun b hb => absurd hb not_mem_nil
  case upTo =>
    intro e d hd
    refine ⟨?_, fun v hv => absurd hv not_mem_nil, fun i g hg => absurd hg not_mem_nil⟩
    intro v hv
    obtain ⟨id, hlive, rfl⟩ := (hexact e v).mp hv
    obtain rfl := hranges.ledger.own _ _ hlive
    rw [reaches_unique hranges hd (reaches_end hranges hlive)]
  case latest =>
    rintro e d hd rfl
    have hrec := (hexact d.endKey d).mpr ⟨_, hd.live, rfl⟩
    refine ⟨.inl hrec, ?_, fun v hv => absurd hv not_mem_nil, fun i g hg => absurd hg not_mem_nil⟩
    intro v hv
    rw [hrec, Option.some.injEq] at hv
    exact .inr hv.symm
  case gone =>
    intro e hno
    apply Gone.settled
    · cases hrec : records.get (toDual e) with
      | none => rfl
      | some d =>
        obtain ⟨id, hd, rfl⟩ := (hexact e d).mp hrec
        obtain rfl := hranges.ledger.own _ _ hd
        exact absurd rfl (hno d (reaches_end hranges hd))
    · exact fun v hv => absurd hv not_mem_nil

/-- In a run whose deletes arrive after the puts of the records they delete, every
key is addressed to its live range once all updates have arrived. -/
theorem addressing_converges {descs : List RangeDescriptor} {records : MetaRecords}
    (hids : (descs.map rangeID).Nodup) (hwide : ∀ d ∈ descs, d.startKey < d.endKey)
    (hcover : (Layout.start descs).Partition keyspace) (hexact : Exact (Layout.start descs) records)
    {actions : List Action} (hguard :
      Runs.Guarded step (fun s a => inOrder s a = true) ⟨Layout.start descs, records, []⟩ actions)
    (hrun : Runs.run step ⟨Layout.start descs, records, []⟩ actions = some s) :
    Converged keyspace s := by
  have hinv : Inv keyspace s := Runs.invariant_of_run (fun _ _ _ hi hc ht => inv_step hi hc ht)
    (inv_start (Ranges.inv_start hids hwide hcover) hexact) hguard hrun
  exact hinv.converged

theorem exact_single (d : RangeDescriptor) :
    Exact (Layout.start [d]) (Chain.empty.put (toDual d.endKey) d) := by
  intro e v
  rw [Chain.get_eq_some_iff]
  change (toDual e, v) ∈ [(toDual d.endKey, d)] ↔ _
  rw [mem_singleton, Prod.mk.injEq]
  constructor
  · rintro ⟨he, rfl⟩
    exact ⟨v.rangeID, by simp [Layout.start], he.symm⟩
  · rintro ⟨id, hlive, rfl⟩
    rw [mem_singleton.mp (Ranges.mem_of_start hlive).1]
    exact ⟨rfl, rfl⟩

end Runs

def wholeStart : State :=
  ⟨Layout.start [wholeRange], Chain.empty.put (toDual wholeRange.endKey) wholeRange, []⟩

def splitThenMerge : List Action :=
  [.range (.proposeSplit wholeRange [7] ⊥), .range (.apply 0),
    .range (.proposeMerge { wholeRange with endKey := [7], generation := 1 }
      { wholeRange with rangeID := 2, startKey := [7], generation := 1 } {}),
    .range (.apply 1)]

theorem addressing_converges_splitThenMerge :
    ∃ s, Runs.run step wholeStart (splitThenMerge ++ [.deliver 0, .deliver 0]) = some s ∧
      s.pending.isEmpty ∧ Converged { k | wholeRange.containsKey k = true } s := by
  refine Runs.exists_of_run (fun s => s.pending.isEmpty) (by decide) ?_
  exact fun s hrun hnil =>
    ⟨hnil, addressing_converges (by decide) (by decide) (Ranges.start_partition wholeRange)
    (exact_single wholeRange) (by decide) hrun⟩

theorem late_put_stays :
    ∃ s, Runs.run step wholeStart (splitThenMerge ++ [.deliver 1, .deliver 0]) = some s ∧
      ¬ Converged { k | wholeRange.containsKey k = true } s := by
  refine Runs.exists_of_run (fun s => s.pending.isEmpty ∧
    firstRecord s.records [0] = some { wholeRange with endKey := [7], generation := 1 } ∧
      s.layout.live 1 = some { wholeRange with generation := 2 }) (by decide) ?_
  rintro s - ⟨hnil, hfirst, hlive⟩ hconv
  obtain ⟨d, hd, _, hrec⟩ := hconv (isEmpty_iff.mp hnil) [0] (by decide)
  rw [hfirst, Option.some.injEq] at hrec
  subst hrec
  rw [show ({ wholeRange with endKey := [7], generation := 1 } : RangeDescriptor).rangeID =
    1 from rfl, hlive] at hd
  cases hd

end Datax.Addressing
