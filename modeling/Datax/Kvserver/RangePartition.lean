import Datax.Shared.Fallible
import Mathlib.Data.List.MinMax
import Mathlib.Order.Nat
import Datax.Kvserver.RangeSteps

/-!
# The ranges partition the keyspace

Every run of proposals and applications keeps the invariant of a single change,
from any descriptors that partition the keyspace.
-/

namespace Datax.Ranges

open Option List Layout Runs

variable {c : Command}

section Runs
variable {keyspace : Set Key} {s s' : Layout}

theorem outcome_eq_some {i : Nat} {r : Except Refusal Layout} (h : s.outcome i = some (c, r)) :
    c ∈ s.proposed ∧ ∃ cur, s.live c.rangeID = some cur ∧ applyCommand s cur c = some r := by
  simp only [outcome, bind_eq_bind, bind_eq_some_iff] at h
  obtain ⟨c', hc, cur, hcur, r', hr, heq⟩ := h
  cases heq
  exact ⟨mem_of_getElem? hc, cur, hcur, hr⟩

theorem Inv.changed (h : Inv keyspace s) {i : Nat} (hout : s.outcome i = some (c, .ok s')) :
    c ∈ s.proposed ∧ Changed s c s' := by
  obtain ⟨hc, cur, hcur, hr⟩ := outcome_eq_some hout
  refine ⟨hc, ?_⟩
  cases c with
  | split trig =>
    rw [applyCommand, Option.some.injEq] at hr
    exact h.changed_split hc hcur hr
  | merge trig =>
    cases hrhs : s.live trig.right.rangeID with
    | some rhs =>
      rw [applyCommand, hrhs, Option.some.injEq] at hr
      exact h.changed_merge hc hcur hrhs hr
    | none =>
      simp only [applyCommand, hrhs] at hr
      split_ifs at hr
      cases hr
  | confChange newDesc =>
    rw [applyCommand, Option.some.injEq] at hr
    exact h.changed_confChange hc hcur hr

theorem Inv.propose (h : Inv keyspace s) (hbuilt : Built s.past c)
    (halloc : Allocated (s.propose c)) :
    Inv keyspace (s.propose c) := { h with
  allocated := halloc
  built := by
    intro c' hc'
    rcases mem_append.mp hc' with hc' | hc'
    · exact h.built c' hc'
    · rw [mem_singleton.mp hc']
      exact hbuilt }

theorem Allocated.propose (h : Allocated s) (hc : ∀ trig, c ≠ .split trig) :
    Allocated (s.propose c) := by
  have hold : ∀ trig, Command.split trig ∈ (s.propose c).proposed →
      Command.split trig ∈ s.proposed := by
    intro trig htrig
    rcases mem_append.mp htrig with htrig | htrig
    · exact htrig
    · exact absurd (mem_singleton.mp htrig).symm (hc trig)
  exact { h with
    reserved := fun trig htrig => h.reserved trig (hold trig htrig)
    unused := fun trig htrig => h.unused trig (hold trig htrig)
    distinct := fun trig trig' ht ht' => h.distinct trig trig' (hold trig ht) (hold trig' ht') }

theorem Allocated.proposeSplit (h : Allocated s) {trig : SplitTrigger}
    (hright : trig.right.rangeID = s.rangeIDGen + 1) :
    Allocated ({ s with rangeIDGen := s.rangeIDGen + 1 }.propose (.split trig)) := by
  have hcases : ∀ t, Command.split t ∈ s.proposed ++ [Command.split trig] →
      Command.split t ∈ s.proposed ∧ t.right.rangeID ≤ s.rangeIDGen ∨ t = trig := by
    intro t ht
    rcases mem_append.mp ht with ht | ht
    · exact .inl ⟨ht, h.reserved t ht⟩
    · cases mem_singleton.mp ht
      exact .inr rfl
  constructor
  case used =>
    intro d hd
    exact (h.used d hd).trans (Nat.le_succ _)
  case reserved =>
    intro t ht
    rcases hcases t ht with ⟨_, hle⟩ | rfl
    · exact hle.trans (Nat.le_succ _)
    · exact hright.le
  case unused =>
    intro t ht d hd hid
    rcases hcases t ht with ⟨ht, _⟩ | rfl
    · exact h.unused t ht d hd hid
    have hused := h.used d hd
    rw [hid, hright] at hused
    exact absurd hused (Nat.not_succ_le_self _)
  case distinct =>
    intro t t' ht ht' hid
    rcases hcases t ht with ⟨ht, hle⟩ | rfl
    · rcases hcases t' ht' with ⟨ht', _⟩ | rfl
      · exact h.distinct t t' ht ht' hid
      · rw [hid, hright] at hle
        exact absurd hle (Nat.not_succ_le_self _)
    · rcases hcases t' ht' with ⟨_, hle⟩ | rfl
      · rw [← hid, hright] at hle
        exact absurd hle (Nat.not_succ_le_self _)
      · rfl

theorem inv_step (h : Inv keyspace s) {a : Action} (hs : step s a = some s') :
    Inv keyspace s' ∧ ∀ d ∈ s.past, d ∈ s'.past := by
  cases a with
  | proposeSplit desc splitKey closedTS =>
    simp only [step] at hs
    split_ifs at hs with hmem
    obtain ⟨trig, htrig, rfl⟩ := map_eq_some_iff.mp hs
    have hok := Fallible.ok_of_toOption htrig
    obtain ⟨_, _, _, hright⟩ := adminSplit_eq_ok hok
    have hwider : Inv keyspace { s with rangeIDGen := s.rangeIDGen + 1 } := by
      refine ⟨h.ledger, h.partition, h.wide, ?_, h.built⟩
      refine ⟨fun d hd => ?_, fun t ht => ?_, h.allocated.unused, h.allocated.distinct⟩
      · exact (h.allocated.used d hd).trans (Nat.le_succ _)
      · exact (h.allocated.reserved t ht).trans (Nat.le_succ _)
    refine ⟨hwider.propose ?_ ?_, fun d hd => hd⟩
    · exact ⟨desc, contains_iff_mem.mp hmem, splitKey, _, closedTS, hok⟩
    · exact h.allocated.proposeSplit (by rw [hright])
  | proposeMerge desc rhsDesc rhs =>
    simp only [step] at hs
    split_ifs at hs with hmem
    rw [Bool.and_eq_true, contains_iff_mem, contains_iff_mem] at hmem
    obtain ⟨trig, htrig, rfl⟩ := map_eq_some_iff.mp hs
    refine ⟨h.propose ?_ (h.allocated.propose ?_), fun d hd => hd⟩
    · exact ⟨desc, hmem.1, rhsDesc, hmem.2, rhs, Fallible.ok_of_toOption htrig⟩
    · simp
  | proposeConfChange desc self change =>
    simp only [step] at hs
    split_ifs at hs with hmem
    obtain ⟨newDesc, hnew, rfl⟩ := map_eq_some_iff.mp hs
    refine ⟨h.propose ?_ (h.allocated.propose ?_), fun d hd => hd⟩
    · exact ⟨desc, contains_iff_mem.mp hmem, self, change, Fallible.ok_of_toOption hnew⟩
    · simp
  | apply i =>
    obtain ⟨⟨c, r⟩, hout, heq⟩ := map_eq_some_iff.mp hs
    cases r with
    | error e =>
      cases heq
      exact ⟨h, fun d hd => hd⟩
    | ok t =>
      cases heq
      obtain ⟨hc, hch⟩ := h.changed hout
      exact ⟨h.changed_inv hc hch, hch.past⟩

theorem live_of_propose {a : Action} (hs : step s a = some s') (ha : ∀ i, a ≠ .apply i) :
    s'.live = s.live := by
  cases a with
  | proposeSplit desc splitKey closedTS | proposeMerge desc rhsDesc rhs
  | proposeConfChange desc self change =>
    simp only [step] at hs
    split_ifs at hs
    obtain ⟨trig, _, rfl⟩ := map_eq_some_iff.mp hs
    rfl
  | apply i => exact absurd rfl (ha i)

theorem Inv.ascends (h : Inv keyspace s) (h' : Inv keyspace s')
    (hpast : ∀ d ∈ s.past, d ∈ s'.past) :
    Ascends s s' := by
  intro id d d' hd hd'
  obtain ⟨hmem, hid⟩ := h.cur_mem hd
  rcases (h'.ledger.newest id d' hd' d (hpast d hmem) hid).lt_or_eq with hlt | heq
  · exact .inr hlt
  · exact .inl (h'.ledger.eq_of_generation hd' (hpast d hmem) hid heq).symm

end Runs

section Start
variable {keyspace : Set Key} {descs : List RangeDescriptor}

theorem mem_of_start {id : RangeID} {d : RangeDescriptor} (h : (start descs).live id = some d) :
    d ∈ descs ∧ d.rangeID = id :=
  ⟨mem_of_find?_eq_some h, by simpa using find?_some h⟩

theorem inv_start (hids : (descs.map RangeDescriptor.rangeID).Nodup)
    (hwide : ∀ d ∈ descs, d.startKey < d.endKey) (hcover : (start descs).Partition keyspace) :
    Inv keyspace (start descs) := by
  have hinj : ∀ d ∈ descs, ∀ e ∈ descs, d.rangeID = e.rangeID → d = e := by
    intro d hd e he hid
    exact inj_on_of_nodup_map hids hd he hid
  constructor
  case ledger =>
    constructor
    case own => exact fun id d hd => (mem_of_start hd).2
    case held => exact fun id d hd => (mem_of_start hd).1
    case newest =>
      intro id d hd e he hid
      obtain ⟨hmem, hown⟩ := mem_of_start hd
      rw [hinj e he d hmem (hid.trans hown.symm)]
    case single => exact fun d hd e he hid _ => hinj d hd e he hid
    case linked =>
      intro d hd e he hid hgen
      rw [hinj d hd e he hid] at hgen
      omega
  case partition => exact hcover
  case wide => exact fun id d hd => hwide d (mem_of_start hd).1
  case allocated =>
    constructor
    case used =>
      intro d hd
      exact le_max_of_le (mem_map_of_mem hd) (le_refl d.rangeID)
    case reserved | unused => exact fun trig ht => absurd ht not_mem_nil
    case distinct => exact fun trig trig' ht => absurd ht not_mem_nil
  case built => exact fun c hc => absurd hc not_mem_nil

/-- However stale the descriptors that commands are built from, the live ranges
partition the keyspace after every step, a descriptor that changes rises in
generation, and a refused command changes none. -/
theorem ranges_partition_keyspace (hids : (descs.map RangeDescriptor.rangeID).Nodup)
    (hwide : ∀ d ∈ descs, d.startKey < d.endKey) (hcover : (start descs).Partition keyspace)
    {actions : List Action} {s : Layout} (hrun : run step (start descs) actions = some s) :
    s.Partition keyspace ∧
      ∀ a s', step s a = some s' → s'.Partition keyspace ∧ Ascends s s' ∧
          ∀ i c refusal, a = .apply i → s.outcome i = some (c, .error refusal) →
            s'.live = s.live := by
  have hinv : Inv keyspace s := invariant_of_run (C := fun _ _ => True)
    (fun _ _ _ hi _ ht => (inv_step hi ht).1) (inv_start hids hwide hcover) (guarded_true _ _) hrun
  refine ⟨hinv.partition, ?_⟩
  intro a s' hs
  obtain ⟨hnext, hpast⟩ := inv_step hinv hs
  refine ⟨hnext.partition, hinv.ascends hnext hpast, ?_⟩
  intro i c refusal ha hout
  subst ha
  rw [step, hout, map_some, Option.some.injEq] at hs
  rw [← hs]

theorem start_partition (d : RangeDescriptor) :
    (start [d]).Partition { k | d.containsKey k = true } := by
  have hlive : ∀ id e, (start [d]).live id = some e → e = d ∧ d.rangeID = id := by
    intro id e he
    obtain ⟨hmem, hid⟩ := mem_of_start he
    rw [mem_singleton] at hmem
    subst hmem
    exact ⟨rfl, hid⟩
  constructor
  · intro k
    constructor
    · intro hk
      exact ⟨d.rangeID, d, by simp [start], hk⟩
    · rintro ⟨id, e, he, hk⟩
      obtain ⟨rfl, _⟩ := hlive id e he
      exact hk
  · rintro k i j ⟨e, he, _⟩ ⟨f, hf, _⟩
    exact (hlive i e he).2.symm.trans (hlive j f hf).2

end Start

def splitAndMerge : List Action :=
  [.proposeSplit wholeRange [7] ⊥, .proposeConfChange wholeRange 1 (.add 2), .apply 0,
    .apply 1, .apply 0, .proposeMerge { wholeRange with endKey := [7], generation := 1 }
      { wholeRange with rangeID := 2, startKey := [7], generation := 1 } {},
    .apply 2]

theorem ranges_partition_keyspace_splitAndMerge :
    ∃ s, run step (start [wholeRange]) splitAndMerge = some s ∧
      s.live 1 = some { wholeRange with generation := 2 } ∧
      s.Partition { k | wholeRange.containsKey k = true } := by
  refine exists_of_run (fun s => s.live 1 = some { wholeRange with generation := 2 }) (by decide) ?_
  exact fun s hrun hlive =>
    ⟨hlive, (ranges_partition_keyspace (by decide) (by decide) (start_partition wholeRange) hrun).1⟩

section Once
variable {keyspace : Set Key} {s s' : Layout} (hc : ∀ d, c ≠ .confChange d)
include hc

def Command.result : Command → RangeDescriptor
  | split trig => trig.left
  | merge trig => trig.merged
  | confChange newDesc => newDesc

theorem Inv.result_new (h : Inv keyspace s) (hch : Changed s c s') :
    c.result ∈ s'.past ∧ c.result ∉ s.past := by
  cases hch with
  | split cur trig _ _ _ hlive hbuilt =>
    refine ⟨mem_cons_of_mem _ mem_cons_self, fun hd => ?_⟩
    obtain ⟨-, -, hleft, -⟩ := adminSplit_eq_ok hbuilt
    have hle := h.ledger.newest _ _ hlive trig.left hd (by rw [hleft])
    rw [hleft] at hle
    exact absurd hle (not_le.mpr (lt_add_one _))
  | merge cur rhs trig _ hlive _ hbuilt =>
    refine ⟨mem_cons_self, fun hd => ?_⟩
    have hmerged := adminMergeTrigger_merged hbuilt
    have hle := h.ledger.newest _ _ hlive trig.merged hd (by rw [hmerged])
    rw [hmerged] at hle
    exact absurd hle (not_le.mpr (Int.lt_add_one_of_le (le_max_left _ _)))
  | confChange _ d | again d => exact absurd rfl (hc d)

/-- Built from stale descriptors and applied any number of times, a split or a merge
takes effect at most once. -/
theorem applied_once {descs : List RangeDescriptor}
    (hids : (descs.map RangeDescriptor.rangeID).Nodup) (hwide : ∀ d ∈ descs, d.startKey < d.endKey)
    (hcover : (start descs).Partition keyspace) {actions later : List Action} {t t' : Layout}
    {i j : Nat} (hrun : run step (start descs) actions = some s)
    (hout : s.outcome i = some (c, .ok s')) (hlater : run step s' later = some t) :
    t.outcome j ≠ some (c, .ok t') := by
  have hinv : Inv keyspace s := invariant_of_run (C := fun _ _ => True)
    (fun _ _ _ hi _ ht => (inv_step hi ht).1) (inv_start hids hwide hcover) (guarded_true _ _) hrun
  obtain ⟨hmem, hch⟩ := hinv.changed hout
  have hlast :=
    invariant_of_run (C := fun _ _ => True) (I := fun u => Inv keyspace u ∧ c.result ∈ u.past)
    (fun _ _ _ hi _ ht => ⟨(inv_step hi.1 ht).1, (inv_step hi.1 ht).2 _ hi.2⟩)
    ⟨hinv.changed_inv hmem hch, (hinv.result_new hc hch).1⟩ (guarded_true _ _) hlater
  intro hout'
  exact (hlast.1.result_new hc (hlast.1.changed hout').2).2 hlast.2

end Once

theorem applied_once_split :
    ∃ s c s', run step (start [wholeRange]) [.proposeSplit wholeRange [7] ⊥] = some s ∧
      s.outcome 0 = some (c, .ok s') ∧ ∀ j t', s'.outcome j ≠ some (c, .ok t') :=
  ⟨_, _, _, rfl, rfl, fun _ _ => applied_once (by exact fun _ => nofun) (by decide) (by decide)
    (start_partition wholeRange) (show run step _ [.proposeSplit wholeRange [7] ⊥] = _ from rfl)
    (show outcome _ 0 = _ from rfl) (show run step _ [] = _ from rfl)⟩

end Datax.Ranges
