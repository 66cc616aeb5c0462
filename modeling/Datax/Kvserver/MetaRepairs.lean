import Datax.Kvserver.MetaRecords
import Datax.Kvserver.RangePartition
import Datax.Shared.Register

/-!
# The record updates of one change

The record at an end key is a register, and a batch writes it at most once. A change puts new
descriptors in the place of old ones: it sends a put for each new one, and a delete for an old one
whose end key is left without a range.
-/

namespace Datax.Addressing

open List RangeDescriptor UpdateMetaRequest
open Shared (Chain)
open Ranges (Layout Command Changed)
open OrderDual (toDual ofDual)
open Register (Write)

abbrev RecordWrite := Write RangeDescriptor RangeID Int

def UpdateMetaRequest.write (q : UpdateMetaRequest) : RecordWrite :=
  match q.desc with
  | some d => .put d
  | none => .delete q.ifRangeID q.ifGeneration

def writesAt (e : Key) (batch : List UpdateMetaRequest) : List RecordWrite :=
  (batch.filter fun q => q.key == e).map write

def queueAt (e : Key) (pending : List (List UpdateMetaRequest)) : List RecordWrite :=
  pending.flatMap (writesAt e)

section Records
variable {records : MetaRecords} {e : Key} {batch : List UpdateMetaRequest}

theorem metaUpdateApplies_eq (existing : Option RangeDescriptor) (q : UpdateMetaRequest) :
    metaUpdateApplies existing q = Register.applies rangeID generation existing q.write := by
  unfold metaUpdateApplies write
  cases q.desc with
  | none | some d =>
    cases existing with
    | none | some r => rfl

theorem get_evalUpdateMeta (q : UpdateMetaRequest) : (evalUpdateMeta records q).get (toDual e) =
      if q.key = e then
        Register.write rangeID generation (records.get (toDual e)) q.write
      else records.get (toDual e) := by
  unfold evalUpdateMeta Register.write
  rw [metaUpdateApplies_eq]
  by_cases hkey : q.key = e
  · subst hkey
    rw [if_pos rfl]
    split
    · cases hd : q.desc with
      | none =>
        rw [Chain.get_delete, if_pos rfl]
        simp [write, hd, Write.value]
      | some d =>
        rw [Chain.get_put, if_pos rfl]
        simp [write, hd, Write.value]
    · rfl
  · have hne : toDual e ≠ toDual q.key := fun h => hkey h.symm
    split
    · cases q.desc with
      | none => rw [Chain.get_delete, if_neg hne]
      | some d => rw [Chain.get_put, if_neg hne]
    · rfl

theorem get_foldl_evalUpdateMeta : (batch.foldl evalUpdateMeta records).get (toDual e) =
      (writesAt e batch).foldl (Register.write rangeID generation) (records.get (toDual e)) := by
  induction batch generalizing records with
  | nil => rfl
  | cons q batch ih =>
    rw [foldl_cons, ih, get_evalUpdateMeta]
    unfold writesAt
    by_cases hkey : q.key = e
    · simp [hkey]
    · simp [hkey]

theorem mem_writesAt {w : RecordWrite} :
    w ∈ writesAt e batch ↔ ∃ q ∈ batch, q.key = e ∧ q.write = w := by
  unfold writesAt
  rw [mem_map]
  constructor
  · rintro ⟨q, hq, rfl⟩
    rw [mem_filter, beq_iff_eq] at hq
    exact ⟨q, hq.1, hq.2, rfl⟩
  · rintro ⟨q, hq, hkey, rfl⟩
    exact ⟨q, mem_filter.mpr ⟨hq, beq_iff_eq.mpr hkey⟩, rfl⟩

theorem writesAt_cases (hnodup : (batch.map key).Nodup) :
    writesAt e batch = [] ∨ ∃ q ∈ batch, q.key = e ∧ writesAt e batch = [q.write] := by
  induction batch with
  | nil => exact .inl rfl
  | cons q batch ih =>
    rw [map_cons, nodup_cons] at hnodup
    obtain ⟨hnotin, hrest⟩ := hnodup
    by_cases hkey : q.key = e
    · apply Or.inr
      refine ⟨q, mem_cons_self, hkey, ?_⟩
      have hnone : writesAt e batch = [] := by
        rw [eq_nil_iff_forall_not_mem]
        intro w hw
        obtain ⟨p, hp, hpe, _⟩ := mem_writesAt.mp hw
        apply hnotin
        rw [hkey, ← hpe]
        exact mem_map_of_mem hp
      unfold writesAt at hnone ⊢
      simp [hkey, hnone]
    · have hskip : writesAt e (q :: batch) = writesAt e batch := by
        unfold writesAt
        simp [hkey]
      rw [hskip]
      rcases ih hrest with hnil | ⟨p, hp, hpe, heq⟩
      · exact .inl hnil
      · exact .inr ⟨p, mem_cons_of_mem q hp, hpe, heq⟩

end Records

section Ranges
variable {keyspace : Set Key} {s s' : Layout}

structure Reaches (s : Layout) (e : Key) (d : RangeDescriptor) : Prop where
  live : s.live d.rangeID = some d
  below : d.startKey < e
  above : e ≤ d.endKey

variable {d : RangeDescriptor}

theorem reaches_unique (h : Ranges.Inv keyspace s) {e : Key} {d' : RangeDescriptor}
    (hd : Reaches s e d) (hd' : Reaches s e d') : d = d' := by
  -- the larger of the two start keys belongs to both ranges
  have hlt : max d.startKey d'.startKey < e := max_lt hd.below hd'.below
  have hin : max d.startKey d'.startKey ∈ s.span d.rangeID := by
    rw [Ranges.mem_span hd.live, containsKey_iff]
    exact ⟨le_max_left _ _, hlt.trans_le hd.above⟩
  have hin' : max d.startKey d'.startKey ∈ s.span d'.rangeID := by
    rw [Ranges.mem_span hd'.live, containsKey_iff]
    exact ⟨le_max_right _ _, hlt.trans_le hd'.above⟩
  have hid := h.partition.unique _ _ _ hin hin'
  have hlive := hd.live
  rw [hid, hd'.live, Option.some.injEq] at hlive
  exact hlive.symm

/-- The descriptors `old` have given way to `new`, which lie within them. -/
structure Replaces (s s' : Layout) (old new : List RangeDescriptor) : Prop where
  live : ∀ d, s'.live d.rangeID = some d ↔ d ∈ new ∨ s.live d.rangeID = some d ∧ d ∉ old
  gone : ∀ o ∈ old, s.live o.rangeID = some o
  rises : ∀ n ∈ new, ∀ e, n.startKey < e → e ≤ n.endKey →
    ∃ o ∈ old, o.startKey < e ∧ e ≤ o.endKey ∧ (o.generation < n.generation ∨ o = n)

/-- The batch puts every new descriptor, and deletes the record of an old one
unless it is overwritten. -/
structure Repairs (batch : List UpdateMetaRequest) (old new : List RangeDescriptor) : Prop where
  once : (batch.map key).Nodup
  puts : ∀ n ∈ new, putRecord n ∈ batch
  only : ∀ q ∈ batch, (∃ n ∈ new, q = putRecord n) ∨ ∃ o ∈ old, q = deleteRecord o
  ends : ∀ o ∈ old, (∃ n ∈ new, n.endKey = o.endKey) ∨ deleteRecord o ∈ batch

variable {n : RangeDescriptor}

theorem live_adopt :
    (s.adopt n).live d.rangeID = some d ↔
      d = n ∨ s.live d.rangeID = some d ∧ d.rangeID ≠ n.rangeID := by
  by_cases hid : d.rangeID = n.rangeID
  · rw [hid, Ranges.adopt_live_self, Option.some.injEq]
    constructor
    · intro h
      exact .inl h.symm
    · rintro (h | ⟨_, hne⟩)
      · exact h.symm
      · exact absurd rfl hne
  · rw [Ranges.adopt_live_of_ne _ _ hid]
    constructor
    · intro h
      exact .inr ⟨h, hid⟩
    · rintro (rfl | ⟨h, _⟩)
      · exact absurd rfl hid
      · exact h

theorem live_drop {id : RangeID} :
    (s.drop id).live d.rangeID = some d ↔ s.live d.rangeID = some d ∧ d.rangeID ≠ id := by
  by_cases hid : d.rangeID = id
  · rw [hid, Ranges.drop_live_self]
    constructor
    · simp
    · rintro ⟨_, hne⟩
      exact absurd rfl hne
  · rw [Ranges.drop_live_of_ne _ hid]
    exact ⟨fun h => ⟨h, hid⟩, fun h => h.1⟩

variable {cur : RangeDescriptor}

theorem live_ne_iff (hcur : s.live cur.rangeID = some cur) :
    (s.live d.rangeID = some d ∧ d.rangeID ≠ cur.rangeID) ↔
      s.live d.rangeID = some d ∧ d ≠ cur := by
  constructor
  · rintro ⟨hd, hne⟩
    refine ⟨hd, ?_⟩
    rintro rfl
    exact hne rfl
  · rintro ⟨hd, hne⟩
    refine ⟨hd, ?_⟩
    intro hid
    rw [hid, hcur, Option.some.injEq] at hd
    exact hne hd.symm

theorem replaces_one (hcur : s.live cur.rangeID = some cur)
    (hid : n.rangeID = cur.rangeID) (hstart : n.startKey = cur.startKey)
    (hend : n.endKey = cur.endKey) (hgen : cur.generation < n.generation ∨ cur = n) :
    Replaces s (s.adopt n) [cur] [n] where
  live d := by
    rw [live_adopt, hid, live_ne_iff hcur, mem_singleton, mem_singleton]
  gone o ho := by
    rw [mem_singleton.mp ho]
    exact hcur
  rises m hm e hlo hhi := by
    rw [mem_singleton.mp hm, hstart] at hlo
    rw [mem_singleton.mp hm, hend] at hhi
    rw [mem_singleton.mp hm]
    exact ⟨cur, mem_cons_self, hlo, hhi, hgen⟩

theorem repairs_one (hend : n.endKey = cur.endKey) : Repairs (putMetaRecords [n]) [cur] [n] where
  once := nodup_singleton _
  puts m hm := mem_map_of_mem hm
  only q hq := by
    rw [putMetaRecords, map_singleton, mem_singleton] at hq
    exact .inl ⟨n, mem_cons_self, hq⟩
  ends o ho := by
    rw [mem_singleton.mp ho]
    exact .inl ⟨n, mem_cons_self, hend⟩

section
variable (h : Ranges.Inv keyspace s) (hcur : s.live cur.rangeID = some cur)
include h hcur

theorem replaces_split {trig : SplitTrigger} {splitKey : Key} {newID : RangeID}
    {closedTS : Timestamp} (hbuilt : adminSplit false cur splitKey newID closedTS = .ok trig)
    (hunused : ∀ e ∈ s.past, e.rangeID ≠ trig.right.rangeID) :
    Replaces s ((s.adopt trig.left).adopt trig.right) [cur] [trig.left, trig.right] ∧
      Repairs (metaUpdates (.split trig)) [cur] [trig.left, trig.right] := by
  obtain ⟨hlo, hhi, hleft, hright⟩ := adminSplit_eq_ok hbuilt
  have hid : trig.left.rangeID = cur.rangeID := by rw [hleft]
  have hlend : trig.left.endKey = splitKey := by rw [hleft]
  have hrend : trig.right.endKey = cur.endKey := by rw [hright]
  have hne : trig.left.rangeID ≠ trig.right.rangeID := by
    rw [hid]
    exact hunused cur (h.cur_mem hcur).1
  constructor
  · constructor
    case live =>
      intro d
      rw [live_adopt, live_adopt, hid, live_ne_iff hcur, mem_pair, mem_singleton]
      constructor
      · rintro (rfl | ⟨rfl | hold, _⟩)
        · exact .inl (.inr rfl)
        · exact .inl (.inl rfl)
        · exact .inr hold
      · rintro ((rfl | rfl) | ⟨hd, hdne⟩)
        · exact .inr ⟨.inl rfl, hne⟩
        · exact .inl rfl
        · exact .inr ⟨.inr ⟨hd, hdne⟩, hunused d (h.cur_mem hd).1⟩
    case gone =>
      intro o ho
      rw [mem_singleton.mp ho]
      exact hcur
    case rises =>
      intro n hn e hs he
      refine ⟨cur, mem_cons_self, ?_⟩
      rcases mem_pair.mp hn with rfl | rfl
      · rw [hleft] at hs he ⊢
        exact ⟨hs, he.trans hhi.le, .inl (lt_add_one _)⟩
      · rw [hright] at hs he ⊢
        exact ⟨hlo.trans hs, he, .inl (lt_add_one _)⟩
  · constructor
    case once =>
      simp only [metaUpdates, putMetaRecords, putRecord, map_cons, map_nil, nodup_cons,
        mem_singleton, hlend, hrend]
      exact ⟨hhi.ne, not_mem_nil, nodup_nil⟩
    case puts => exact fun n hn => mem_map_of_mem hn
    case only =>
      intro q hq
      obtain ⟨n, hn, rfl⟩ := mem_map.mp hq
      exact .inl ⟨n, hn, rfl⟩
    case ends =>
      intro o ho
      rw [mem_singleton.mp ho]
      exact .inl ⟨trig.right, mem_pair.mpr (.inr rfl), hrend⟩

theorem replaces_merge {rhs : RangeDescriptor} {trig : MergeTrigger} {pos : Replicated}
    (hrhs : s.live rhs.rangeID = some rhs) (hbuilt : adminMergeTrigger cur rhs pos = .ok trig) :
    Replaces s ((s.adopt trig.merged).drop rhs.rangeID) [cur, rhs] [trig.merged] ∧
      Repairs (metaUpdates (.merge trig)) [cur, rhs] [trig.merged] := by
  have hmerged := adminMergeTrigger_merged hbuilt
  obtain ⟨hmeet, hleft, _⟩ := adminMergeTrigger_ok hbuilt
  have hid : trig.merged.rangeID = cur.rangeID := by rw [hmerged]
  have hend : trig.merged.endKey = rhs.endKey := by rw [hmerged]
  have hrw := h.wide _ _ hrhs
  have hlt : cur.endKey < rhs.endKey := hmeet ▸ hrw
  have hne : cur.rangeID ≠ rhs.rangeID := by
    intro heq
    rw [heq, hrhs, Option.some.injEq] at hcur
    rw [hcur] at hlt
    exact lt_irrefl _ hlt
  constructor
  · constructor
    case live =>
      intro d
      rw [live_drop, live_adopt, hid, mem_singleton, mem_pair, not_or]
      constructor
      · rintro ⟨rfl | ⟨hd, hdc⟩, hdr⟩
        · exact .inl rfl
        · exact .inr ⟨hd, ((live_ne_iff hcur).mp ⟨hd, hdc⟩).2, ((live_ne_iff hrhs).mp ⟨hd, hdr⟩).2⟩
      · rintro (rfl | ⟨hd, hdc, hdr⟩)
        · exact ⟨.inl rfl, hid.symm ▸ hne⟩
        · exact ⟨.inr ((live_ne_iff hcur).mpr ⟨hd, hdc⟩), ((live_ne_iff hrhs).mpr ⟨hd, hdr⟩).2⟩
    case gone =>
      intro o ho
      rcases mem_pair.mp ho with rfl | rfl
      · exact hcur
      · exact hrhs
    case rises =>
      intro n hn e hs he
      have hmaxl := le_max_left cur.generation rhs.generation
      have hmaxr := le_max_right cur.generation rhs.generation
      rw [mem_singleton.mp hn, hmerged] at hs he ⊢
      rcases le_or_gt e cur.endKey with hle | hgt
      · exact ⟨cur, mem_pair.mpr (.inl rfl), hs, hle, .inl (Int.lt_add_one_of_le hmaxl)⟩
      · exact ⟨rhs, mem_pair.mpr (.inr rfl), hmeet ▸ hgt, he, .inl (Int.lt_add_one_of_le hmaxr)⟩
  · have hbatch : metaUpdates (.merge trig) = [putRecord trig.merged, deleteRecord cur] := by
      rw [metaUpdates, hleft]
      rfl
    rw [hbatch]
    constructor
    case once =>
      simp only [putRecord, deleteRecord, map_cons, map_nil, nodup_cons, mem_singleton, hend]
      exact ⟨hlt.ne', not_mem_nil, nodup_nil⟩
    case puts =>
      intro n hn
      rw [mem_singleton.mp hn]
      exact mem_cons_self
    case only =>
      intro q hq
      rcases mem_pair.mp hq with rfl | rfl
      · exact .inl ⟨trig.merged, mem_cons_self, rfl⟩
      · exact .inr ⟨cur, mem_cons_self, rfl⟩
    case ends =>
      intro o ho
      rcases mem_pair.mp ho with rfl | rfl
      · exact .inr (mem_pair.mpr (.inr rfl))
      · exact .inl ⟨trig.merged, mem_cons_self, hend⟩

end

theorem changed_replaces (h : Ranges.Inv keyspace s) {c : Command} (hch : Changed s c s') :
    ∃ old new, Replaces s s' old new ∧ Repairs (metaUpdates c) old new := by
  cases hch with
  | split cur trig splitKey newID closedTS hcur hbuilt hunused =>
    exact ⟨_, _, replaces_split h hcur hbuilt hunused⟩
  | merge cur rhs trig pos hcur hrhs hbuilt => exact ⟨_, _, replaces_merge h hcur hrhs hbuilt⟩
  | confChange cur newDesc self change hcur hbuilt =>
    obtain ⟨hstart, hend, hgen⟩ := adminChangeReplicas_ok hbuilt
    have hid := Ranges.adminChangeReplicas_rangeID hbuilt
    exact ⟨_, _, replaces_one hcur hid hstart hend (.inl (by omega)), repairs_one hend⟩
  | again cur hcur =>
    exact ⟨_, _, replaces_one hcur rfl rfl rfl (.inr rfl), repairs_one rfl⟩

end Ranges

end Datax.Addressing
