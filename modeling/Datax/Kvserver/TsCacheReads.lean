import Datax.Kvserver.TsCache

/-!
# The timestamp cache forgets no read

A read is remembered while the floor is at or above it, or a generation has an entry for its
span that is newer, or as old and attributed to its reader or nobody. Recording reads,
rotating and folding generations keep this, and a write that the cache lets pass has met
every entry of its spans.
-/

namespace Datax

open AList List

variable {T : Type} [LinearOrder T]

/-- Refusing the writes that `r` refuses refuses those that `b` must. -/
def TsCacheRead.Covers (r b : TsCacheRead T) : Prop :=
  b.ts < r.ts ∨ b.ts = r.ts ∧ (r.txnID = b.txnID ∨ r.txnID = 0)

namespace TsCacheRead
variable {a b r : TsCacheRead T}

theorem Covers.refl (r : TsCacheRead T) : r.Covers r := .inr ⟨rfl, .inl rfl⟩

theorem Covers.of_lt (h : b.ts < r.ts) : r.Covers b := .inl h

theorem Covers.le (h : r.Covers b) : b.ts ≤ r.ts := by
  rcases h with hlt | ⟨heq, _⟩
  · exact hlt.le
  · exact heq.le

theorem Covers.trans (hra : r.Covers a) (hab : a.Covers b) : r.Covers b := by
  rcases hra with hlt | ⟨heq, hid⟩
  · exact .inl (lt_of_le_of_lt hab.le hlt)
  rcases hab with hlt | ⟨heq', hid'⟩
  · exact .inl (heq ▸ hlt)
  refine .inr ⟨heq'.trans heq, ?_⟩
  rcases hid with hid | hid
  · rw [hid]
    exact hid'
  · exact .inr hid

end TsCacheRead

def TsCacheGen.Holds (g : TsCacheGen T) (sp : LatchSpan) (b : TsCacheRead T) : Prop :=
  (sp.endKey = none ∧ ∃ r, g.points.lookup sp.startKey = some r ∧ r.Covers b) ∨
    ∃ e ∈ g.ranged, e.span = sp ∧ e.toTsCacheRead.Covers b

variable {spans : List LatchSpan}

namespace TsCacheGen
variable {g : TsCacheGen T} {sp : LatchSpan} {b : TsCacheRead T}

theorem lookup_record_of_ne {key k : Key} (hne : k ≠ key) (ts : T) (txnID : UUID) :
    (g.record key ts txnID).points.lookup k = g.points.lookup k := by
  unfold record
  split
  · exact lookup_insert_ne hne
  split
  · exact lookup_insert_ne hne
  split
  · exact lookup_insert_ne hne
  · rfl

theorem ranged_record (key : Key) (ts : T) (txnID : UUID) :
    (g.record key ts txnID).ranged = g.ranged := by
  unfold record
  split
  · rfl
  split
  · rfl
  split
  · rfl
  · rfl

theorem lookup_record (key : Key) (ts : T) (txnID : UUID) :
    ∃ r, (g.record key ts txnID).points.lookup key = some r ∧ r.Covers ⟨ts, txnID⟩ ∧
      ∀ old, g.points.lookup key = some old → r.Covers old := by
  unfold record
  split
  · rename_i hnone
    refine ⟨⟨ts, txnID⟩, lookup_insert _, .refl _, ?_⟩
    intro old hold
    simp [hnone] at hold
  · rename_i old hold
    have honly : ∀ old', g.points.lookup key = some old' → old' = old := by
      intro old' h
      rw [hold] at h
      exact (Option.some.inj h).symm
    split
    · rename_i hlt
      refine ⟨⟨ts, txnID⟩, lookup_insert _, .refl _, ?_⟩
      intro old' h
      rw [honly old' h]
      exact .of_lt hlt
    · rename_i hge
      split
      · rename_i hsame
        refine ⟨⟨ts, 0⟩, lookup_insert _, .inr ⟨rfl, .inr rfl⟩, ?_⟩
        intro old' h
        rw [honly old' h]
        exact .inr ⟨hsame.1, .inr rfl⟩
      · rename_i hother
        refine ⟨old, hold, ?_, ?_⟩
        · rcases lt_or_eq_of_le (not_lt.mp hge) with hlt | heq
          · exact .of_lt hlt
          refine .inr ⟨heq, .inl ?_⟩
          by_contra hne
          exact hother ⟨heq.symm, hne⟩
        · intro old' h
          rw [honly old' h]
          exact .refl _

theorem Holds.record (h : g.Holds sp b) (key : Key) (ts : T) (txnID : UUID) :
    (g.record key ts txnID).Holds sp b := by
  rcases h with ⟨hpoint, r, hr, hcov⟩ | ⟨e, he, hspan, hcov⟩
  · refine .inl ⟨hpoint, ?_⟩
    by_cases heq : sp.startKey = key
    · obtain ⟨r', hr', _, hold⟩ := lookup_record (g := g) key ts txnID
      rw [← heq] at hr' hold ⊢
      exact ⟨r', hr', (hold r hr).trans hcov⟩
    · rw [lookup_record_of_ne heq]
      exact ⟨r, hr, hcov⟩
  · refine .inr ⟨e, ?_, hspan, hcov⟩
    rw [ranged_record]
    exact he

theorem Holds.hit (h : g.Holds sp b) (hover : overlapsAny sp spans = true) :
    ∃ r ∈ g.hits spans, r.Covers b := by
  rcases h with ⟨hpoint, r, hr, hcov⟩ | ⟨e, he, hspan, hcov⟩
  · obtain ⟨w, hw, hov⟩ := any_eq_true.mp hover
    refine ⟨r, mem_append_right _ (mem_flatMap.mpr ⟨w, hw, ?_⟩), hcov⟩
    cases hend : w.endKey with
    | none =>
      simp only [LatchSpan.overlaps, hpoint, hend, beq_iff_eq] at hov
      rw [← hov, hr]
      exact mem_singleton.mpr rfl
    | some stop =>
      refine mem_map.mpr ⟨⟨sp.startKey, r⟩, mem_filter.mpr ⟨?_, ?_⟩, rfl⟩
      · exact mem_lookup_iff.mp hr
      have hsp : (⟨sp.startKey, none⟩ : LatchSpan) = sp := by rw [← hpoint]
      rw [hsp]
      exact hov
  · refine ⟨e.toTsCacheRead, mem_append_left _ (mem_map.mpr ⟨e, ?_, rfl⟩), hcov⟩
    rw [mem_filter, hspan]
    exact ⟨he, hover⟩

end TsCacheGen

variable {r b : TsCacheRead T} {sp : LatchSpan}

def LatchSpan.Contains (sp : LatchSpan) (k : Key) : Prop :=
  match sp.endKey with
  | none => k = sp.startKey
  | some stop => sp.startKey ≤ k ∧ k < stop

theorem LatchSpan.overlaps_of_common {w : LatchSpan} (h : ∃ k, sp.Contains k ∧ w.Contains k) :
    sp.overlaps w = true := by
  obtain ⟨k, hsp, hw⟩ := h
  unfold Contains at hsp hw
  unfold overlaps
  cases hs : sp.endKey with
  | none =>
    rw [hs] at hsp
    subst hsp
    cases hend : w.endKey with
    | none =>
      rw [hend] at hw
      exact beq_iff_eq.mpr hw
    | some stop =>
      rw [hend] at hw
      simpa using hw
  | some stop =>
    rw [hs] at hsp
    cases hend : w.endKey with
    | none =>
      rw [hend] at hw
      subst hw
      simpa using hsp
    | some stop' =>
      rw [hend] at hw
      simpa using ⟨lt_of_le_of_lt hsp.1 hw.2, lt_of_le_of_lt hw.1 hsp.2⟩

theorem overlapsAny_of_common {w : LatchSpan} (hw : w ∈ spans)
    (h : ∃ k, sp.Contains k ∧ w.Contains k) : overlapsAny sp spans = true :=
  any_eq_true.mpr ⟨w, hw, LatchSpan.overlaps_of_common h⟩

namespace TsCache

/-- No write that the read must not let pass gets past the cache. -/
def Remembers (c : TsCache T) (sp : LatchSpan) (b : TsCacheRead T) : Prop :=
  b.ts ≤ c.floor ∨ c.prev.Holds sp b ∨ c.cur.Holds sp b

section Reads
variable {c : TsCache T} {ts : T} {txnID : UUID} {sp sp' : LatchSpan} {b : TsCacheRead T}

theorem Remembers.bumpSpan (h : c.Remembers sp b) (hts : c.floor ≤ ts) :
    (c.bumpSpan ts txnID sp').Remembers sp b := by
  unfold TsCache.bumpSpan
  split
  · rcases h with hfloor | hprev | hcur
    · exact .inl hfloor
    · exact .inr (.inl hprev)
    · exact .inr (.inr (hcur.record _ _ _))
  · split
    · rcases h with hfloor | hgens
      · exact .inl (hfloor.trans hts)
      · exact .inr hgens
    · rcases h with hfloor | hprev | hcur
      · exact .inl hfloor
      · exact .inr (.inl hprev)
      refine .inr (.inr ?_)
      rcases hcur with hpoint | ⟨e, he, hspan⟩
      · exact .inl hpoint
      · exact .inr ⟨e, mem_append_left _ he, hspan⟩

theorem remembers_bumpSpan_self : (c.bumpSpan ts txnID sp).Remembers sp ⟨ts, txnID⟩ := by
  unfold TsCache.bumpSpan
  split
  · rename_i hpoint
    obtain ⟨r, hr, hcov, _⟩ := TsCacheGen.lookup_record (g := c.cur) sp.startKey ts txnID
    exact .inr (.inr (.inl ⟨hpoint, r, hr, hcov⟩))
  · split
    · exact .inl le_rfl
    · refine .inr (.inr (.inr ⟨⟨⟨ts, txnID⟩, sp⟩, ?_, rfl, .refl _⟩))
      exact mem_append_right _ (mem_singleton.mpr rfl)

theorem floor_bumpSpan_le (hts : c.floor ≤ ts) : (c.bumpSpan ts txnID sp).floor ≤ ts := by
  unfold TsCache.bumpSpan
  split
  · exact hts
  split
  · exact le_rfl
  · exact hts

theorem Remembers.foldl (h : c.Remembers sp b) (hts : c.floor ≤ ts) :
    (spans.foldl (TsCache.bumpSpan ts txnID) c).Remembers sp b := by
  induction spans generalizing c with
  | nil => exact h
  | cons w spans ih => exact ih (h.bumpSpan hts) (floor_bumpSpan_le hts)

theorem remembers_foldl_self (hts : c.floor ≤ ts) (hsp : sp ∈ spans) :
    (spans.foldl (TsCache.bumpSpan ts txnID) c).Remembers sp ⟨ts, txnID⟩ := by
  induction spans generalizing c with
  | nil => cases hsp
  | cons w spans ih =>
    rcases mem_cons.mp hsp with rfl | htail
    · exact remembers_bumpSpan_self.foldl (floor_bumpSpan_le hts)
    · exact ih (floor_bumpSpan_le hts) htail

theorem le_foldl_max_of_mem {l : List T} {x : T} (t : T) (hx : x ∈ l) : x ≤ l.foldl max t := by
  induction l generalizing t with
  | nil => cases hx
  | cons y l ih =>
    rcases mem_cons.mp hx with rfl | htail
    · exact (le_max_right t x).trans (le_foldl_max _ _)
    · exact ih _ htail

/-- The older generation's entries are below the floor it is folded into. -/
theorem Remembers.rotate (h : c.Remembers sp b) : c.rotate.Remembers sp b := by
  unfold TsCache.rotate
  split
  · rcases h with hfloor | hprev | hcur
    · exact .inl (hfloor.trans (le_foldl_max _ _))
    · refine .inl ?_
      rcases hprev with ⟨_, r, hr, hcov⟩ | ⟨e, he, _, hcov⟩
      · refine hcov.le.trans (le_foldl_max_of_mem _ (mem_append_left _ ?_))
        exact mem_map.mpr ⟨⟨sp.startKey, r⟩, mem_lookup_iff.mp hr, rfl⟩
      · refine hcov.le.trans (le_foldl_max_of_mem _ (mem_append_right _ ?_))
        exact mem_map.mpr ⟨e, he, rfl⟩
    · exact .inr (.inl hcur)
  · exact h

theorem Remembers.bump (h : c.Remembers sp b) : (c.bump spans ts txnID).Remembers sp b := by
  unfold TsCache.bump
  split
  · rename_i hlt
    exact (h.foldl hlt.le).rotate
  · exact h

theorem remembers_bump_self (hsp : sp ∈ spans) :
    (c.bump spans ts txnID).Remembers sp ⟨ts, txnID⟩ := by
  unfold TsCache.bump
  split
  · rename_i hlt
    exact (remembers_foldl_self hlt.le hsp).rotate
  · rename_i hge
    exact .inl (not_lt.mp hge)

end Reads

section Writes
variable {c : TsCache T} {ts : T} {txnID : UUID} {spans : List LatchSpan}

def Passes (ts : T) (txnID : UUID) (r : TsCacheRead T) : Prop :=
  r.ts < ts ∨ r.ts = ts ∧ txnID ≠ 0 ∧ r.txnID = txnID

theorem Passes.of_covers (h : Passes ts txnID r) (hcov : r.Covers b) : Passes ts txnID b := by
  rcases h with hlt | ⟨heq, hne, hid⟩
  · exact .inl (lt_of_le_of_lt hcov.le hlt)
  rcases hcov with hlt | ⟨hsame, hown | hnone⟩
  · exact .inl (heq ▸ hlt)
  · exact .inr ⟨hsame.trans heq, hne, hown.symm.trans hid⟩
  · exact absurd (hid.symm.trans hnone) hne

theorem note_fst (acc : Bool × T) (r : TsCacheRead T) :
    (note ts txnID acc r).1 = true ↔ acc.1 = true ∧ Passes ts txnID r := by
  unfold note Passes
  rw [Bool.and_eq_true, Bool.not_eq_true', Bool.or_eq_false_iff, decide_eq_false_iff_not]
  refine and_congr_right fun _ => ?_
  constructor
  · rintro ⟨hge, hsame⟩
    rcases lt_or_eq_of_le (not_lt.mp hge) with hlt | heq
    · exact .inl hlt
    refine .inr ⟨heq, ?_⟩
    rw [decide_eq_true heq.symm, Bool.true_and, Bool.or_eq_false_iff, beq_eq_false_iff_ne,
      bne_eq_false_iff_eq] at hsame
    exact ⟨hsame.1, hsame.2.symm⟩
  · rintro (hlt | ⟨heq, hne, hid⟩)
    · refine ⟨hlt.not_gt, ?_⟩
      rw [decide_eq_false hlt.ne', Bool.false_and]
    · refine ⟨heq.not_gt, ?_⟩
      rw [beq_eq_false_iff_ne.mpr hne, bne_eq_false_iff_eq.mpr hid.symm, Bool.or_self,
        Bool.and_false]

theorem foldl_note_fst (reads : List (TsCacheRead T)) (acc : Bool × T) :
    (reads.foldl (note ts txnID) acc).1 = true ↔ acc.1 = true ∧ ∀ r ∈ reads, Passes ts txnID r := by
  induction reads generalizing acc with
  | nil => simp
  | cons r reads ih =>
    rw [foldl_cons, ih, note_fst, forall_mem_cons, and_assoc]

theorem le_foldl_note_snd (reads : List (TsCacheRead T)) (acc : Bool × T) (hr : r ∈ reads) :
    r.ts ≤ (reads.foldl (note ts txnID) acc).2 := by
  induction reads generalizing acc with
  | nil => cases hr
  | cons x reads ih =>
    rcases mem_cons.mp hr with rfl | htail
    · exact (le_max_right _ _).trans (foldl_note_spec _ _ _).2
    · exact ih _ htail

theorem allowsWrite_iff : (c.allowsWrite spans ts txnID).1 = true ↔
    c.floor < ts ∧ ∀ r ∈ c.prev.hits spans ++ c.cur.hits spans, Passes ts txnID r := by
  unfold allowsWrite
  rw [foldl_note_fst, decide_eq_true_iff]

theorem Remembers.passes (h : c.Remembers sp b) (hover : overlapsAny sp spans = true)
    (hok : (c.allowsWrite spans ts txnID).1 = true) : Passes ts txnID b := by
  obtain ⟨hfloor, hreads⟩ := allowsWrite_iff.mp hok
  rcases h with hle | hprev | hcur
  · exact .inl (lt_of_le_of_lt hle hfloor)
  · obtain ⟨r, hr, hcov⟩ := hprev.hit hover
    exact (hreads r (mem_append_left _ hr)).of_covers hcov
  · obtain ⟨r, hr, hcov⟩ := hcur.hit hover
    exact (hreads r (mem_append_right _ hr)).of_covers hcov

theorem foldl_note_snd_le {bound : T} (reads : List (TsCacheRead T)) (acc : Bool × T)
    (hacc : acc.2 ≤ bound) (h : ∀ r ∈ reads, r.ts ≤ bound) :
    (reads.foldl (note ts txnID) acc).2 ≤ bound := by
  induction reads generalizing acc with
  | nil => exact hacc
  | cons r reads ih =>
    obtain ⟨hr, hreads⟩ := forall_mem_cons.mp h
    exact ih _ (max_le hacc hr) hreads

theorem allowsWrite_above {ts' : T} (h : (c.allowsWrite spans ts txnID).2 < ts') (txnID' : UUID) :
    (c.allowsWrite spans ts' txnID').1 = true := by
  apply allowsWrite_iff.mpr
  refine ⟨lt_of_le_of_lt floor_le_allowsWrite h, ?_⟩
  intro r hr
  exact .inl (lt_of_le_of_lt (le_foldl_note_snd _ _ hr) h)

/-- What a write must exceed does not depend on the write. -/
theorem low_le_of_allowsWrite {ts' : T} {txnID' : UUID}
    (h : (c.allowsWrite spans ts' txnID').1 = true) : (c.allowsWrite spans ts txnID).2 ≤ ts' := by
  obtain ⟨hfloor, hreads⟩ := allowsWrite_iff.mp h
  refine foldl_note_snd_le _ _ hfloor.le fun r hr => ?_
  rcases hreads r hr with hlt | ⟨heq, _⟩
  · exact hlt.le
  · exact heq.le

end Writes

/-! ### Sequences of reads -/

structure BumpCall where
  spans : List LatchSpan
  ts : Timestamp64
  txnID : UUID

def bumps (calls : List BumpCall) : TsCache Timestamp64 :=
  calls.foldl (fun c b => c.bump b.spans b.ts b.txnID) { floor := ⟨0, 0⟩ }

variable {calls : List BumpCall}

theorem remembers_foldl_bump {c : TsCache Timestamp64} {b : TsCacheRead Timestamp64}
    (h : c.Remembers sp b) :
    (calls.foldl (fun c b => c.bump b.spans b.ts b.txnID) c).Remembers sp b := by
  induction calls generalizing c with
  | nil => exact h
  | cons call calls ih => exact ih h.bump

theorem remembers_bumps {call : BumpCall} (hcall : call ∈ calls) (hsp : sp ∈ call.spans) :
    (bumps calls).Remembers sp ⟨call.ts, call.txnID⟩ := by
  obtain ⟨before, after, rfl⟩ := append_of_mem hcall
  unfold bumps
  rw [foldl_append, foldl_cons]
  exact remembers_foldl_bump (remembers_bump_self hsp)

/-- A write that is let pass is above every read before it with a key in common, or at it when the
writer alone has read there. What a refused write is told to exceed is enough, unless it is the
last timestamp. -/
theorem allowsWrite_sound (calls : List BumpCall) (spans : List LatchSpan) (ts : Timestamp64)
    (txnID : UUID) :
    (((bumps calls).allowsWrite spans ts txnID).1 = true →
      ∀ call ∈ calls, ∀ sp ∈ call.spans, ∀ w ∈ spans, (∃ k, sp.Contains k ∧ w.Contains k) →
        call.ts < ts ∨ call.ts = ts ∧ txnID ≠ 0 ∧ call.txnID = txnID) ∧
    (((bumps calls).allowsWrite spans ts txnID).1 = false →
      ((∀ txnID' : UUID, ((bumps calls).allowsWrite spans
          ((bumps calls).allowsWrite spans ts txnID).2.next txnID').1 = true) ↔
        ((bumps calls).allowsWrite spans ts txnID).2 ≠ Timestamp64.last)) := by
  constructor
  · intro hok call hcall sp hsp w hw hcommon
    exact (remembers_bumps hcall hsp).passes (overlapsAny_of_common hw hcommon) hok
  · intro _
    rw [← Timestamp64.lt_next_iff]
    refine ⟨fun hall => ?_, allowsWrite_above⟩
    exact lt_of_le_of_ne (low_le_of_allowsWrite (hall 0)) (Timestamp64.next_ne _).symm

/-- After a read at the last timestamp there is no timestamp for a write to go to. -/
theorem next_of_last_refused :
    ((bumps [⟨[⟨[7], none⟩], .last, 0⟩]).allowsWrite [⟨[7], none⟩] ⟨5, 0⟩ 0) = (false, .last) ∧
    ((bumps [⟨[⟨[7], none⟩], .last, 0⟩]).allowsWrite [⟨[7], none⟩]
      (Timestamp64.next .last) 0).1 = false := by
  decide

end TsCache

end Datax
