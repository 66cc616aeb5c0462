import Datax.Shared.Runs
import Datax.Kvclient.Session
import Datax.Shared.Nested

/-!
# What a refresh covers

A run of reads and savepoint operations of one transaction, beside the spans whose
results the transaction still depends on: every span it has read, outside the
scopes that were rolled back. A refresh may move the read timestamp only if it
revalidates all of them.
-/

namespace Datax.Refreshing

open List Function Runs

open Shared (Nested)

structure Tracked where
  session : Session
  depends : List ReadSpan := []
  -- what the transaction depended on when the savepoint of this order was established
  marks : Nat → List ReadSpan := fun _ => []

inductive Action where
  | read (spans : List ReadSpan)
  | write (kys : List Key)
  | savepoint (name : String)
  | release (name : String)
  | rollbackTo (name : String) (sent : Except String Unit)
  | refresh (newTS : Timestamp) (answer : ReadSpan → Bool)

/-- An operation that returns an error leaves the bookkeeping as it was and is no
step. -/
def step (s : Tracked) : Action → Option Tracked
  | .read spans =>
    some { s with
      session := spans.foldl Session.recordRead s.session, depends := s.depends ++ spans }
  | .write kys =>
    some { s with session := { s.session with toTxn := s.session.toTxn.recordWrites kys } }
  | .savepoint name =>
    (s.session.savepoint name).toOption.map fun t =>
      { s with session := t, marks := update s.marks t.spOrder s.depends }
  | .release name => (s.session.releaseSavepoint name).toOption.map fun t => { s with session := t }
  | .rollbackTo name sent =>
    match s.session.find name with
    | none => none
    | some sp =>
      (s.session.rollbackToSavepoint name sent).toOption.map fun t =>
        { s with session := t, depends := s.marks sp.order }
  | .refresh newTS answer => some { s with session := (s.session.maybeRefresh newTS answer).1 }

/-- The transaction may not refresh, or its tracked spans cover everything it depends on. -/
def Covered (s : Tracked) : Prop :=
  s.session.refreshUnusable = true ∨ ∀ sp ∈ s.depends, ∀ k, sp.Contains k →
    ∃ t ∈ s.session.readSpans, t.Contains k

/-- A refresh that succeeds moves nothing, or every key the transaction depends on
lies in a span that was sent and answered without error. -/
def Revalidates (s : Tracked) : Prop :=
  ∀ newTS answer, (s.session.maybeRefresh newTS answer).2.2 = true →
    newTS ≤ s.session.txn.readTimestamp ∨
      ∀ sp ∈ s.depends, ∀ k, sp.Contains k →
        ∃ t ∈ (s.session.maybeRefresh newTS answer).2.1, t.Contains k ∧ answer t = true

/-- No rollback turns tracking on again for a savepoint that had tracked reads: the
spans are gone. -/
def keepsTracking (s : Tracked) : Action → Bool
  | .rollbackTo name _ =>
    (s.session.find name).all fun sp =>
      !s.session.refreshUnusable || sp.refreshUnusable || sp.readSpans == 0
  | _ => true

/-- Tracking of `b` is later than that of `a`: it has stopped, or it holds more spans. -/
def Extends : Option (List ReadSpan) → Option (List ReadSpan) → Prop
  | _, none => True
  | some a, some b => a <+: b
  | none, some _ => False

theorem Extends.refl (a : Option (List ReadSpan)) : Extends a a := by
  cases a with
  | none => trivial
  | some a => exact prefix_refl a

theorem Extends.trans (a b c : Option (List ReadSpan)) (hab : Extends a b) (hbc : Extends b c) :
    Extends a c := by
  cases c with
  | none => trivial
  | some c =>
    cases b with
    | none => exact absurd hbc id
    | some b =>
      cases a with
      | none => exact absurd hab id
      | some a => exact List.IsPrefix.trans hab hbc

def tracking (unusable : Bool) (spans : List ReadSpan) : Option (List ReadSpan) :=
  if unusable then none else some spans

def Tracked.atSavepoint (s : Tracked) (sp : Savepoint) : Option (List ReadSpan) :=
  tracking sp.refreshUnusable (s.marks sp.order)

def Tracked.live (s : Tracked) : List Savepoint := s.session.savepoints.map Prod.snd

structure Inv (s : Tracked) : Prop where
  nested : Nested Extends Savepoint.order s.atSavepoint s.live
    (tracking s.session.refreshUnusable s.depends)
  exact : s.session.refreshUnusable = false → s.session.readSpans = s.depends
  dropped : s.session.refreshUnusable = true → s.session.readSpans = []
  orders : ∀ sp ∈ s.live, sp.order ≤ s.session.spOrder
  counts : ∀ sp ∈ s.live, sp.refreshUnusable = false → (s.marks sp.order).length = sp.readSpans

@[simp] theorem updateHistoryFloor_readSpans (t : Session) :
    t.updateHistoryFloor.readSpans = t.readSpans := rfl

@[simp] theorem updateHistoryFloor_spOrder (t : Session) :
    t.updateHistoryFloor.spOrder = t.spOrder := rfl

section Reads
variable {t : Session} {depends : List ReadSpan}

/-- The spans of a transaction that may refresh are the ones it depends on; one that
may not has none. -/
def Exact (t : Session) (depends : List ReadSpan) : Prop :=
  if t.refreshUnusable then t.readSpans = [] else t.readSpans = depends

theorem exact_recordRead (h : Exact t depends) (sp : ReadSpan) :
    Exact (t.recordRead sp) (depends ++ [sp]) := by
  unfold Session.recordRead
  by_cases hu : t.refreshUnusable = true
  · simp only [Exact, hu, if_true] at h ⊢
    exact h
  rw [if_neg hu]
  simp only [Exact, hu] at h
  split
  · rfl
  · simp only [Exact, hu]
    exact congrArg (· ++ [sp]) h

theorem recordRead_unusable (h : t.refreshUnusable = true) (sp : ReadSpan) :
    (t.recordRead sp).refreshUnusable = true := by
  rw [Session.recordRead, if_pos h]
  exact h

@[simp] theorem recordRead_spOrder (t : Session) (sp : ReadSpan) :
    (t.recordRead sp).spOrder = t.spOrder := by
  unfold Session.recordRead
  split
  · rfl
  · split <;> rfl

theorem extends_recordRead (t : Session) (depends : List ReadSpan) (sp : ReadSpan) :
    Extends (tracking t.refreshUnusable depends)
      (tracking (t.recordRead sp).refreshUnusable (depends ++ [sp])) := by
  cases hu : (t.recordRead sp).refreshUnusable with
  | true => trivial
  | false =>
    have hold : t.refreshUnusable = false := by
      by_contra hc
      simp [recordRead_unusable (by simpa using hc)] at hu
    rw [hold]
    exact prefix_append depends [sp]

end Reads

variable {t : Session}

section Steps
variable {s s' : Tracked}

theorem Inv.exactly (h : Inv s) : Exact s.session s.depends := by
  unfold Exact
  split
  · rename_i hu
    exact h.dropped hu
  · rename_i hu
    exact h.exact (by simpa using hu)

theorem Inv.read (h : Inv s) (spans : List ReadSpan) :
    Inv { s with
      session := spans.foldl Session.recordRead s.session, depends := s.depends ++ spans } := by
  induction spans generalizing s with
  | nil => simpa using h
  | cons sp spans ih =>
    have hexact := exact_recordRead h.exactly sp
    have hone : Inv { s with session := s.session.recordRead sp, depends := s.depends ++ [sp] } :=
      { nested := by
          have hgrow := h.nested.grow Extends.trans (extends_recordRead s.session s.depends sp)
          apply hgrow.subset
          intro a ha
          simpa [Tracked.live] using ha
        exact := by
          intro hu
          have hu' : (s.session.recordRead sp).refreshUnusable = false := hu
          simpa [Exact, hu'] using hexact
        dropped := by
          intro hu
          have hu' : (s.session.recordRead sp).refreshUnusable = true := hu
          simpa [Exact, hu'] using hexact
        orders := by
          intro a ha
          rw [recordRead_spOrder]
          exact h.orders a (by simpa [Tracked.live] using ha)
        counts := by
          intro a ha
          exact h.counts a (by simpa [Tracked.live] using ha) }
    simpa [append_assoc] using ih hone

variable {name : String} {sp : Savepoint}

theorem mem_live (h : s.session.find name = some sp) : sp ∈ s.live := by
  obtain ⟨l₁, l₂, hl, _⟩ := lookup_eq_some_iff.mp h
  apply mem_map.mpr
  refine ⟨(name, sp), ?_, rfl⟩
  rw [hl]
  simp

theorem mem_of_mem_filter {savepoints : List (String × Savepoint)} {p : String × Savepoint → Bool}
    (h : sp ∈ (savepoints.filter p).map Prod.snd) :
    ∃ name, (name, sp) ∈ savepoints ∧ p (name, sp) = true := by
  obtain ⟨⟨name, sp'⟩, hmem, rfl⟩ := mem_map.mp h
  obtain ⟨hmem, hp⟩ := mem_filter.mp hmem
  exact ⟨name, hmem, hp⟩

theorem Inv.narrow (h : Inv s) (hspans : t.readSpans = s.session.readSpans)
    (hu : t.refreshUnusable = s.session.refreshUnusable) (horder : t.spOrder = s.session.spOrder)
    (hlive : ∀ sp ∈ t.savepoints.map Prod.snd, sp ∈ s.live) : Inv { s with session := t } where
  nested := by
    rw [hu]
    exact h.nested.subset hlive
  exact hf := by
    rw [hspans]
    exact h.exact (hu ▸ hf)
  dropped hf := by
    rw [hspans]
    exact h.dropped (hu ▸ hf)
  orders sp hsp := by
    rw [horder]
    exact h.orders sp (hlive sp hsp)
  counts sp hsp := h.counts sp (hlive sp hsp)

theorem Inv.savepoint (h : Inv s) (ht : s.session.savepoint name = .ok t) :
    Inv { s with session := t, marks := update s.marks t.spOrder s.depends } := by
  unfold Session.savepoint at ht
  split_ifs at ht
  cases ht
  have hold : ∀ sp ∈ s.live, update s.marks (s.session.spOrder + 1) s.depends sp.order =
      s.marks sp.order := by
    intro sp hsp
    have hle := h.orders sp hsp
    exact update_of_ne (by omega) _ _
  have hsub : ∀ sp ∈
      (s.session.savepoints.filter fun p => p.1 != name).map Prod.snd, sp ∈ s.live := by
    intro sp hsp
    obtain ⟨n, hmem, _⟩ := mem_of_mem_filter hsp
    exact mem_map_of_mem hmem
  constructor
  case nested =>
    have hkept := (h.nested.subset hsub).congr (Tracked.atSavepoint
      { s with marks := update s.marks (s.session.spOrder + 1) s.depends }) (by
        intro sp hsp
        simp only [Tracked.atSavepoint, hold sp (hsub sp hsp)])
    apply hkept.push Extends.refl
    · simp [Tracked.atSavepoint]
    intro sp hsp
    have hle := h.orders sp (hsub sp hsp)
    exact Nat.lt_succ_of_le hle
  case exact => exact h.exact
  case dropped => exact h.dropped
  case orders =>
    intro sp hsp
    rcases mem_cons.mp hsp with rfl | hsp
    · exact le_refl _
    · exact Nat.le_succ_of_le (h.orders sp (hsub sp hsp))
  case counts =>
    intro sp hsp hu
    rcases mem_cons.mp hsp with rfl | hsp
    · simp only [updateHistoryFloor_spOrder, update_self]
      rw [h.exact hu]
    · simp only [updateHistoryFloor_spOrder, hold sp (hsub sp hsp)]
      exact h.counts sp (hsub sp hsp) hu

theorem Inv.release (h : Inv s) (ht : s.session.releaseSavepoint name = .ok t) :
    Inv { s with session := t } := by
  unfold Session.releaseSavepoint at ht
  split at ht
  · cases ht
  cases ht
  refine h.narrow ?_ ?_ ?_ ?_
  · rfl
  · rfl
  · rfl
  intro sp hsp
  obtain ⟨n, hmem, _⟩ := mem_of_mem_filter hsp
  exact mem_map_of_mem hmem

theorem Inv.restore (h : Inv s) (hsp : sp ∈ s.live)
    (hkeeps : s.session.refreshUnusable = true → sp.refreshUnusable = true ∨ sp.readSpans = 0) :
    Inv { s with session := s.session.restore sp, depends := s.marks sp.order } := by
  have hback : ∀ a ∈ (s.session.restore sp).savepoints.map Prod.snd, a ∈ s.live ∧
      a.order ≤ sp.order := by
    intro a ha
    obtain ⟨n, hmem, hle⟩ := mem_of_mem_filter ha
    refine ⟨mem_map_of_mem hmem, ?_⟩
    simpa using hle
  have hbelow := h.nested.below sp hsp
  constructor
  case nested => exact h.nested.back hsp hback
  case exact =>
    intro hu
    have hu : sp.refreshUnusable = false := hu
    have hcount := h.counts sp hsp hu
    -- the spans of the savepoint are the first ones tracked now, or it had none
    have htake : s.session.readSpans.take sp.readSpans = s.marks sp.order := by
      cases hcur : s.session.refreshUnusable with
      | false =>
        have hinit : s.marks sp.order <+: s.depends := by
          simpa [Tracked.atSavepoint, tracking, hu, hcur, Extends] using hbelow
        rw [h.exact hcur, ← hcount]
        exact (prefix_iff_eq_take.mp hinit).symm
      | true =>
        have hzero : sp.readSpans = 0 := (hkeeps hcur).resolve_left (by simp [hu])
        rw [hzero] at hcount ⊢
        rw [take_zero, length_eq_zero_iff.mp hcount]
    simp only [Session.restore, updateHistoryFloor_readSpans]
    split
    · exact htake
    · rename_i hlong
      rw [← htake, take_of_length_le (by omega)]
  case dropped =>
    intro hu
    have hu : sp.refreshUnusable = true := hu
    have hcur : s.session.refreshUnusable = true := by
      by_contra hc
      simp [Tracked.atSavepoint, tracking, hu, hc, Extends] at hbelow
    simp [Session.restore, h.dropped hcur]
  case orders => exact fun a ha => h.orders a (hback a ha).1
  case counts => exact fun a ha => h.counts a (hback a ha).1

theorem Inv.refresh (h : Inv s) (newTS : Timestamp) (answer : ReadSpan → Bool) :
    Inv { s with session := (s.session.maybeRefresh newTS answer).1 } := by
  obtain ⟨read, write, _, hmoved⟩ := s.session.maybeRefresh_moved newTS answer
  rw [hmoved]
  exact h.narrow rfl rfl rfl fun _ hsp => hsp

theorem inv_step (s : Tracked) (a : Action) (s' : Tracked) (h : Inv s)
    (hc : keepsTracking s a = true) (hs : step s a = some s') : Inv s' := by
  cases a with
  | read spans =>
    cases hs
    exact h.read spans
  | write kys =>
    cases hs
    exact h.narrow rfl rfl rfl fun _ hsp => hsp
  | savepoint name =>
    obtain ⟨t, ht, rfl⟩ := Option.map_eq_some_iff.mp hs
    exact h.savepoint (Fallible.ok_of_toOption ht)
  | release name =>
    obtain ⟨t, ht, rfl⟩ := Option.map_eq_some_iff.mp hs
    exact h.release (Fallible.ok_of_toOption ht)
  | rollbackTo name sent =>
    simp only [step] at hs
    split at hs
    · cases hs
    rename_i sp hfind
    obtain ⟨t, ht, rfl⟩ := Option.map_eq_some_iff.mp hs
    rw [Session.rollbackToSavepoint_ok hfind (Fallible.ok_of_toOption ht)]
    apply h.restore (mem_live hfind)
    intro hu
    simpa [keepsTracking, hfind, hu] using hc
  | refresh newTS answer =>
    cases hs
    exact h.refresh newTS answer

end Steps

def begun (id : UUID) (priority : Int) (now : Timestamp) : Tracked :=
  { session := .newTxn id priority now }

theorem inv_begun (id : UUID) (priority : Int) (now : Timestamp) : Inv (begun id priority now) where
  nested := Nested.nil _
  exact _ := rfl
  dropped hu := by cases hu
  orders sp hsp := by cases hsp
  counts sp hsp := by cases hsp

theorem covered_of_inv {s : Tracked} (h : Inv s) : Covered s := by
  cases hu : s.session.refreshUnusable with
  | true => exact Or.inl hu
  | false =>
    apply Or.inr
    intro sp hsp k hk
    rw [h.exact hu]
    exact ⟨sp, hsp, hk⟩

theorem refreshSpans_ok {answer : ReadSpan → Bool} {spans : List ReadSpan}
    (h : (Session.refreshSpans answer spans).2 = true) :
    (Session.refreshSpans answer spans).1 = spans ∧ ∀ sp ∈ spans, answer sp = true := by
  induction spans with
  | nil => simp [Session.refreshSpans]
  | cons sp rest ih =>
    unfold Session.refreshSpans at h ⊢
    cases hsp : answer sp with
    | false => simp [hsp] at h
    | true =>
      simp only [hsp, if_true] at h ⊢
      obtain ⟨hsent, hrest⟩ := ih h
      refine ⟨by rw [hsent], ?_⟩
      exact forall_mem_cons.mpr ⟨hsp, hrest⟩

theorem revalidates_of_covered {s : Tracked} (h : Covered s) : Revalidates s := by
  intro newTS answer hok
  unfold Session.maybeRefresh at hok ⊢
  by_cases hu : s.session.refreshUnusable = true
  · simp [hu] at hok
  rw [if_neg hu] at hok ⊢
  by_cases hle : newTS.lessEq s.session.txn.readTimestamp = true
  · exact .inl (Timestamp.lessEq_iff.mp hle)
  rw [if_neg hle] at hok ⊢
  obtain ⟨hsent, hanswer⟩ := refreshSpans_ok hok
  apply Or.inr
  intro sp hsp k hk
  obtain ⟨t, ht, hkt⟩ := (h.resolve_left hu) sp hsp k hk
  refine ⟨t, ?_, hkt, hanswer t ht⟩
  simp only [hsent]
  exact ht

theorem refresh_covers_reads (id : UUID) (priority : Int) (now : Timestamp) (s : Tracked)
    (actions : List Action) (hrun : run step (begun id priority now) actions = some s)
    (hguard : Runs.Guarded step (fun s a => keepsTracking s a = true)
      (begun id priority now) actions) :
    Covered s ∧ Revalidates s := by
  have hinv : Inv s := invariant_of_run inv_step (inv_begun id priority now) hguard hrun
  have hcov := covered_of_inv hinv
  exact ⟨hcov, revalidates_of_covered hcov⟩

def point (k : Key) : ReadSpan := ⟨k, none⟩

theorem refresh_covers_nested_reads : ∃ s', run step (begun 1 0 ⟨5, 0⟩)
        [.read [point [1]], .savepoint "a", .read [point [2]], .rollbackTo "a" (.ok ()),
          .read [point [3]]] =
          some s' ∧ s'.depends = [point [1], point [3]] ∧ Covered s' ∧ Revalidates s' := by
  refine exists_of_run (fun s => s.depends = [point [1], point [3]]) (by decide) ?_
  exact fun s hrun hdep => ⟨hdep, refresh_covers_reads 1 0 ⟨5, 0⟩ s _ hrun (by decide)⟩

/-- One read, a savepoint, and as many reads as are tracked: the rollback turns
refreshing on again, and the first read has no span left. -/
theorem rollback_forgets_reads : ∃ s', run step (begun 1 0 ⟨5, 0⟩)
        [.read [point [1]], .savepoint "a", .read (List.replicate Session.maxReadSpans (point [2])),
          .rollbackTo "a" (.ok ())] = some s' ∧
      s'.session.refreshUnusable = false ∧ s'.session.readSpans = [] ∧ s'.depends = [point [1]] ∧
      ¬ Covered s' ∧ ¬ Revalidates s' := by
  refine exists_of_run (fun s => s.session.refreshUnusable = false ∧ s.session.readSpans = [] ∧
    s.depends = [point [1]] ∧ s.session.txn.readTimestamp = ⟨5, 0⟩) (by decide +kernel) ?_
  rintro s' - ⟨hu, hspans, hdep, hts⟩
  refine ⟨hu, hspans, hdep, ?_, ?_⟩
  · intro hcov
    obtain ⟨t, ht, _⟩ := hcov.resolve_left (by simp [hu]) (point [1]) (by simp [hdep]) [1] rfl
    simp [hspans] at ht
  · intro hrev
    have hmoved : (s'.session.maybeRefresh ⟨9, 0⟩ fun _ => false) =
        ({ s'.session with toTxn := s'.session.toTxn.refresh ⟨9, 0⟩ }, [], true) := by
      simp only [Session.maybeRefresh, hu, hspans, hts, Session.refreshSpans]
      rfl
    rcases hrev ⟨9, 0⟩ (fun _ => false) (by rw [hmoved]) with hle | hsent
    · rw [hts] at hle
      exact absurd hle (by decide)
    · obtain ⟨t, _, _, ht⟩ := hsent (point [1]) (by simp [hdep]) [1] rfl
      cases ht

end Datax.Refreshing
