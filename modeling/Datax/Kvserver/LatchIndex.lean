import Datax.Kvserver.Latch

/-!
# The latch indexes and the held latches

Under a key of the index stands each holder once for each of its point spans there, and the
ranged set is the holders with a ranged span. So the indexed search finds a conflict
exactly when a scan of all pairs of spans does; a latch is let in only without a conflict,
so no two that are held conflict.
-/

namespace Datax

open AList Bool List

def Latch.Conflict (l held : Latch) : Prop :=
  l.conflicts held = true ∧ ∃ ls ∈ l.spans, ∃ hs ∈ held.spans, hs.overlaps ls = true

theorem LatchSpan.overlaps_comm (a b : LatchSpan) : a.overlaps b = b.overlaps a := by
  obtain ⟨as, ae⟩ := a
  obtain ⟨bs, be⟩ := b
  cases ae with
  | none =>
    cases be with
    | none => exact beq_comm
    | some stop => rfl
  | some stop =>
    cases be with
    | none => rfl
    | some stop' => exact and_comm _ _

theorem Latch.Conflict.symm {a b : Latch} (h : a.Conflict b) : b.Conflict a := by
  obtain ⟨hmode, ls, hls, hs, hhs, hover⟩ := h
  refine ⟨?_, hs, hhs, ls, hls, ?_⟩
  · unfold conflicts at hmode ⊢
    rw [Bool.or_comm]
    exact hmode
  · rw [LatchSpan.overlaps_comm]
    exact hover

def listed (ls : List Latch) : Option (List Latch) := if ls.isEmpty then none else some ls

@[simp] theorem getD_listed (ls : List Latch) : (listed ls).getD [] = ls := by
  cases ls with
  | nil | cons l ls => rfl

def Latch.pointsAt (l : Latch) (k : Key) : List LatchSpan :=
  l.spans.filter fun sp => sp == ⟨k, none⟩

def pointHolders (held : List Latch) (k : Key) : List Latch :=
  held.flatMap fun l => (l.pointsAt k).map fun _ => l

theorem mem_pointHolders {held : List Latch} {k : Key} {l : Latch} :
    l ∈ pointHolders held k ↔ l ∈ held ∧ ⟨k, none⟩ ∈ l.spans := by
  unfold pointHolders Latch.pointsAt
  rw [mem_flatMap]
  constructor
  · rintro ⟨h, hh, hmem⟩
    obtain ⟨sp, hsp, rfl⟩ := mem_map.mp hmem
    obtain ⟨hin, heq⟩ := mem_filter.mp hsp
    rw [beq_iff_eq.mp heq] at hin
    exact ⟨hh, hin⟩
  · rintro ⟨hl, hsp⟩
    exact ⟨l, hl, mem_map.mpr ⟨_, mem_filter.mpr ⟨hsp, beq_self_eq_true _⟩, rfl⟩⟩

theorem pointHolders_append (held : List Latch) (l : Latch) (k : Key) :
    pointHolders (held ++ [l]) k = pointHolders held k ++ (l.pointsAt k).map fun _ => l := by
  simp [pointHolders]

theorem pointHolders_filter (held : List Latch) (id : Nat) (k : Key) :
    pointHolders (held.filter fun h => h.id != id) k =
      (pointHolders held k).filter fun h => h.id != id := by
  induction held with
  | nil => rfl
  | cons h held ih =>
    have hcons : ∀ hs,
        pointHolders (h :: hs) k = ((h.pointsAt k).map fun _ => h) ++ pointHolders hs k :=
      fun _ => flatMap_cons ..
    rw [hcons, filter_append, ← ih]
    cases hne : h.id != id with
    | true =>
      rw [filter_cons_of_pos (p := fun h : Latch => h.id != id) hne, hcons]
      congr 1
      symm
      apply filter_eq_self.mpr
      intro x hx
      obtain ⟨_, _, rfl⟩ := mem_map.mp hx
      exact hne
    | false =>
      rw [filter_cons_of_neg (p := fun h : Latch => h.id != id) (by rw [hne]; exact false_ne_true)]
      have hnil : ((h.pointsAt k).map fun _ => h).filter (fun h => h.id != id) = [] := by
        apply filter_eq_nil_iff.mpr
        intro x hx
        obtain ⟨_, _, rfl⟩ := mem_map.mp hx
        rw [hne]
        exact false_ne_true
      rw [hnil, nil_append]

namespace LatchManager
variable {m : LatchManager} {l : Latch}

structure Indexed (m : LatchManager) : Prop where
  points : ∀ k, m.points.lookup k = listed (pointHolders m.held k)
  ranged : m.ranged = m.held.filter fun h => h.ranged
  flagged : ∀ h ∈ m.held, h.ranged = h.spans.any fun sp => sp.endKey.isSome

section Loops
variable {points : AList fun _ : Key => List Latch} {at_ : Key → List Latch}

theorem lookup_insertPoint (h : ∀ k, points.lookup k = listed (at_ k)) (sp : LatchSpan) (k : Key) :
    (insertPoint l points sp).lookup k =
      listed (if sp = ⟨k, none⟩ then at_ k ++ [l] else at_ k) := by
  obtain ⟨start, stop⟩ := sp
  unfold insertPoint
  cases stop with
  | some stop =>
    rw [if_neg (by simp)]
    exact h k
  | none =>
    by_cases heq : k = start
    · subst heq
      rw [if_pos rfl, h k, getD_listed]
      refine (lookup_insert _).trans ?_
      unfold listed
      rw [if_neg (by simp)]
    · rw [if_neg (by simp [Ne.symm heq])]
      exact (lookup_insert_ne heq).trans (h k)

theorem lookup_foldl_insertPoint (spans : List LatchSpan)
    (h : ∀ k, points.lookup k = listed (at_ k)) (k : Key) :
    (spans.foldl (insertPoint l) points).lookup k =
      listed (at_ k ++ (spans.filter fun sp => sp == ⟨k, none⟩).map fun _ => l) := by
  induction spans generalizing points at_ with
  | nil => simpa using h k
  | cons sp spans ih =>
    rw [foldl_cons, ih (lookup_insertPoint h sp), filter_cons]
    by_cases heq : sp = ⟨k, none⟩
    · simp [heq]
    · simp [heq]

theorem lookup_removePoint (h : ∀ k, points.lookup k = listed (at_ k)) (sp : LatchSpan) (k : Key) :
    (removePoint l points sp).lookup k =
      listed (if sp = ⟨k, none⟩ then (at_ k).filter fun h => h.id != l.id else at_ k) := by
  obtain ⟨start, stop⟩ := sp
  unfold removePoint
  cases stop with
  | some stop =>
    rw [if_neg (by simp)]
    exact h k
  | none =>
    rw [h start, getD_listed]
    by_cases heq : k = start
    · subst heq
      rw [if_pos rfl]
      cases (at_ k).filter fun h => h.id != l.id with
      | nil => exact lookup_erase _ _
      | cons x xs => exact lookup_insert _
    · rw [if_neg (by simp [Ne.symm heq])]
      cases (at_ start).filter fun h => h.id != l.id with
      | nil => exact (lookup_erase_ne heq).trans (h k)
      | cons x xs => exact (lookup_insert_ne heq).trans (h k)

theorem lookup_foldl_removePoint (spans : List LatchSpan)
    (h : ∀ k, points.lookup k = listed (at_ k)) (k : Key) :
    (spans.foldl (removePoint l) points).lookup k =
      listed (if ⟨k, none⟩ ∈ spans then (at_ k).filter fun h => h.id != l.id else at_ k) := by
  induction spans generalizing points at_ with
  | nil => simpa using h k
  | cons sp spans ih =>
    rw [foldl_cons, ih (lookup_removePoint h sp)]
    by_cases heq : sp = ⟨k, none⟩
    · simp [heq]
    · simp [heq, Ne.symm heq]

end Loops

theorem indexed_insert (h : Indexed m) (hflag : l.ranged = l.spans.any fun sp => sp.endKey.isSome) :
    Indexed (m.insert l) where
  points k := by
    change (l.spans.foldl (insertPoint l) m.points).lookup k =
      listed (pointHolders (m.held ++ [l]) k)
    rw [lookup_foldl_insertPoint _ h.points, pointHolders_append]
    rfl
  ranged := by
    change (if l.ranged = true then m.ranged ++ [l] else m.ranged) = (m.held ++ [l]).filter _
    rw [filter_append, h.ranged]
    cases hl : l.ranged with
    | true | false => simp [hl]
  flagged x hx := by
    rcases mem_append.mp hx with hold | hnew
    · exact h.flagged x hold
    · rw [mem_singleton.mp hnew]
      exact hflag

theorem indexed_remove (h : Indexed m) (hsame : ∀ x ∈ m.held, x.id = l.id → x = l) :
    Indexed (m.remove l) where
  points k := by
    change (l.spans.foldl (removePoint l) m.points).lookup k =
      listed (pointHolders (m.held.filter fun x => x.id != l.id) k)
    rw [lookup_foldl_removePoint _ h.points, pointHolders_filter]
    by_cases hin : (⟨k, none⟩ : LatchSpan) ∈ l.spans
    · rw [if_pos hin]
    rw [if_neg hin]
    congr 1
    symm
    apply filter_eq_self.mpr
    intro x hx
    obtain ⟨hheld, hpoint⟩ := mem_pointHolders.mp hx
    rw [bne_iff_ne]
    intro heq
    rw [hsame x hheld heq] at hpoint
    exact hin hpoint
  ranged := by
    change m.ranged.filter _ = (m.held.filter _).filter _
    rw [h.ranged, filter_filter, filter_filter]
    congr 1
    funext x
    exact and_comm _ _
  flagged x hx := h.flagged x (mem_of_mem_filter hx)

section Search
variable {ls : LatchSpan} {held : Latch}

theorem conflict_of_findConflictOf (h : Indexed m) (hls : ls ∈ l.spans)
    (hfind : m.findConflictOf l ls = some held) : held ∈ m.held ∧ l.Conflict held := by
  unfold findConflictOf at hfind
  cases hend : ls.endKey with
  | some stop =>
    rw [hend] at hfind
    have hp := find?_some hfind
    rw [and_eq_true, any_eq_true] at hp
    obtain ⟨hmode, hs, hhs, hover⟩ := hp
    exact ⟨mem_of_find?_eq_some hfind, hmode, ls, hls, hs, hhs, hover⟩
  | none =>
    rw [hend] at hfind
    rw [h.points, getD_listed, Option.or_eq_some_iff] at hfind
    rcases hfind with hpoint | ⟨_, hranged⟩
    · obtain ⟨hheld, hin⟩ := mem_pointHolders.mp (mem_of_find?_eq_some hpoint)
      refine ⟨hheld, find?_some hpoint, ls, hls, _, hin, ?_⟩
      unfold LatchSpan.overlaps
      rw [hend]
      exact beq_self_eq_true _
    · have hmem := mem_of_find?_eq_some hranged
      rw [h.ranged] at hmem
      have hp := find?_some hranged
      rw [and_eq_true, any_eq_true] at hp
      obtain ⟨hmode, hs, hhs, hover⟩ := hp
      exact ⟨mem_of_mem_filter hmem, hmode, ls, hls, hs, hhs, (and_eq_true_iff.mp hover).2⟩

theorem findConflictOf_isSome (h : Indexed m) (hheld : held ∈ m.held)
    (hmode : l.conflicts held = true) {hs : LatchSpan} (hhs : hs ∈ held.spans)
    (hover : hs.overlaps ls = true) :
    (m.findConflictOf l ls).isSome = true := by
  unfold findConflictOf
  cases hend : ls.endKey with
  | some stop =>
    rw [find?_isSome]
    refine ⟨held, hheld, ?_⟩
    rw [hmode, Bool.true_and, any_eq_true]
    exact ⟨hs, hhs, hover⟩
  | none =>
    rw [h.points, getD_listed, Option.isSome_or, or_eq_true]
    cases hrange : hs.endKey with
    | none =>
      left
      rw [find?_isSome]
      refine ⟨held, mem_pointHolders.mpr ⟨hheld, ?_⟩, hmode⟩
      unfold LatchSpan.overlaps at hover
      rw [hrange, hend] at hover
      have heq : hs = ⟨ls.startKey, none⟩ := by
        rw [← beq_iff_eq.mp hover, ← hrange]
      rw [← heq]
      exact hhs
    | some stop =>
      right
      have hsome : hs.endKey.isSome = true := by
        rw [hrange]
        rfl
      rw [find?_isSome, h.ranged]
      refine ⟨held, mem_filter.mpr ⟨hheld, ?_⟩, ?_⟩
      · rw [h.flagged held hheld, any_eq_true]
        exact ⟨hs, hhs, hsome⟩
      · rw [hmode, Bool.true_and, any_eq_true]
        refine ⟨hs, hhs, ?_⟩
        rw [hsome, Bool.true_and]
        exact hover

end Search

theorem conflict_of_findConflict (h : Indexed m) {held : Latch}
    (hfind : m.findConflict l = some held) :
    held ∈ m.held ∧ l.Conflict held := by
  obtain ⟨ls, hls, hof⟩ := exists_of_findSome?_eq_some hfind
  exact conflict_of_findConflictOf h hls hof

theorem findConflict_isSome_iff (h : Indexed m) (l : Latch) :
    (m.findConflict l).isSome = true ↔ ∃ held ∈ m.held, l.Conflict held := by
  constructor
  · intro hsome
    obtain ⟨held, hfind⟩ := Option.isSome_iff_exists.mp hsome
    exact ⟨held, conflict_of_findConflict h hfind⟩
  · rintro ⟨held, hheld, hmode, ls, hls, hs, hhs, hover⟩
    unfold findConflict
    rw [findSome?_isSome_iff]
    exact ⟨ls, hls, findConflictOf_isSome h hheld hmode hhs hover⟩

end LatchManager

namespace Latches

structure Inv (s : Latches) : Prop where
  indexed : s.manager.Indexed
  guarded : s.guards = s.manager.held
  fresh_waiting : ∀ l ∈ s.waiting, l.id < s.next
  fresh_held : ∀ l ∈ s.manager.held, l.id < s.next
  waiting : s.waiting.Pairwise fun a b => a.id ≠ b.id
  held : s.manager.held.Pairwise fun a b => a.id ≠ b.id
  apart : ∀ a ∈ s.waiting, ∀ b ∈ s.manager.held, a.id ≠ b.id
  flagged : ∀ l ∈ s.waiting, l.ranged = l.spans.any fun sp => sp.endKey.isSome
  free : s.manager.held.Pairwise fun a b => ¬ a.Conflict b

variable {s : Latches} {l : Latch}

theorem inv_acquire (h : Inv s) (spans : List LatchSpan) (mode : LatchMode) :
    Inv (s.step (.acquire spans mode)) := { h with
  fresh_waiting x hx := by
    rcases mem_append.mp hx with hold | hnew
    · exact Nat.lt_succ_of_lt (h.fresh_waiting x hold)
    · rw [mem_singleton.mp hnew]
      exact Nat.lt_succ_self _
  fresh_held x hx := Nat.lt_succ_of_lt (h.fresh_held x hx)
  waiting := by
    refine pairwise_append.mpr ⟨h.waiting, pairwise_singleton _ _, ?_⟩
    intro a ha b hb
    rw [mem_singleton.mp hb]
    exact (h.fresh_waiting a ha).ne
  apart a ha b hb := by
    rcases mem_append.mp ha with hold | hnew
    · exact h.apart a hold b hb
    · rw [mem_singleton.mp hnew]
      exact (h.fresh_held b hb).ne'
  flagged x hx := by
    rcases mem_append.mp hx with hold | hnew
    · exact h.flagged x hold
    · rw [mem_singleton.mp hnew]
      rfl }

theorem inv_scan (h : Inv s) (hl : l ∈ s.waiting) : Inv (s.scan l) := by
  unfold scan
  split
  case h_2 => exact h
  case h_1 hnone =>
    -- without a conflict in the index there is none with any holder
    have hfree : ∀ x ∈ s.manager.held, ¬ l.Conflict x := by
      intro x hx hconf
      have hsome := (LatchManager.findConflict_isSome_iff h.indexed l).mpr ⟨x, hx, hconf⟩
      simp [hnone] at hsome
    constructor
    case indexed => exact LatchManager.indexed_insert h.indexed (h.flagged l hl)
    case guarded => exact congrArg (fun ls => ls ++ [l]) h.guarded
    case fresh_waiting => exact fun x hx => h.fresh_waiting x (mem_of_mem_filter hx)
    case fresh_held =>
      refine forall_mem_append.mpr ⟨h.fresh_held, forall_mem_singleton.mpr ?_⟩
      exact h.fresh_waiting l hl
    case waiting => exact h.waiting.filter _
    case held =>
      refine pairwise_append.mpr ⟨h.held, pairwise_singleton _ _, ?_⟩
      intro a ha b hb
      rw [mem_singleton.mp hb]
      exact (h.apart l hl a ha).symm
    case apart =>
      intro a ha b hb
      obtain ⟨hwait, hne⟩ := mem_filter.mp ha
      rcases mem_append.mp hb with hold | hnew
      · exact h.apart a hwait b hold
      · rw [mem_singleton.mp hnew]
        exact bne_iff_ne.mp hne
    case flagged => exact fun x hx => h.flagged x (mem_of_mem_filter hx)
    case free =>
      refine pairwise_append.mpr ⟨h.free, pairwise_singleton _ _, ?_⟩
      intro a ha b hb
      rw [mem_singleton.mp hb]
      exact fun hconf => hfree a ha hconf.symm

theorem inv_cancel (h : Inv s) (id : Nat) : Inv (s.step (.cancel id)) := { h with
  fresh_waiting x hx := h.fresh_waiting x (mem_of_mem_filter hx)
  waiting := h.waiting.filter _
  apart a ha := h.apart a (mem_of_mem_filter ha)
  flagged x hx := h.flagged x (mem_of_mem_filter hx) }

theorem eq_of_id_eq {ls : List Latch} (h : ls.Pairwise fun a b => a.id ≠ b.id) {a b : Latch}
    (ha : a ∈ ls) (hb : b ∈ ls) (hid : a.id = b.id) : a = b := by
  have hnodup : (ls.map Latch.id).Nodup := pairwise_map.mpr h
  exact inj_on_of_nodup_map hnodup ha hb hid

theorem inv_release (h : Inv s) (hl : l ∈ s.guards) : Inv (s.release l) := { h with
  indexed := by
    rw [h.guarded] at hl
    exact LatchManager.indexed_remove h.indexed (fun x hx hid => eq_of_id_eq h.held hx hl hid)
  guarded := congrArg (List.filter fun g : Latch => g.id != l.id) h.guarded
  fresh_held x hx := h.fresh_held x (mem_of_mem_filter hx)
  held := h.held.filter _
  apart a ha b hb := h.apart a ha b (mem_of_mem_filter hb)
  free := h.free.filter _ }

theorem inv_step (a : Action) (h : Inv s) : Inv (s.step a) := by
  cases a with
  | acquire spans mode => exact inv_acquire h spans mode
  | scan id =>
    dsimp only [step]
    split
    · rename_i l hfind
      exact inv_scan h (mem_of_find?_eq_some hfind)
    · exact h
  | cancel id => exact inv_cancel h id
  | release id =>
    dsimp only [step]
    split
    · rename_i l hfind
      exact inv_release h (mem_of_find?_eq_some hfind)
    · exact h

theorem inv_start : Inv {} where
  indexed := ⟨fun _ => rfl, rfl, fun _ hx => by cases hx⟩
  guarded := rfl
  fresh_waiting _ hx := by cases hx
  fresh_held _ hx := by cases hx
  waiting := .nil
  held := .nil
  apart _ ha := by cases ha
  flagged _ hx := by cases hx
  free := .nil

theorem inv_run (actions : List Action) : Inv (actions.foldl step {}) := by
  suffices hall : ∀ s, Inv s → Inv (actions.foldl step s) from hall {} inv_start
  induction actions with
  | nil => exact fun _ h => h
  | cons a actions ih => exact fun s h => ih (s.step a) (inv_step a h)

theorem points_empty_of_held (h : Inv s) (hheld : s.manager.held = []) :
    s.manager.points = ∅ ∧ s.manager.ranged = [] := by
  constructor
  · apply AList.ext
    apply eq_nil_iff_forall_not_mem.mpr
    rintro ⟨k, hs⟩ hmem
    have hlook : s.manager.points.lookup k = some hs := mem_lookup_iff.mpr hmem
    rw [h.indexed.points, hheld] at hlook
    cases hlook
  · rw [h.indexed.ranged, hheld]
    rfl

theorem find_waiting (h : Inv s) (hl : l ∈ s.waiting) :
    (s.waiting.find? fun w => w.id == l.id) = some l := by
  cases hfind : s.waiting.find? fun w => w.id == l.id with
  | none =>
    rw [find?_eq_none] at hfind
    exact absurd (beq_self_eq_true l.id) (hfind l hl)
  | some w =>
    have hid := find?_some hfind
    rw [eq_of_id_eq h.waiting (mem_of_find?_eq_some hfind) hl (beq_iff_eq.mp hid)]

theorem mem_guards_scan_iff (h : Inv s) (hl : l ∈ s.waiting) :
    l ∈ (s.step (.scan l.id)).guards ↔ s.manager.findConflict l = none := by
  have hout : l ∉ s.guards := by
    rw [h.guarded]
    exact fun hin => h.apart l hl l hin rfl
  simp only [step, find_waiting h hl, scan]
  cases s.manager.findConflict l with
  | none => simp
  | some held => simp [hout]

/-- Through every sequence of acquisitions, scans, cancellations and releases the manager holds
the latches of the guards that are handed out and not released, its indexes are those of these
latches, and no two of them conflict. The search finds a conflict, and a waiting request gets no
guard, exactly when the scan of all pairs finds one. Once every guard is released the indexes are
empty. -/
theorem latches_exact (actions : List Action) :
    (actions.foldl step {}).manager.held = (actions.foldl step {}).guards ∧
    (actions.foldl step {}).manager.Indexed ∧
    (actions.foldl step {}).guards.Pairwise (fun a b => ¬ a.Conflict b) ∧
    (∀ l : Latch, ((actions.foldl step {}).manager.findConflict l).isSome = true ↔
      ∃ held ∈ (actions.foldl step {}).guards, l.Conflict held) ∧
    (∀ l ∈ (actions.foldl step {}).waiting,
      l ∈ ((actions.foldl step {}).step (.scan l.id)).guards ↔
        ∀ held ∈ (actions.foldl step {}).guards, ¬ l.Conflict held) ∧
    ((actions.foldl step {}).guards = [] → (actions.foldl step {}).manager.points = ∅ ∧
      (actions.foldl step {}).manager.ranged = []) := by
  have h := inv_run actions
  have hfind := LatchManager.findConflict_isSome_iff h.indexed
  have hfree := h.free
  rw [← h.guarded] at hfind hfree
  refine ⟨h.guarded.symm, h.indexed, hfree, hfind, ?_, ?_⟩
  · intro l hl
    rw [mem_guards_scan_iff h hl, ← Option.not_isSome_iff_eq_none, hfind]
    push Not
    rfl
  · intro hguards
    exact points_empty_of_held h (h.guarded.symm.trans hguards)

end Latches

end Datax
