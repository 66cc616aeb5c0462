import Datax.Storage.MvccScan

/-!
# Exports of a time window

An export emits, for every key of a span whose newest version at or below the end of the window
lies in the window, that version, and says where to go on after a number of records. The
version key of the zero timestamp is the key of the intent record, in front of all versions,
and a seek to it lands there.
-/

namespace Datax

open List

open Shared (Chain)

structure ExportedRecord where
  key : Key
  value : Bytes
  deleted : Bool
deriving DecidableEq

structure ExportResult where
  records : List ExportedRecord
  resume : Option Key
deriving DecidableEq

def Engine.span (e : Engine) (start stop : Key) : List (Key × KeyHistory) :=
  e.entries.filter fun p => start ≤ p.1 ∧ p.1 < stop

/-- The version on which `SeekGE(EncodeMVCCKey(cur, endTS))` lands. -/
def seekVersion (h : KeyHistory) (endTS : Timestamp) : Option (Timestamp × Option Bytes) :=
  if endTS.isEmpty then
    match h.intent with
    -- an intent record decodes to the zero timestamp, which no window holds
    | some _ => none
    | none => h.versions.entries.head?
  else visible h.versions endTS ⊥

def exportVersion (startTS endTS : Timestamp) (h : KeyHistory) : Option (Option Bytes) :=
  match seekVersion h endTS with
  | none => none
  | some (cvts, value) => if cvts.lessEq startTS then none else some value

def exportRecord (cur : Key) : Option Bytes → ExportedRecord
  | none => ⟨cur, [], true⟩
  | some data => ⟨cur, data, false⟩

/-- The intent of a key that could still commit at or below the end of the window. -/
def exportConflict (endTS : Timestamp) (cur : Key) (h : KeyHistory) : Option Intent :=
  h.intent.bind fun intent => if endTS.less intent.timestamp then none else some ⟨cur, intent.txn⟩

def exportLoop (startTS endTS : Timestamp) (max : Nat) :
    List (Key × KeyHistory) → List ExportedRecord → List Intent → Except StorageError ExportResult
  | [], records, intents =>
    if intents = [] then .ok ⟨records, none⟩ else .error (.writeIntent intents)
  | (cur, h) :: rest, records, intents =>
    match exportConflict endTS cur h with
    | some intent =>
      let intents := intents ++ [intent]
      if maxIntentsPerError ≤ intents.length then .error (.writeIntent intents)
      else exportLoop startTS endTS max rest records intents
    | none =>
      match exportVersion startTS endTS h with
      | none => exportLoop startTS endTS max rest records intents
      | some value =>
        if intents = [] then
          let records := records ++ [exportRecord cur value]
          if 0 < max ∧ records.length = max then .ok ⟨records, some cur.next⟩
          else exportLoop startTS endTS max rest records intents
        else exportLoop startTS endTS max rest records intents

def MVCCExport (e : Engine) (start stop : Key) (startTS endTS : Timestamp) (max : Nat) :
    Except StorageError ExportResult :=
  exportLoop startTS endTS max (e.span start stop) [] []

def exportedRecords (startTS endTS : Timestamp) (es : List (Key × KeyHistory)) :
    List ExportedRecord :=
  es.filterMap fun p => (exportVersion startTS endTS p.2).map (exportRecord p.1)

theorem exportedRecords_append (startTS endTS : Timestamp) (es es' : List (Key × KeyHistory)) :
    exportedRecords startTS endTS (es ++ es') =
      exportedRecords startTS endTS es ++ exportedRecords startTS endTS es' := filterMap_append

theorem key_of_mem_exportedRecords {startTS endTS : Timestamp} {es : List (Key × KeyHistory)}
    {r : ExportedRecord} (hr : r ∈ exportedRecords startTS endTS es) : ∃ p ∈ es, p.1 = r.key := by
  obtain ⟨p, hp, heq⟩ := mem_filterMap.mp hr
  obtain ⟨value, _, rfl⟩ := Option.map_eq_some_iff.mp heq
  refine ⟨p, hp, ?_⟩
  cases value with
  | none | some data => rfl

/-- A page adds to `out` the records of the first keys of a list, up to the end of the
list or up to a key after which the export resumes. -/
def PageOf (startTS endTS : Timestamp) (es : List (Key × KeyHistory)) (out : List ExportedRecord)
    (page : ExportResult) : Prop :=
  ∃ done rest, es = done ++ rest ∧ page.records = out ++ exportedRecords startTS endTS done ∧
    ((page.resume = none ∧ rest = []) ∨ ∃ init p, done = init ++ [p] ∧ page.resume = some p.1.next)

section Pages
variable {startTS endTS : Timestamp} {max : Nat} {es : List (Key × KeyHistory)}

theorem PageOf.nil (out : List ExportedRecord) : PageOf startTS endTS [] out ⟨out, none⟩ :=
  ⟨[], [], rfl, (append_nil out).symm, .inl ⟨rfl, rfl⟩⟩

theorem PageOf.append {out out' : List ExportedRecord} {page : ExportResult}
    (front : List (Key × KeyHistory)) (hpage : PageOf startTS endTS es out' page)
    (hout : out' = out ++ exportedRecords startTS endTS front) :
    PageOf startTS endTS (front ++ es) out page := by
  obtain ⟨done, rest, hes, hrec, hend⟩ := hpage
  refine ⟨front ++ done, rest, by rw [hes, append_assoc], ?_, ?_⟩
  · rw [hrec, hout, append_assoc, ← exportedRecords_append]
  rcases hend with hend | ⟨init, q, hdone, hresume⟩
  · exact .inl hend
  · exact .inr ⟨front ++ init, q, by rw [hdone, append_assoc], hresume⟩

theorem exportLoop_page (startTS : Timestamp)
    (hclean : ∀ p ∈ es, exportConflict endTS p.1 p.2 = none) (records : List ExportedRecord)
    (hroom : max = 0 ∨ records.length < max) :
    ∃ page, exportLoop startTS endTS max es records [] = .ok page ∧
      PageOf startTS endTS es records page ∧
      (page.resume = none → max = 0 ∨ page.records.length < max) := by
  induction es generalizing records with
  | nil => exact ⟨⟨records, none⟩, if_pos rfl, PageOf.nil records, fun _ => hroom⟩
  | cons p es ih =>
    obtain ⟨cur, h⟩ := p
    have hrest : ∀ q ∈ es, exportConflict endTS q.1 q.2 = none :=
      fun q hq => hclean q (mem_cons_of_mem _ hq)
    unfold exportLoop
    rw [hclean (cur, h) mem_cons_self]
    cases hv : exportVersion startTS endTS h with
    | none =>
      obtain ⟨page, hpage, hof, hshort⟩ := ih hrest records hroom
      refine ⟨page, hpage, PageOf.append [(cur, h)] hof ?_, hshort⟩
      simp [exportedRecords, hv]
    | some value =>
      have hone : exportedRecords startTS endTS [(cur, h)] = [exportRecord cur value] := by
        simp [exportedRecords, hv]
      dsimp only
      rw [if_pos rfl]
      split
      · rename_i hfull
        refine ⟨_, rfl, ⟨[(cur, h)], es, rfl, by rw [hone], .inr ⟨[], (cur, h), rfl, rfl⟩⟩, ?_⟩
        simp
      · rename_i hmore
        have hroom' : max = 0 ∨ (records ++ [exportRecord cur value]).length < max := by
          rw [length_append, length_singleton] at hmore ⊢
          omega
        obtain ⟨page, hpage, hof, hshort⟩ := ih hrest _ hroom'
        exact ⟨page, hpage, PageOf.append [(cur, h)] hof (by rw [hone]), hshort⟩

end Pages

section Spans
variable {e : Engine} {start stop mid : Key}

theorem Engine.span_sorted (e : Engine) (start stop : Key) :
    (e.span start stop).Pairwise fun a b => a.1 < b.1 := e.sorted.sublist filter_sublist

theorem mem_span {p : Key × KeyHistory} :
    p ∈ e.span start stop ↔ p ∈ e.entries ∧ start ≤ p.1 ∧ p.1 < stop := by
  rw [Engine.span, mem_filter, decide_eq_true_iff]

theorem eq_of_sorted_keys {es es' : List (Key × KeyHistory)}
    (hes : es.Pairwise fun a b => a.1 < b.1) (hes' : es'.Pairwise fun a b => a.1 < b.1)
    (hmem : ∀ p, p ∈ es ↔ p ∈ es') : es = es' := by
  have hnodup : ∀ {l : List (Key × KeyHistory)}, l.Pairwise (fun a b => a.1 < b.1) → l.Nodup := by
    intro l hl
    refine hl.imp ?_
    intro a b hab heq
    rw [heq] at hab
    exact lt_irrefl _ hab
  have hperm : es.Perm es' := (perm_ext_iff_of_nodup (hnodup hes) (hnodup hes')).mpr hmem
  refine hperm.eq_of_pairwise ?_ hes hes'
  intro a b _ _ hab hba
  exact absurd hab hba.asymm

theorem span_key_cases (e : Engine) (start stop k : Key) :
    (∃ p ∈ e.span start stop, p.1 = k ∧ (start ≤ p.1 ∧ p.1 < stop) ∧ e.history p.1 = p.2) ∨
      ((∀ p ∈ e.span start stop, p.1 ≠ k) ∧
        (start ≤ k ∧ k < stop → e.history k = KeyHistory.empty)) := by
  by_cases hmem : ∃ p ∈ e.span start stop, p.1 = k
  · obtain ⟨p, hp, hk⟩ := hmem
    obtain ⟨hentry, hspan⟩ := mem_span.mp hp
    exact .inl ⟨p, hp, hk, hspan, Engine.history_of_mem hentry⟩
  · push Not at hmem
    refine .inr ⟨hmem, fun hspan => Engine.history_of_notMem ?_⟩
    rintro p hp rfl
    exact hmem p (mem_span.mpr ⟨hp, hspan⟩) rfl

theorem span_eq_nil (h : ¬ start < stop) : e.span start stop = [] := by
  rw [Engine.span, filter_eq_nil_iff]
  intro p _ hp
  have hp := of_decide_eq_true hp
  exact h (hp.1.trans_lt hp.2)

theorem span_append (e : Engine) (hmid : start ≤ mid) (hstop : mid ≤ stop) :
    e.span start stop = e.span start mid ++ e.span mid stop := by
  refine eq_of_sorted_keys (e.span_sorted start stop) ?_ ?_
  · rw [pairwise_append]
    refine ⟨e.span_sorted start mid, e.span_sorted mid stop, ?_⟩
    intro a ha b hb
    exact (mem_span.mp ha).2.2.trans_le (mem_span.mp hb).2.1
  · intro p
    rw [mem_append, mem_span, mem_span, mem_span]
    constructor
    · rintro ⟨hp, hlow, hhigh⟩
      rcases lt_or_ge p.1 mid with hlt | hge
      · exact .inl ⟨hp, hlow, hlt⟩
      · exact .inr ⟨hp, hge, hhigh⟩
    · rintro (⟨hp, hlow, hhigh⟩ | ⟨hp, hlow, hhigh⟩)
      · exact ⟨hp, hlow, hhigh.trans_le hstop⟩
      · exact ⟨hp, hmid.trans hlow, hhigh⟩

theorem span_after {init rest : List (Key × KeyHistory)} {p : Key × KeyHistory}
    (hsplit : e.span start stop = init ++ [p] ++ rest) : rest = e.span p.1.next stop := by
  have hsorted := e.span_sorted start stop
  rw [hsplit, pairwise_append] at hsorted
  obtain ⟨hdone, hrest, hcross⟩ := hsorted
  refine eq_of_sorted_keys hrest (e.span_sorted _ _) ?_
  intro q
  rw [mem_span]
  have hall : q ∈ e.span start stop ↔ q ∈ init ++ [p] ∨ q ∈ rest := by rw [hsplit, mem_append]
  constructor
  · intro hq
    obtain ⟨hmem, _, hstop⟩ := mem_span.mp (hall.mpr (.inr hq))
    have hlt : p.1 < q.1 := hcross p (mem_append_right _ mem_cons_self) q hq
    exact ⟨hmem, not_lt.mp (Key.not_lt_next_of_lt hlt), hstop⟩
  · rintro ⟨hmem, hnext, hstop⟩
    have hlt : p.1 < q.1 := (Key.lt_next p.1).trans_le hnext
    have hp : p ∈ e.span start stop := by
      rw [hsplit]
      exact mem_append_left _ (mem_append_right _ mem_cons_self)
    rcases hall.mp (mem_span.mpr ⟨hmem, (mem_span.mp hp).2.1.trans hlt.le, hstop⟩) with hq | hq
    · rw [pairwise_append] at hdone
      rcases mem_append.mp hq with hq | hq
      · exact absurd (hdone.2.2 q hq p mem_cons_self) hlt.asymm
      · rw [mem_singleton.mp hq] at hlt
        exact absurd hlt (lt_irrefl _)
    · exact hq

end Spans

end Datax
