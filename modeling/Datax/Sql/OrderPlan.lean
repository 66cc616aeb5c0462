import Datax.Sql.FanOrder

/-!
# ORDER BY satisfied by the plan

`orderPlan` decides from the plan alone whether rows come in the requested order: past the
pinned columns, the terms must be the scan's columns in sequence, all in one direction. Two
spellings of one interval have different codes, so the columns after it come in order only among
rows that spell it alike.
-/

namespace Datax

open List PrefixCode Encoding

inductive NullsOrder where
  | unspecified | first | last
deriving DecidableEq, Repr

structure OrderCol where
  column : String
  desc : Bool := false
  nulls : NullsOrder := .unspecified
  -- An expression, an aggregate or a position stands for the column.
  expr : Bool := false
  agg : Bool := false
  position : Nat := 0

def OrderCol.computed (oc : OrderCol) : Bool := oc.expr || oc.agg || decide (0 < oc.position)

/-- The key order puts nulls the other way. -/
def OrderCol.nullsAgainst (oc : OrderCol) : Bool :=
  oc.nulls != .unspecified && (oc.nulls == .first) != oc.desc

structure OrderDecision where
  satisfied : Bool := false
  mergeFan : Bool := false
  reverse : Bool := false
deriving DecidableEq, Repr

section Decide
variable (desc : TableDescriptor)

/-- Follow the terms along the scan's columns; the answer is the direction, if any term has one. -/
def follow (pinned : List ColumnID) :
    Option Bool → List ColumnID → List OrderCol → Option (Option Bool)
  | dir, _, [] => some dir
  | dir, rest, oc :: order =>
    match desc.col oc.column with
    | none => none
    | some col =>
      if pinned.contains col.id then follow pinned dir rest order
      else if dir = some (!oc.desc) then none
      else
        match rest with
        | [] => none
        | c :: rest' => if c = col.id then follow pinned (some oc.desc) rest' order else none

def orderPlan (plan : AccessPlan) (order : List OrderCol) (reverseOK : Bool) : OrderDecision :=
  if order.isEmpty then { satisfied := true }
  else if order.any fun oc => oc.computed || oc.nullsAgainst then {}
  else if plan.kind = .uniquePoint then { satisfied := true }
  else
    let natural := plan.natural desc
    let pinned := natural.take plan.idxVals.length
    match follow desc pinned none (natural.drop pinned.dedup.length) order with
    | none => {}
    | some none => { satisfied := true }
    | some (some dir) =>
      if dir && !reverseOK then {}
      else
        { satisfied := true, reverse := dir
          mergeFan := decide (plan.kind = .pkScan ∧ 0 < plan.fanBuckets) }

def AccessPlan.stamp (plan : AccessPlan) (d : OrderDecision) : AccessPlan :=
  { plan with reverse := d.reverse, mergeFan := d.mergeFan }

end Decide

section Order
variable (convert : Datum → Family → Option Datum) (desc : TableDescriptor)

/-- The terms compared left to right put the first row before the second or level with it. -/
def inOrder : List OrderCol → Row → Row → Bool
  | [], _, _ => true
  | oc :: order, r, r' =>
    match desc.col oc.column with
    | none => false
    | some col =>
      match (r col.id).compare convert (r' col.id) with
      | .ok .lt => !oc.desc
      | .ok .gt => oc.desc
      | .ok .eq => inOrder order r r'
      | .error _ => false

/-- Fewer months, or as many months and fewer days. -/
def Interval.spelledBefore (a b : Interval) : Bool :=
  decide (a.months.toInt < b.months.toInt ∨ a.months = b.months ∧ a.days.toInt < b.days.toInt)

/-- Intervals of one length, the first spelled so that the scan meets it first. -/
def respelled (reverse : Bool) : Datum → Datum → Bool
  | .scalar (.interval a), .scalar (.interval b) =>
    a.cmpValue == b.cmpValue && if reverse then b.spelledBefore a else a.spelledBefore b
  | _, _ => false

/-- Where the rows first differ they do not hold two spellings of one interval, or the terms
after it are in order all the same. -/
def spellingsAgree : List OrderCol → Row → Row → Bool
  | [], _, _ => true
  | oc :: order, r, r' =>
    match desc.col oc.column with
    | none => true
    | some col =>
      if r col.id = r' col.id then spellingsAgree order r r'
      else if respelled oc.desc (r col.id) (r' col.id) then inOrder convert desc order r r'
      else true

end Order

/-! ### One column of two rows -/

variable {oc : OrderCol} {dir : Option Bool}

section Column
variable {convert : Datum → Family → Option Datum} {desc : TableDescriptor}

def Ahead (reverse : Bool) (x y : Key) : Prop := if reverse then y < x else x < y

structure Scanned (desc : TableDescriptor) (cols : List ColumnID) (r : Row) : Prop where
  conforms : r.Conforms desc
  keyed : ∀ id ∈ cols, Keyed desc r id

theorem spelledBefore_iff {a b : Interval} : a.spelledBefore b = true ↔
    encodeInt64 a.months ++ encodeInt64 a.days < encodeInt64 b.months ++ encodeInt64 b.days := by
  unfold Interval.spelledBefore
  rw [append_lt_append_iff (apart_encodeInt64 _ _), encodeInt64_lt_iff, encodeInt64_lt_iff,
    decide_eq_true_iff]
  constructor
  · rintro (h | ⟨h, hd⟩)
    · exact .inl h
    · exact .inr ⟨by rw [h], hd⟩
  · rintro (h | ⟨h, hd⟩)
    · exact .inl h
    · exact .inr ⟨encodeInt64_inj h, hd⟩

variable {col : Column}

/-- Equal sort codes and different spellings: only intervals have them. -/
theorem respelled_of_spelling_lt {a b : Scalar} (ha : col.Conforms (.scalar a))
    (hb : col.Conforms (.scalar b)) (hsort : a.sortCode = b.sortCode)
    (hlt : a.spelling < b.spelling) :
    respelled false (.scalar a) (.scalar b) = true ∧
      respelled true (.scalar b) (.scalar a) = true := by
  have hfam : a.fam = b.fam := ha.1.trans hb.1.symm
  cases a <;> cases b <;> cases hfam
  case interval.interval iv iv' =>
    have hcmp := encodeInt64_inj hsort
    have hbefore := spelledBefore_iff.mpr hlt
    unfold respelled
    simp only [hcmp, hbefore, beq_self_eq_true, Bool.and_self, if_true, Bool.false_eq_true,
      if_false, and_self]
  case enum.enum o l o' l' =>
    -- A label is named by its ordinal.
    have ho := encodeInt64_inj hsort
    have hl := ha.2 o l rfl
    have hl' := hb.2 o' l' rfl
    rw [ho] at hl
    cases hl.symm.trans hl'
    exact absurd hlt (lt_irrefl _)
  all_goals exact absurd hlt (lt_irrefl _)

variable {cols : List ColumnID} {r r' : Row} {id : ColumnID}

variable (convert) in
theorem compare_sortKey (hr : Scanned desc cols r) (hr' : Scanned desc cols r') (hid : id ∈ cols) :
    (sortKey r id < sortKey r' id → (r id).compare convert (r' id) = .ok .lt) ∧
      (sortKey r id = sortKey r' id → (r id).compare convert (r' id) = .ok .eq) ∧
      (sortKey r' id < sortKey r id → (r id).compare convert (r' id) = .ok .gt) := by
  rw [((hr.keyed id hid).compare convert (hr'.keyed id hid)).1]
  unfold cmp cmpUsing
  refine ⟨?_, ?_, ?_⟩
  · intro hlt
    rw [if_pos hlt]
  · intro heq
    rw [heq, if_neg (lt_irrefl _), if_neg (lt_irrefl _)]
  · intro hgt
    rw [if_neg hgt.not_gt, if_pos hgt]

variable {reverse : Bool}

theorem ahead_cases (hr : Scanned desc cols r) (hr' : Scanned desc cols r') (hid : id ∈ cols)
    (h : Ahead reverse (code r id) (code r' id)) :
    r id ≠ r' id ∧ respelled reverse (r' id) (r id) = false ∧
      (Ahead reverse (sortKey r id) (sortKey r' id) ∨
        sortKey r id = sortKey r' id ∧ respelled reverse (r id) (r' id) = true) := by
  have hne : r id ≠ r' id := by
    intro heq
    have hcode : code r id = code r' id := by
      unfold code
      rw [heq]
    unfold Ahead at h
    rw [hcode] at h
    split at h <;> exact lt_irrefl _ h
  obtain ⟨col, v, hcol, hv, hfam, hcode⟩ := (hr.keyed id hid).value
  obtain ⟨col', v', hcol', hv', hfam', hcode'⟩ := (hr'.keyed id hid).value
  cases hcol.symm.trans hcol'
  have hconf := hr.conforms id col hcol
  have hconf' := hr'.conforms id col hcol
  rw [hv] at hconf
  rw [hv'] at hconf'
  obtain ⟨_, hapart, _⟩ := (hr.keyed id hid).compare (fun _ _ => none) (hr'.keyed id hid)
  simp only [sortKey, hv, hv'] at hapart ⊢
  rw [Scalar.keyCode_eq hcode, Scalar.keyCode_eq hcode'] at h
  -- The spelling that is met second is not the one that would be met first.
  have hlater : respelled reverse (.scalar v') (.scalar v) = true → False := by
    intro hresp
    unfold respelled at hresp
    split at hresp
    · rename_i iv iv' hiv hiv'
      obtain ⟨hcmp, hbefore⟩ := Bool.and_eq_true_iff.mp hresp
      cases Datum.scalar.inj hiv
      cases Datum.scalar.inj hiv'
      have hsame : iv'.cmpValue = iv.cmpValue := (beq_iff_eq.mp hcmp).symm
      simp only [Scalar.sortCode, Scalar.spelling, hsame] at h
      cases reverse with
      | true | false =>
        exact lt_asymm ((append_lt_append_left_iff _ _ _).mp h) (spelledBefore_iff.mp hbefore)
    · cases hresp
  refine ⟨hv ▸ hv' ▸ hne, (Bool.not_eq_true _).mp hlater, ?_⟩
  cases reverse with
  | false =>
    rcases (append_lt_append_iff hapart _ _).mp h with hlt | ⟨heq, hlt⟩
    · exact .inl hlt
    · exact .inr ⟨heq, (respelled_of_spelling_lt hconf hconf' heq hlt).1⟩
  | true =>
    rcases (append_lt_append_iff hapart.symm _ _).mp h with hlt | ⟨heq, hlt⟩
    · exact .inl hlt
    · exact .inr ⟨heq.symm, (respelled_of_spelling_lt hconf' hconf heq hlt).2⟩

theorem sortKey_eq_of_respelled (h : respelled reverse (r id) (r' id) = true) :
    sortKey r id = sortKey r' id := by
  unfold respelled at h
  unfold sortKey
  split at h
  · rename_i iv iv' hiv hiv'
    rw [hiv, hiv']
    have hcmp : iv.cmpValue = iv'.cmpValue := beq_iff_eq.mp (Bool.and_eq_true_iff.mp h).1
    simp only [Scalar.sortCode, hcmp]
  · cases h

variable {x y : Key}

theorem Ahead.ne (h : Ahead reverse x y) : x ≠ y := by
  unfold Ahead at h
  split at h
  · exact h.ne'
  · exact h.ne

theorem Ahead.trans {z : Key} (h : Ahead reverse x y) (h' : Ahead reverse y z) :
    Ahead reverse x z := by
  unfold Ahead at *
  cases reverse with
  | true => exact h'.trans h
  | false => exact h.trans h'

/-! ### The terms of two rows -/

variable (convert) in
theorem inOrder_cons (hr : Scanned desc cols r) (hr' : Scanned desc cols r') (order : List OrderCol)
    (hcol : desc.col oc.column = some col) (hid : col.id ∈ cols) :
    inOrder convert desc (oc :: order) r r' = true ↔
      Ahead oc.desc (sortKey r col.id) (sortKey r' col.id) ∨
        sortKey r col.id = sortKey r' col.id ∧ inOrder convert desc order r r' = true := by
  rw [inOrder, hcol]
  simp only
  obtain ⟨hclt, hceq, hcgt⟩ := compare_sortKey convert hr hr' hid
  unfold Ahead
  rcases lt_trichotomy (sortKey r col.id) (sortKey r' col.id) with hlt | heq | hgt
  · rw [hclt hlt]
    cases oc.desc with
    | false => simp only [Bool.not_false, Bool.false_eq_true, if_false, hlt, true_or]
    | true =>
      simp only [Bool.not_true, Bool.false_eq_true, if_true, hlt.not_gt, hlt.ne, false_and,
        or_self]
  · rw [hceq heq, heq]
    simp only [lt_irrefl, ite_self, true_and, false_or]
  · rw [hcgt hgt]
    cases oc.desc with
    | false => simp only [Bool.false_eq_true, if_false, hgt.not_gt, hgt.ne', false_and, or_self]
    | true => simp only [if_true, hgt, true_or]

variable {order : List OrderCol}

theorem inOrder_trans {r'' : Row} (hr : Scanned desc cols r) (hr' : Scanned desc cols r')
    (hr'' : Scanned desc cols r'')
    (hcols : ∀ oc ∈ order, ∃ col, desc.col oc.column = some col ∧ col.id ∈ cols)
    (h : inOrder convert desc order r r' = true) (h' : inOrder convert desc order r' r'' = true) :
    inOrder convert desc order r r'' = true := by
  induction order with
  | nil => rfl
  | cons oc order ih =>
    obtain ⟨col, hcol, hid⟩ := hcols oc mem_cons_self
    rw [inOrder_cons convert hr hr' order hcol hid] at h
    rw [inOrder_cons convert hr' hr'' order hcol hid] at h'
    rw [inOrder_cons convert hr hr'' order hcol hid]
    rcases h with hlt | ⟨heq, h⟩
    · rcases h' with hlt' | ⟨heq', _⟩
      · exact .inl (hlt.trans hlt')
      · exact .inl (heq' ▸ hlt)
    · rcases h' with hlt' | ⟨heq', h'⟩
      · exact .inl (heq ▸ hlt')
      · exact .inr ⟨heq.trans heq', ih (fun oc hoc => hcols oc (mem_cons_of_mem _ hoc)) h h'⟩

theorem spellingsAgree_self (order : List OrderCol) (r : Row) :
    spellingsAgree convert desc order r r = true := by
  induction order with
  | nil => rfl
  | cons oc order ih =>
    rw [spellingsAgree]
    cases desc.col oc.column with
    | none => rfl
    | some col =>
      simp only [if_true]
      exact ih

/-! ### The terms the plan follows -/

variable {pinned rest : List ColumnID} {out : Option Bool}

theorem follow_mem (h : follow desc pinned dir rest order = some out) (hpinned : pinned ⊆ cols)
    (hrest : rest ⊆ cols) :
    ∀ oc ∈ order, ∃ col, desc.col oc.column = some col ∧ col.id ∈ cols := by
  induction order generalizing dir rest with
  | nil =>
    simp
  | cons first order ih =>
    rw [follow] at h
    split at h
    · cases h
    rename_i col hcol
    split at h
    · rename_i hpin
      exact forall_mem_cons.mpr ⟨⟨col, hcol, hpinned (contains_iff_mem.mp hpin)⟩, ih h hrest⟩
    · split_ifs at h
      split at h
      · cases h
      rename_i c rest'
      split_ifs at h with hc
      exact forall_mem_cons.mpr ⟨⟨col, hcol, hrest (hc ▸ mem_cons_self)⟩,
        ih h (fun id hid => hrest (mem_cons_of_mem _ hid))⟩

theorem follow_dir {d : Bool} (h : follow desc pinned (some d) rest order = some out) :
    out = some d := by
  induction order generalizing rest with
  | nil => exact (Option.some.inj h).symm
  | cons oc order ih =>
    rw [follow] at h
    split at h
    · cases h
    split at h
    · exact ih h
    split_ifs at h with hdir
    split at h
    · cases h
    split_ifs at h
    have hd : oc.desc = d := by
      cases hoc : oc.desc <;> cases d <;> rw [hoc] at hdir <;> simp_all
    rw [hd] at h
    exact ih h

def NotBehind (reverse : Bool) (x y : List Key) : Prop := if reverse then y ≤ x else x ≤ y

theorem NotBehind.cons {xs ys : List Key} (h : NotBehind reverse (x :: xs) (y :: ys)) :
    Ahead reverse x y ∨ x = y ∧ NotBehind reverse xs ys := by
  cases reverse with
  | true =>
    rcases cons_le_cons_iff.mp h with hlt | ⟨heq, hle⟩
    · exact .inl hlt
    · exact .inr ⟨heq.symm, hle⟩
  | false => exact cons_le_cons_iff.mp h

variable (convert) in
theorem terms_of_eq (hr : Scanned desc cols r) (hr' : Scanned desc cols r') (order : List OrderCol)
    (hcol : desc.col oc.column = some col) (hid : col.id ∈ cols) (heq : r col.id = r' col.id) :
    inOrder convert desc (oc :: order) r r' = inOrder convert desc order r r' ∧
      spellingsAgree convert desc (oc :: order) r r' = spellingsAgree convert desc order r r' ∧
      spellingsAgree convert desc (oc :: order) r' r = spellingsAgree convert desc order r' r := by
  have hsort : sortKey r col.id = sortKey r' col.id := by simp only [sortKey, heq]
  refine ⟨?_, ?_, ?_⟩
  · rw [inOrder, hcol]
    simp only
    rw [(compare_sortKey convert hr hr' hid).2.1 hsort]
  · rw [spellingsAgree, hcol]
    simp only [heq, if_true]
  · rw [spellingsAgree, hcol]
    simp only [heq, if_true]

/-- Of two rows of a scan, the one met first is in order exactly when the spellings agree, and
the one met second never disagrees. -/
theorem inOrder_eq_spellingsAgree (hr : Scanned desc cols r) (hr' : Scanned desc cols r')
    (h : follow desc pinned dir rest order = some out) (hpinned : pinned ⊆ cols)
    (hrest : rest ⊆ cols) (hsame : ∀ id ∈ pinned, r id = r' id)
    (hmet : ∀ d, out = some d → NotBehind d (rest.map (code r)) (rest.map (code r'))) :
    inOrder convert desc order r r' = spellingsAgree convert desc order r r' ∧
      spellingsAgree convert desc order r' r = true := by
  induction order generalizing dir rest with
  | nil => exact ⟨rfl, rfl⟩
  | cons oc order ih =>
    rw [follow] at h
    split at h
    · cases h
    rename_i col hcol
    split at h
    · rename_i hpin
      have hin := contains_iff_mem.mp hpin
      obtain ⟨h₁, h₂, h₃⟩ := terms_of_eq convert hr hr' order hcol (hpinned hin) (hsame _ hin)
      rw [h₁, h₂, h₃]
      exact ih h hrest hmet
    · split_ifs at h
      split at h
      · cases h
      rename_i c rest'
      split_ifs at h with hc
      subst hc
      have hid := hrest mem_cons_self
      have hdir := follow_dir h
      rcases (hmet _ hdir).cons with hahead | ⟨heq, hlater⟩
      · obtain ⟨hne, hback, hvalue⟩ := ahead_cases hr hr' hid hahead
        have hlast : spellingsAgree convert desc (oc :: order) r' r = true := by
          rw [spellingsAgree, hcol]
          simp only [hne.symm, hback, Bool.false_eq_true, if_false]
        refine ⟨?_, hlast⟩
        rcases hvalue with hlt | ⟨heq, hresp⟩
        · have hin := (inOrder_cons convert hr hr' order hcol hid).mpr (.inl hlt)
          have hresp : respelled oc.desc (r col.id) (r' col.id) = false := by
            rw [← Bool.not_eq_true]
            intro hresp
            exact hlt.ne (sortKey_eq_of_respelled hresp)
          rw [hin, spellingsAgree, hcol]
          simp only [hne, hresp, Bool.false_eq_true, if_false]
        · rw [inOrder, spellingsAgree, hcol]
          simp only [hne, hresp, if_true, if_false]
          rw [(compare_sortKey convert hr hr' hid).2.1 heq]
      · have hval := row_eq_of_code_eq (hr.keyed _ hid) (hr'.keyed _ hid) heq
        obtain ⟨h₁, h₂, h₃⟩ := terms_of_eq convert hr hr' order hcol hid hval
        rw [h₁, h₂, h₃]
        refine ih h (fun id hin => hrest (mem_cons_of_mem _ hin)) ?_
        intro d hd
        cases hdir.symm.trans hd
        exact hlater

end Column

end Datax
