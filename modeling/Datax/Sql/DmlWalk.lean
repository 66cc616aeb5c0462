import Datax.Sql.DmlChain

/-!
# The recursion carries out the forced changes

Where different chains change different rows, no fetch of the recursion meets a row that is
already in flight: it sees the rows as they were before the statement, all of them, and
carries out exactly the changes the chains lead to.
-/

namespace Datax.Dml

open List Fallible

variable {V : Type} [DecidableEq V] {env : Env V} {own : List (Change V)}

/-- The changes logged below a change: each forced by the change or by another one below it,
checked, and seen to. -/
structure Below (env : Env V) (total : Log V) (p : List (Step V)) (ch : Change V) (more : Log V) :
    Prop where
  under : ∀ e ∈ more, p <+: e.1 ∧ p ≠ e.1
  checked : ∀ e ∈ more, Checked env [] e.2
  settled : ∀ e ∈ more, Settled env total e.1 e.2
  parent : ∀ e ∈ more, ∃ q c step, e.1 = q ++ [step] ∧ ((q, c) = (p, ch) ∨ (q, c) ∈ more) ∧
    Forces env c step e.2

/-- What a recursion does for a change that a chain leads to. -/
def Walks (env : Env V) (own : List (Change V)) (again : Enforcer V) : Prop :=
  ∀ p ch fr st st' log, Chain env own p ch → ch.old = some fr → Logged env own st log →
    (∀ e ∈ log, ¬ p <+: e.1) →
    again ch.table fr.2 ch.new st = .ok st' →
    ∃ more, Logged env own st' (log ++ more) ∧ Below env (log ++ more) p ch more ∧
      Settled env (log ++ more) p ch

variable {more : Log V} {p : List (Step V)} {total : Log V} {ch : Change V}

theorem Below.append {total' more' : Log V} (hsub : total ⊆ total') (h : Below env total p ch more)
    (h' : Below env total' p ch more') : Below env total' p ch (more ++ more') where
  under := forall_mem_append.mpr ⟨h.under, h'.under⟩
  checked := forall_mem_append.mpr ⟨h.checked, h'.checked⟩
  settled := forall_mem_append.mpr ⟨fun e he => (h.settled e he).mono hsub, h'.settled⟩
  parent := by
    intro e he
    rcases mem_append.mp he with he | he
    · obtain ⟨q, c, step, heq, hin, hforce⟩ := h.parent e he
      exact ⟨q, c, step, heq, hin.imp_right (mem_append_left _), hforce⟩
    · obtain ⟨q, c, step, heq, hin, hforce⟩ := h'.parent e he
      exact ⟨q, c, step, heq, hin.imp_right (mem_append_right _), hforce⟩

theorem Below.nil (total : Log V) (p : List (Step V)) (ch : Change V) :
    Below env total p ch [] := by
  constructor <;> intro e he <;> cases he

variable {step : Step V}

theorem Below.under_of_mem (h : Below env total p ch more) : ∀ e ∈ more ++ [(p, ch)], p <+: e.1 :=
  forall_mem_append.mpr ⟨fun e he => (h.under e he).1, forall_mem_singleton.mpr prefix_rfl⟩

variable {ch' : Change V}

theorem Below.lift (hforce : Forces env ch step ch') (hchecked : Checked env [] ch')
    (hsettled : Settled env total (p ++ [step]) ch') (h : Below env total (p ++ [step]) ch' more) :
    Below env total p ch (more ++ [(p ++ [step], ch')]) where
  under := by
    intro e he
    obtain ⟨rest, hrest⟩ := h.under_of_mem e he
    rw [← hrest, append_assoc]
    refine ⟨prefix_append p _, ?_⟩
    intro heq
    exact cons_ne_nil _ _ (append_right_eq_self.mp heq.symm)
  checked := forall_mem_append.mpr ⟨h.checked, forall_mem_singleton.mpr hchecked⟩
  settled := forall_mem_append.mpr ⟨h.settled, forall_mem_singleton.mpr hsettled⟩
  parent := by
    intro e he
    rcases mem_append.mp he with he | he
    · obtain ⟨q, c, step', heq, hin, hforce'⟩ := h.parent e he
      refine ⟨q, c, step', heq, .inr ?_, hforce'⟩
      rcases hin with hin | hin
      · rw [hin]
        exact mem_append_right _ mem_cons_self
      · exact mem_append_left _ hin
    · rw [mem_singleton.mp he]
      exact ⟨p, ch, step, rfl, .inl rfl, hforce⟩

/-! ### Fetched rows are not in flight -/

variable {i : Nat} {child : Table V} {fk : ForeignKey} {fr' : Fetched V}

section Fetch
variable {p : List (Step V)} {ch : Change V} {fr : Fetched V} {st st' : Cascade V} {log : Log V}

def Avoids (log : Log V) (p : List (Step V)) (step : Step V) : Prop :=
  ∀ e ∈ log, ¬ p ++ [step] <+: e.1

theorem forces_of_matching (htouch : Touches env ch i fr child fk)
    (haction : fkAction fk ch.new ≠ .restrict)
    (hfr' : fr' ∈ matching env child fk.columns (Row.at fr.2 fk.refColumns)) :
    Forces env ch (i, fr'.1) (forced ch child fk fr') :=
  ⟨fr, child, fk, fr', htouch, haction, hfr', rfl, rfl⟩

theorem current_of_avoids (hapart : Apart env own) (hchain : Chain env own p ch)
    (hlog : Logged env own st log) (htouch : Touches env ch i fr child fk)
    (haction : fkAction fk ch.new ≠ .restrict) (hfr' : fr' ∈ matching env child fk.columns
      (Row.at fr.2 fk.refColumns)) (havoid : Avoids log p (i, fr'.1)) :
    st.current child.id fr' = some fr' := by
  have hforce := forces_of_matching htouch haction hfr'
  have hnone : st.inflight (child.id, fr'.1) = none := by
    rw [← Option.not_isSome_iff_eq_none]
    intro hsome
    obtain ⟨e, he, hk⟩ := hlog.inflight _ hsome
    have hne : p ++ [(i, fr'.1)] ≠ e.1 := fun heq => havoid e he (heq ▸ prefix_rfl)
    exact hapart _ _ _ _ (.force hchain hforce) (hlog.chains e he) hne _ mem_cons_self hk
  unfold Cascade.current
  rw [hnone]

theorem Touches.unique {child' : Table V} {fk' : ForeignKey} (h : Touches env ch i fr child fk)
    (h' : Touches env ch i fr' child' fk') : fr = fr' ∧ child = child' ∧ fk = fk' := by
  obtain ⟨ref, href, hchild, hfk⟩ := h.ref
  obtain ⟨ref', href', hchild', hfk'⟩ := h'.ref
  cases href.symm.trans href'
  cases hchild.symm.trans hchild'
  cases hfk.symm.trans hfk'
  cases h.old.symm.trans h'.old
  exact ⟨rfl, rfl, rfl⟩

theorem Forces.at (h : Forces env ch step ch') (htouch : Touches env ch step.1 fr child fk) :
    fkAction fk ch.new ≠ .restrict ∧
      ∃ fr' ∈ matching env child fk.columns (Row.at fr.2 fk.refColumns), fr'.1 = step.2 ∧
        ch' = forced ch child fk fr' := by
  obtain ⟨fr₁, child₁, fk₁, fr', htouch₁, haction, hfr', hkey, rfl⟩ := h
  obtain ⟨rfl, rfl, rfl⟩ := htouch.unique htouch₁
  exact ⟨haction, fr', hfr', hkey, rfl⟩

end Fetch

/-! ### The loops -/

variable {st : Cascade V} {log : Log V}

theorem Logged.setBudget (h : Logged env own st log) (b : Nat) :
    Logged env own { st with budget := b } log :=
  ⟨h.chains, h.rows, h.entries, h.inflight⟩

omit [DecidableEq V] in
theorem step_eq_of_under {q : List (Step V)} {step' : Step V} (h : p ++ [step] <+: q)
    (h' : p ++ [step'] <+: q) :
    step = step' := by
  have heq := prefix_of_prefix_length_le h h'
    (by simp only [length_append, length_singleton, le_refl])
  have hlen : (p ++ [step]).length = (p ++ [step']).length := by
    simp only [length_append, length_singleton]
  exact singleton_injective (append_cancel_left (heq.eq_of_length hlen))

variable {st' : Cascade V} {k : Nat}

section Loops
variable {again : Enforcer V} {p : List (Step V)} {ch : Change V} {fr : Fetched V}

theorem walk_rows (hagain : Walks env own again) (hchain : Chain env own p ch)
    (htouch : Touches env ch i fr child fk) (haction : fkAction fk ch.new ≠ .restrict)
    {rows : List (Fetched V)}
    (hrows : ∀ r ∈ rows, r ∈ matching env child fk.columns (Row.at fr.2 fk.refColumns))
    (hnodup : (rows.map Prod.fst).Nodup) (hlog : Logged env own st log)
    (havoid : ∀ r ∈ rows, Avoids log p (i, r.1))
    (h : rows.foldlM (enforceRow env again child fk (fkAction fk ch.new) ch.new) st = .ok st') :
    ∃ more, Logged env own st' (log ++ more) ∧ Below env (log ++ more) p ch more ∧
      (∀ r ∈ rows, (p ++ [(i, r.1)], forced ch child fk r) ∈ more) ∧
      ∀ e ∈ more, ∃ r ∈ rows, p ++ [(i, r.1)] <+: e.1 := by
  induction rows generalizing st log with
  | nil =>
    cases h
    exact ⟨[], by rwa [append_nil], Below.nil _ _ _, forall_mem_nil _, forall_mem_nil _⟩
  | cons r rows ih =>
    obtain ⟨st₁, hrow, hrest⟩ := foldlM_cons_eq_ok h
    have hr := hrows r mem_cons_self
    have hforce := forces_of_matching htouch haction hr
    obtain ⟨ref, _, hchild, _⟩ := htouch.ref
    obtain ⟨hchecked, st₀, hst₀, hwb, hinflight⟩ :=
      enforceRow_ok (Schema.mem_of_table hchild).1 (mem_matching.mp hr).1 hrow
    obtain ⟨more₁, hlog₁, hbelow₁, hsettled₁⟩ :=
      hagain _ (forced ch child fk r) r st st₀ log (.force hchain hforce)
      rfl hlog (havoid r mem_cons_self) hst₀
    -- The row's own change comes after those it forces.
    let here : Log V := more₁ ++ [(p ++ [(i, r.1)], forced ch child fk r)]
    have hhere : Logged env own st₁ (log ++ here) := by
      rw [← append_assoc]
      refine hlog₁.append (forall_mem_singleton.mpr (.force hchain hforce)) ?_ ?_ ?_
      · intro w
        rw [hwb, WriteBatch.rows_append, mem_append]
        simp only [mem_singleton, exists_eq_left]
      · intro w
        rw [hwb, WriteBatch.entries_append, mem_append]
        simp only [mem_singleton, exists_eq_left]
      · intro k hk
        exact (hinflight k hk).imp_right fun hk => ⟨_, mem_singleton_self _, hk⟩
    have hsub : log ++ more₁ ⊆ log ++ here := by
      rw [← append_assoc]
      exact subset_append_left _ _
    have hbelow : Below env (log ++ here) p ch here :=
      Below.lift hforce hchecked (hsettled₁.mono hsub)
        { hbelow₁ with settled := fun e he => (hbelow₁.settled e he).mono hsub }
    have hunder : ∀ e ∈ here, p ++ [(i, r.1)] <+: e.1 := hbelow₁.under_of_mem
    obtain ⟨hnotin, hnodup⟩ := nodup_cons.mp hnodup
    have havoid' : ∀ r' ∈ rows, Avoids (log ++ here) p (i, r'.1) := by
      intro r' hr' e he hpre
      rcases mem_append.mp he with he | he
      · exact havoid r' (mem_cons_of_mem r hr') e he hpre
      · have hstep := step_eq_of_under (hunder e he) hpre
        exact hnotin (mem_map.mpr ⟨r', hr', (Prod.mk.inj hstep).2.symm⟩)
    obtain ⟨more₂, hlog₂, hbelow₂, hall, hback⟩ :=
      ih (fun r' hr' => hrows r' (mem_cons_of_mem r hr')) hnodup hhere havoid' hrest
    refine ⟨here ++ more₂, ?_⟩
    rw [← append_assoc]
    refine ⟨hlog₂, hbelow.append (subset_append_left _ _) hbelow₂, ?_, ?_⟩
    · refine forall_mem_cons.mpr ⟨?_, fun r' hr' => mem_append_right _ (hall r' hr')⟩
      exact mem_append_left _ (mem_append_right _ mem_cons_self)
    · intro e he
      rcases mem_append.mp he with he | he
      · exact ⟨r, mem_cons_self, hunder e he⟩
      · obtain ⟨r', hr', hpre⟩ := hback e he
        exact ⟨r', mem_cons_of_mem r hr', hpre⟩

/-- Seen to, as far as the first references of the table's list go. -/
structure SettledTo (env : Env V) (log : Log V) (p : List (Step V)) (ch : Change V) (k : Nat) :
    Prop where
  forces : ∀ step ch', step.1 < k → Forces env ch step ch' → (p ++ [step], ch') ∈ log
  blocks : ∀ i fr child fk, i < k → Touches env ch i fr child fk → fkAction fk ch.new = .restrict →
    matching env child fk.columns (Row.at fr.2 fk.refColumns) = [] ∨
      ∃ fr' ∈ matching env child fk.columns (Row.at fr.2 fk.refColumns), ∃ e ∈ log,
        (child.id, fr'.1) ∈ e.2.keys

/-- No row refers to the key given up, or one that does is in flight. -/
def Vacated (env : Env V) (log : Log V) (fr : Fetched V) (child : Table V) (fk : ForeignKey) :
    Prop :=
  matching env child fk.columns (Row.at fr.2 fk.refColumns) = [] ∨
    ∃ fr' ∈ matching env child fk.columns (Row.at fr.2 fk.refColumns), ∃ e ∈ log,
      (child.id, fr'.1) ∈ e.2.keys

theorem SettledTo.succ (hto : SettledTo env log p ch k)
    (hforces : ∀ pk ch', Forces env ch (k, pk) ch' → (p ++ [(k, pk)], ch') ∈ log ++ more)
    (hblocks : ∀ fr child fk, Touches env ch k fr child fk → fkAction fk ch.new = .restrict →
      Vacated env log fr child fk) : SettledTo env (log ++ more) p ch (k + 1) := by
  constructor
  · rintro ⟨i, pk⟩ ch' hlt hforce
    rcases Nat.lt_succ_iff_lt_or_eq.mp hlt with hlt | rfl
    · exact mem_append_left _ (hto.forces _ ch' hlt hforce)
    · exact hforces pk ch' hforce
  · intro i fr child fk hlt htouch haction
    have hin : Vacated env log fr child fk := by
      rcases Nat.lt_succ_iff_lt_or_eq.mp hlt with hlt | rfl
      · exact hto.blocks i fr child fk hlt htouch haction
      · exact hblocks fr child fk htouch haction
    exact hin.imp_right fun ⟨r, hr, e, he, hk⟩ => ⟨r, hr, e, mem_append_left _ he, hk⟩

theorem filterMap_eq_self {α : Type} {f : α → Option α} {l : List α} (h : ∀ a ∈ l, f a = some a) :
    l.filterMap f = l := by
  induction l with
  | nil => rfl
  | cons a l ih =>
    rw [filterMap_cons_some (h a mem_cons_self), ih fun b hb => h b (mem_cons_of_mem a hb)]

section
variable (hagain : Walks env own again) (hapart : Apart env own) (hchain : Chain env own p ch)
  (hold : ch.old = some fr)
include hagain hapart hchain hold

theorem walk_ref {ref : ForeignKeyRef} (href : ch.table.inboundFKs[k]? = some ref)
    (hlog : Logged env own st log) (hnew : ∀ pk, Avoids log p (k, pk))
    (hto : SettledTo env log p ch k) (h : enforceRef env again fr.2 ch.new st ref = .ok st') :
    ∃ more, Logged env own st' (log ++ more) ∧ Below env (log ++ more) p ch more ∧
      (∀ e ∈ more, ∃ pk, p ++ [(k, pk)] <+: e.1) ∧ SettledTo env (log ++ more) p ch (k + 1) := by
  have hstay (hforces : ∀ pk ch', ¬ Forces env ch (k, pk) ch')
      (hblocks : ∀ fr child fk, Touches env ch k fr child fk → fkAction fk ch.new = .restrict →
        Vacated env log fr child fk) (hst : st' = st) :
      ∃ more, Logged env own st' (log ++ more) ∧ Below env (log ++ more) p ch more ∧
        (∀ e ∈ more, ∃ pk, p ++ [(k, pk)] <+: e.1) ∧ SettledTo env (log ++ more) p ch (k + 1) := by
    refine ⟨[], ?_, Below.nil _ _ _, forall_mem_nil _, hto.succ ?_ hblocks⟩
    · rw [append_nil, hst]
      exact hlog
    · intro pk ch' hforce
      exact absurd hforce (hforces pk ch')
  rcases enforceRef_cases h with ⟨hst, hskip⟩
    | ⟨child, fk, live, hchild, hfk, hnull, hchanged, hlive, hcases⟩
  · -- The reference is stale, or its key is not given up.
    have hno : ∀ fr child fk, ¬ Touches env ch k fr child fk := by
      intro fr' child fk htouch
      obtain ⟨ref', href', hchild, hfk⟩ := htouch.ref
      cases href.symm.trans href'
      cases hold.symm.trans htouch.old
      rcases hskip child fk hchild hfk with hnull | hsame
      · exact Bool.noConfusion (hnull.symm.trans htouch.notNull)
      · exact Bool.noConfusion (hsame.symm.trans htouch.changed)
    refine hstay ?_ (fun fr' child fk htouch => absurd htouch (hno fr' child fk)) hst
    rintro pk ch' ⟨fr', child, fk, _, htouch, _⟩
    exact hno fr' child fk htouch
  have htouch : Touches env ch k fr child fk := ⟨hold, ⟨ref, href, hchild, hfk⟩, hnull, hchanged⟩
  by_cases haction : fkAction fk ch.new = .restrict
  · have hempty : live = [] ∧ st' = st := by
      rcases hcases with hempty | ⟨_, hne, _⟩
      · exact hempty
      · exact absurd haction hne
    refine hstay (fun pk ch' hforce => (hforce.at htouch).1 haction) ?_ hempty.2
    intro fr' child' fk' htouch' _
    obtain ⟨rfl, rfl, rfl⟩ := htouch.unique htouch'
    rw [hempty.1] at hlive
    unfold liveRows fetchLimit at hlive
    rw [if_pos haction] at hlive
    unfold Vacated
    cases hmatch : matching env child fk.columns (Row.at fr.2 fk.refColumns) with
    | nil => exact .inl rfl
    | cons r rows =>
      rw [hmatch, take_succ_cons, take_zero] at hlive
      refine .inr ⟨r, mem_cons_self, hlog.inflight _ ?_⟩
      cases hin : st.inflight (child.id, r.1) with
      | some f => rfl
      | none =>
        have hcur : st.current child.id r = some r := by
          unfold Cascade.current
          rw [hin]
        simp [filterMap_cons_some hcur] at hlive
  -- No row of the action is in flight, and the fetch sees them all.
  have hblocks : ∀ fr' child' fk', Touches env ch k fr' child' fk' →
      fkAction fk' ch.new = .restrict →
      Vacated env log fr' child' fk' := by
    intro fr' child' fk' htouch' haction'
    obtain ⟨rfl, rfl, rfl⟩ := htouch.unique htouch'
    exact absurd haction' haction
  have hcur : live =
      (matching env child fk.columns (Row.at fr.2 fk.refColumns)).take (st.budget + 1) := by
    rw [hlive]
    unfold liveRows fetchLimit
    rw [if_neg haction]
    refine filterMap_eq_self ?_
    intro r hr
    exact current_of_avoids hapart hchain hlog htouch haction (mem_of_mem_take hr) (hnew r.1)
  rcases hcases with ⟨hnil, hst⟩ | ⟨_, _, hlen, hfold⟩
  · refine hstay ?_ hblocks hst
    intro pk ch' hforce
    obtain ⟨_, r, hr, _⟩ := hforce.at htouch
    rw [hnil] at hcur
    simp [(take_eq_nil_iff.mp hcur.symm).resolve_left (Nat.succ_ne_zero _)] at hr
  have hall : live = matching env child fk.columns (Row.at fr.2 fk.refColumns) := by
    rw [hcur, length_take] at hlen
    rw [hcur]
    exact take_of_length_le (by omega)
  obtain ⟨more, hlog', hbelow, hlogged, hback⟩ := walk_rows hagain hchain htouch haction
    (fun r hr => hall ▸ hr) (hall ▸ matching_keys_nodup _ _ _) (hlog.setBudget _)
      (fun r _ => hnew r.1) hfold
  refine ⟨more, hlog', hbelow, ?_, hto.succ ?_ hblocks⟩
  · intro e he
    obtain ⟨r, _, hpre⟩ := hback e he
    exact ⟨r.1, hpre⟩
  · intro pk ch' hforce
    obtain ⟨_, r, hr, rfl, rfl⟩ := hforce.at htouch
    exact mem_append_right _ (hlogged r (hall ▸ hr))

theorem walk_refs {refs : List ForeignKeyRef} (hrefs : ch.table.inboundFKs.drop k = refs)
    (hlog : Logged env own st log) (hnew : ∀ i pk, k ≤ i → Avoids log p (i, pk))
    (hto : SettledTo env log p ch k)
    (h : refs.foldlM (enforceRef env again fr.2 ch.new) st = .ok st') :
    ∃ more, Logged env own st' (log ++ more) ∧ Below env (log ++ more) p ch more ∧
      Settled env (log ++ more) p ch := by
  induction refs generalizing k st log with
  | nil =>
    cases h
    have hlen : ch.table.inboundFKs.length ≤ k := drop_eq_nil_iff.mp hrefs
    have hlt : ∀ i fr' child fk, Touches env ch i fr' child fk → i < k := by
      intro i fr' child fk htouch
      obtain ⟨ref, href, _⟩ := htouch.ref
      obtain ⟨hi, _⟩ := List.getElem?_eq_some_iff.mp href
      omega
    refine ⟨[], by rwa [append_nil], Below.nil _ _ _, ?_⟩
    rw [append_nil]
    constructor
    · intro step ch' hforce
      obtain ⟨fr', child, fk, _, htouch, _⟩ := id hforce
      exact hto.forces step ch' (hlt _ _ _ _ htouch) hforce
    · intro i fr' child fk htouch haction
      exact hto.blocks i fr' child fk (hlt _ _ _ _ htouch) htouch haction
  | cons ref refs ih =>
    obtain ⟨st₁, hone, hrest⟩ := foldlM_cons_eq_ok h
    have href : ch.table.inboundFKs[k]? = some ref := by
      rw [← Nat.add_zero k, ← getElem?_drop, hrefs]
      rfl
    have hnext : ch.table.inboundFKs.drop (k + 1) = refs := by
      rw [← drop_drop, hrefs]
      rfl
    obtain ⟨more₁, hlog₁, hbelow₁, hback₁, hto₁⟩ :=
      walk_ref hagain hapart hchain hold href hlog (fun pk => hnew k pk (le_refl k)) hto hone
    have hnew₁ : ∀ i pk, k + 1 ≤ i → Avoids (log ++ more₁) p (i, pk) := by
      intro i pk hi e he hpre
      rcases mem_append.mp he with he | he
      · exact hnew i pk (by omega) e he hpre
      obtain ⟨pk', hpre'⟩ := hback₁ e he
      have hstep := step_eq_of_under hpre hpre'
      have := (Prod.mk.inj hstep).1
      omega
    obtain ⟨more₂, hlog₂, hbelow₂, hsettled⟩ := ih hnext hlog₁ hnew₁ hto₁ hrest
    refine ⟨more₁ ++ more₂, ?_⟩
    rw [← append_assoc]
    exact ⟨hlog₂, hbelow₁.append (subset_append_left _ _) hbelow₂, hsettled⟩

end

end Loops

theorem walks_enforceFuel (hapart : Apart env own) (n : Nat) :
    Walks env own (enforceFuel env n) := by
  induction n with
  | zero =>
    intro p ch fr st st' log _ _ _ _ h
    cases h
  | succ n ih =>
    intro p ch fr st st' log hchain hold hlog hnew h
    refine walk_refs ih hapart hchain hold drop_zero hlog ?_ ?_ h
    · intro i pk _ e he hpre
      exact hnew e he ((prefix_append p _).trans hpre)
    constructor
    · intro step ch' hlt
      exact absurd hlt (Nat.not_lt_zero _)
    · intro i fr' child fk hlt
      exact absurd hlt (Nat.not_lt_zero _)

theorem walks_enforceReferencing (hapart : Apart env own) :
    Walks env own (enforceReferencing env) := by
  intro p ch fr st st' log hchain hold hlog hnew h
  exact walks_enforceFuel hapart _ p ch fr st st' log hchain hold hlog hnew h

end Datax.Dml
