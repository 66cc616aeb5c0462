import Datax.Sql.DmlStore

/-!
# The recursion over referencing rows

The allowance bounds the depth of the recursion: every level takes at least one row from it. So the
recursion satisfies its equation, whatever the store.
-/

namespace Datax.Dml

open Fallible

variable {V : Type} [DecidableEq V] {env : Env V}

/-! ### The allowance -/

def Spends (again : Enforcer V) : Prop :=
  ∀ t old new st st', again t old new st = .ok st' → st'.budget ≤ st.budget

variable {ref : ForeignKeyRef}

section Budget
variable {again again' : Enforcer V} {old : Row V} {new : Option (Row V)} {st st' : Cascade V}

theorem enforceRow_budget (hagain : Spends again) {child : Table V} {fk : ForeignKey}
    {action : FKAction} {fr : Fetched V}
    (h : enforceRow env again child fk action new st fr = .ok st') : st'.budget ≤ st.budget := by
  unfold enforceRow at h
  split at h
  · obtain ⟨st₁, hst₁, h⟩ := bind_eq_ok.mp h
    have hle := hagain _ _ _ _ _ hst₁
    cases h
    exact hle
  · obtain ⟨_, _, h⟩ := bind_eq_ok.mp h
    obtain ⟨_, _, h⟩ := bind_eq_ok.mp h
    obtain ⟨_, _, h⟩ := bind_eq_ok.mp h
    obtain ⟨st₁, hst₁, h⟩ := bind_eq_ok.mp h
    obtain ⟨⟨newKey, wb⟩, _, h⟩ := bind_eq_ok.mp h
    have hle := hagain _ _ _ _ _ hst₁
    cases h
    split <;> exact hle

theorem enforceRow_congr {b : Nat}
    (hsame : ∀ t old new st, st.budget < b → again t old new st = again' t old new st)
    (hst : st.budget < b) (child : Table V) (fk : ForeignKey) (action : FKAction) (fr : Fetched V) :
    enforceRow env again child fk action new st fr =
      enforceRow env again' child fk action new st fr := by
  unfold enforceRow
  split
  · rw [hsame _ _ _ _ hst]
  · rw [hsame _ _ _ _ hst]

theorem enforceRef_cases (h : enforceRef env again old new st ref = .ok st') :
    (st' = st ∧ ∀ child fk, env.schema.table ref.tableID = some child →
      child.constraintByID ref.constraintID = some fk →
      hasNull (Row.at old fk.refColumns) = true ∨ keyChanged fk old new = false) ∨
    ∃ child fk live, env.schema.table ref.tableID = some child ∧
      child.constraintByID ref.constraintID = some fk ∧ hasNull (Row.at old fk.refColumns) = false ∧
      keyChanged fk old new = true ∧
      live = liveRows env st child fk (Row.at old fk.refColumns) (fkAction fk new) ∧
      (live = [] ∧ st' = st ∨
        live ≠ [] ∧ fkAction fk new ≠ .restrict ∧ live.length ≤ st.budget ∧
          live.foldlM (enforceRow env again child fk (fkAction fk new) new)
            { st with budget := st.budget - live.length } = .ok st') := by
  unfold enforceRef at h
  split at h
  · cases h
  rename_i child hchild
  split at h
  · rename_i hfk
    cases h
    refine .inl ⟨rfl, ?_⟩
    intro child' fk' hchild' hfk'
    cases hchild.symm.trans hchild'
    cases hfk.symm.trans hfk'
  · rename_i fk hfk
    simp only at h
    split at h
    · rename_i hskip
      cases h
      refine .inl ⟨rfl, ?_⟩
      intro child' fk' hchild' hfk'
      cases hchild.symm.trans hchild'
      cases hfk.symm.trans hfk'
      rcases Bool.or_eq_true_iff.mp hskip with hnull | hsame
      · exact .inl hnull
      · exact .inr ((Bool.not_eq_true' _).mp hsame)
    · rename_i hskip
      obtain ⟨hnull, hchanged⟩ := not_or.mp (fun hor => hskip (Bool.or_eq_true_iff.mpr hor))
      refine .inr ⟨child, fk, _, hchild, hfk, (Bool.not_eq_true _).mp hnull, ?_, rfl, ?_⟩
      · cases hc : keyChanged fk old new with
        | true => rfl
        | false => exact absurd (by rw [hc]; rfl) hchanged
      · split at h
        · rename_i hempty
          cases h
          exact .inl ⟨List.isEmpty_iff.mp hempty, rfl⟩
        · rename_i hne
          obtain ⟨haction, h⟩ := ite_error_eq_ok h
          obtain ⟨hbudget, h⟩ := ite_error_eq_ok h
          exact .inr ⟨fun hnil => hne (List.isEmpty_iff.mpr hnil), haction,
            Nat.not_lt.mp hbudget, h⟩

theorem enforceRef_budget (hagain : Spends again)
    (h : enforceRef env again old new st ref = .ok st') :
    st'.budget ≤ st.budget := by
  rcases enforceRef_cases h with ⟨rfl, _⟩ | ⟨child, fk, live, _, _, _, _, _, hlive⟩
  · exact le_refl _
  rcases hlive with ⟨_, rfl⟩ | ⟨_, _, _, hfold⟩
  · exact le_refl _
  refine foldlM_invariant (I := fun s => s.budget ≤ st.budget) ?_ (Nat.sub_le _ _) hfold
  intro s fr s' _ hs hrow
  exact Nat.le_trans (enforceRow_budget hagain hrow) hs

theorem spends_enforceWith (hagain : Spends again) : Spends (enforceWith env again) := by
  intro t old new st st' h
  refine foldlM_invariant (I := fun s => s.budget ≤ st.budget) ?_ le_rfl h
  intro s ref s' _ hs href
  exact Nat.le_trans (enforceRef_budget hagain href) hs

theorem spends_enforceFuel (n : Nat) : Spends (enforceFuel env n) := by
  induction n with
  | zero =>
    intro t old new st st' h
    cases h
  | succ n ih => exact spends_enforceWith ih

theorem enforceRef_congr (hagain : Spends again)
    (hsame : ∀ t old new s, s.budget < st.budget → again t old new s = again' t old new s)
    (ref : ForeignKeyRef) :
    enforceRef env again old new st ref = enforceRef env again' old new st ref := by
  unfold enforceRef
  split
  · rfl
  rename_i child _
  split
  · rfl
  rename_i fk _
  simp only
  split
  · rfl
  split
  · rfl
  rename_i hne
  split
  · rfl
  split
  · rfl
  rename_i hbudget
  have hpos := List.length_pos_iff.mpr fun hnil => hne (List.isEmpty_iff.mpr hnil)
  refine foldlM_congr (I := fun s => s.budget < st.budget) ?_ ?_ ?_
  · intro s fr s' _ hs hrow
    exact lt_of_le_of_lt (enforceRow_budget hagain hrow) hs
  · intro s fr _ hs
    exact enforceRow_congr hsame hs child fk _ fr
  · simp only
    omega

theorem enforceWith_congr (hagain : Spends again) {b : Nat}
    (hsame : ∀ t old new s, s.budget < b → again t old new s = again' t old new s)
    (hst : st.budget ≤ b) (t : Table V) :
    enforceWith env again t old new st = enforceWith env again' t old new st := by
  refine foldlM_congr (I := fun s => s.budget ≤ b) ?_ ?_ hst
  · intro s ref s' _ hs href
    exact Nat.le_trans (enforceRef_budget hagain href) hs
  · intro s ref _ hs
    exact enforceRef_congr hagain
      (fun t old new s' hs' => hsame t old new s' (lt_of_lt_of_le hs' hs)) ref

theorem enforceFuel_eq {n m : Nat} (hn : st.budget < n) (hm : st.budget < m) (t : Table V) :
    enforceFuel env n t old new st = enforceFuel env m t old new st := by
  induction n generalizing m t old new st with
  | zero => exact absurd hn (Nat.not_lt_zero _)
  | succ n ih =>
    cases m with
    | zero => exact absurd hm (Nat.not_lt_zero _)
    | succ m =>
      refine enforceWith_congr (spends_enforceFuel n) (b := min n m) ?_ (by omega) t
      intro t' old' new' s hs
      exact ih (by omega) (by omega) t'

/-- The recursion, as it is written. -/
theorem enforceReferencing_eq (t : Table V) :
    enforceReferencing env t old new st =
      enforceWith env (enforceReferencing env) t old new st := by
  refine enforceWith_congr (spends_enforceFuel _) (b := st.budget) ?_ le_rfl t
  intro t' old' new' s hs
  exact enforceFuel_eq hs (Nat.lt_succ_self _) t'

end Budget

end Datax.Dml
