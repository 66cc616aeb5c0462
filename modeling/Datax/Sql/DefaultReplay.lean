import Datax.Shared.Fallible
import Datax.Sql.DefaultPrivileges
import Mathlib.Data.List.Dedup

/-!
# Default privileges and the replay of their statements

A rule and the replay are compared grantee by grantee. A statement acts on the entry of every
grantee it names in the same way however often it names it.
-/

namespace Datax.Roles

open Function List DefaultPrivilege

/-! ### Lists of privileges in storage order -/

variable {p : Priv} {order : List Priv} {set : List Priv}

theorem mem_orderedPrivs : p ∈ orderedPrivs set order ↔ p ∈ set := by
  unfold orderedPrivs
  rw [mem_append, mem_filter, mem_dedup, mem_filter, contains_iff_mem, Bool.not_eq_true',
    ← Bool.not_eq_true, contains_iff_mem]
  constructor
  · rintro (⟨_, h⟩ | ⟨h, _⟩) <;> exact h
  intro h
  by_cases ho : p ∈ order
  · exact .inl ⟨ho, h⟩
  · exact .inr ⟨h, ho⟩

/-- A list as it is stored: privileges of the kind, each once, in order. -/
def Canonical (order ps : List Priv) : Prop := ps = order.filter ps.contains

variable {ps qs : List Priv}

theorem Canonical.ext (hp : Canonical order ps) (hq : Canonical order qs)
    (h : ∀ x, x ∈ ps ↔ x ∈ qs) : ps = qs := by
  rw [hp, hq]
  refine filter_congr ?_
  intro x _
  rw [Bool.eq_iff_iff, contains_iff_mem, contains_iff_mem]
  exact h x

theorem Canonical.subset (h : Canonical order ps) : ∀ p ∈ ps, p ∈ order := by
  intro p hp
  rw [h] at hp
  exact mem_of_mem_filter hp

theorem canonical_orderedPrivs (h : ∀ p ∈ set, p ∈ order) :
    Canonical order (orderedPrivs set order) := by
  have hrest : set.filter (fun p => !order.contains p) = [] := by
    refine filter_eq_nil_iff.mpr ?_
    intro p hp
    rw [Bool.not_eq_true', ← Bool.not_eq_true, contains_iff_mem, not_not]
    exact h p hp
  have heq : orderedPrivs set order = order.filter set.contains := by
    unfold orderedPrivs
    rw [hrest, dedup_nil, append_nil]
  refine heq.trans (filter_congr ?_)
  intro p _
  rw [Bool.eq_iff_iff, contains_iff_mem, contains_iff_mem, mem_orderedPrivs]

theorem canonical_expand {words : List PrivWord} {kind : ObjectKind} {privs : List Priv}
    (h : expandPrivileges words kind = .ok privs) : Canonical (privOrderFor kind) privs := by
  unfold expandPrivileges at h
  simp only at h
  split_ifs at h
  cases h
  refine filter_congr ?_
  intro p hp
  rw [Bool.eq_iff_iff, contains_iff_mem, contains_iff_mem, mem_filter, contains_iff_mem]
  exact (and_iff_right hp).symm

/-! ### Adding and removing -/

variable {e : Option (List Priv) × Option (List Priv)}

section Entries
variable {order privs : List Priv} {cur : Option (List Priv)}

theorem all_contains : ps.all qs.contains = true ↔ ∀ p ∈ ps, p ∈ qs := by
  rw [all_eq_true]
  exact forall₂_congr fun p _ => contains_iff_mem

theorem any_contains : ps.any qs.contains = true ↔ ∃ p ∈ ps, p ∈ qs := by
  rw [any_eq_true]
  exact exists_congr fun p => and_congr_right fun _ => contains_iff_mem

theorem mem_added : p ∈ (added cur privs order).getD [] ↔ p ∈ cur.getD [] ∨ p ∈ privs := by
  unfold added
  split
  · rename_i hall
    exact ⟨.inl, fun h => h.elim (fun h => h) (all_contains.mp hall p)⟩
  · rw [Option.getD_some, mem_orderedPrivs, mem_append]

theorem mem_removed : p ∈ (removed cur privs order).getD [] ↔ p ∈ cur.getD [] ∧ p ∉ privs := by
  have hrest : p ∈ (cur.getD []).filter (fun p => !privs.contains p) ↔
      p ∈ cur.getD [] ∧ p ∉ privs := by
    rw [mem_filter, Bool.not_eq_true', ← Bool.not_eq_true, contains_iff_mem]
  unfold removed
  simp only
  split
  · rename_i hnone
    rw [Bool.not_eq_true', ← Bool.not_eq_true, any_contains] at hnone
    exact ⟨fun h => ⟨h, fun hp => hnone ⟨p, hp, h⟩⟩, fun h => h.1⟩
  · split
    · rename_i hempty
      rw [Option.getD_none, ← hrest, isEmpty_iff.mp hempty]
    · rw [Option.getD_some, mem_orderedPrivs]
      exact hrest

theorem canonical_nil : Canonical order [] :=
  (filter_eq_nil_iff.mpr fun _ _ h => Bool.false_ne_true h).symm

theorem canonical_added (h : Canonical order (cur.getD [])) (hprivs : Canonical order privs) :
    Canonical order ((added cur privs order).getD []) := by
  unfold added
  split
  · exact h
  refine canonical_orderedPrivs ?_
  intro p hp
  rcases mem_append.mp hp with hp | hp
  · exact h.subset p hp
  · exact hprivs.subset p hp

theorem canonical_removed (h : Canonical order (cur.getD [])) :
    Canonical order ((removed cur privs order).getD []) := by
  unfold removed
  simp only
  split
  · exact h
  split
  · exact canonical_nil
  · exact canonical_orderedPrivs fun p hp => h.subset p (mem_of_mem_filter hp)

structure Stored (order : List Priv) (cur : Option (List Priv)) : Prop where
  canonical : Canonical order (cur.getD [])
  nonempty : cur ≠ some []

theorem stored_none : Stored order none := ⟨canonical_nil, by rintro ⟨⟩⟩

theorem stored_ext {cur' : Option (List Priv)} (h : Stored order cur) (h' : Stored order cur')
    (hmem : ∀ p, p ∈ cur.getD [] ↔ p ∈ cur'.getD []) : cur = cur' := by
  have hsame := h.canonical.ext h'.canonical hmem
  cases cur with
  | none =>
    cases cur' with
    | none => rfl
    | some qs => exact absurd (congrArg some hsame.symm) h'.nonempty
  | some ps =>
    cases cur' with
    | none => exact absurd (congrArg some hsame) h.nonempty
    | some qs => exact congrArg some hsame

theorem Stored.added (h : Stored order cur) (hprivs : Canonical order privs) :
    Stored order (added cur privs order) := by
  refine ⟨canonical_added h.canonical hprivs, ?_⟩
  intro hnil
  have hnone : ∀ p, p ∉ cur.getD [] ∧ p ∉ privs := by
    intro p
    have hmem : p ∈ (Roles.added cur privs order).getD [] ↔ p ∈ cur.getD [] ∨ p ∈ privs := mem_added
    rw [hnil] at hmem
    exact not_or.mp fun hp => not_mem_nil (hmem.mpr hp)
  unfold Roles.added at hnil
  rw [if_pos (all_contains.mpr fun p hp => absurd hp (hnone p).2)] at hnil
  exact h.nonempty hnil

theorem Stored.removed (h : Stored order cur) : Stored order (removed cur privs order) := by
  refine ⟨canonical_removed h.canonical, ?_⟩
  unfold Roles.removed
  simp only
  split
  · exact h.nonempty
  split
  · rintro ⟨⟩
  rename_i hne
  intro hnil
  refine hne (isEmpty_iff.mpr (eq_nil_iff_forall_not_mem.mpr ?_))
  intro p hp
  have hin : p ∈ orderedPrivs _ order := mem_orderedPrivs.mpr hp
  rw [Option.some.inj hnil] at hin
  cases hin

def StoredEntry (order : List Priv) (e : Option (List Priv) × Option (List Priv)) : Prop :=
  Stored order e.1 ∧ Stored order e.2

theorem storedEntry_eq_iff {e' : Option (List Priv) × Option (List Priv)} (h : StoredEntry order e)
    (h' : StoredEntry order e') :
    e = e' ↔ ∀ p, (p ∈ e.1.getD [] ↔ p ∈ e'.1.getD []) ∧ (p ∈ e.2.getD [] ↔ p ∈ e'.2.getD []) := by
  constructor
  · rintro rfl p
    exact ⟨Iff.rfl, Iff.rfl⟩
  · intro hmem
    exact Prod.ext (stored_ext h.1 h'.1 fun p => (hmem p).1)
      (stored_ext h.2 h'.2 fun p => (hmem p).2)

end Entries

/-! ### A rule and its statement -/

section Rule
variable (t : AlterDefaultPrivileges) (privs : List Priv)

def rulePrivs (rule : Option DefaultPrivilege) : List Priv := (rule.map privileges).getD []

def ruleOption (rule : Option DefaultPrivilege) : Bool := (rule.map grantOption).getD false

def ruleAfter (pair : String × String) (rule : Option DefaultPrivilege) : Option DefaultPrivilege :=
  match rule with
  | some dp => dp.altered t privs
  | none =>
    if t.revoke then none
    else some (granted t privs { forRole := pair.1, object := t.objectKind, grantee := pair.2 })

def nonempty (ps : List Priv) : Option (List Priv) := if ps.isEmpty then none else some ps

def ruleEntry (rule : Option DefaultPrivilege) : Option (List Priv) × Option (List Priv) :=
  (nonempty (rulePrivs rule), if ruleOption rule then nonempty (rulePrivs rule) else none)

/-- What the statement makes of a grantee's entry when it is replayed as a grant. -/
def AlterDefaultPrivileges.replayed (e : Option (List Priv) × Option (List Priv)) :
    Option (List Priv) × Option (List Priv) :=
  granting privs (privOrderFor t.objectKind.object) t.revoke (t.grantOption && t.revoke)
    t.grantOption e

/-- The statement keeps apart nothing that one flag cannot: a grant without the option names
no new privilege of a rule with the option, a grant with it names every privilege of a rule
without it, and a revoke of the option names every privilege of a rule with it. -/
def Uniform (rule : Option DefaultPrivilege) : Prop :=
  if t.revoke then t.grantOption = true → ruleOption rule = true → ∀ p ∈ rulePrivs rule, p ∈ privs
  else if t.grantOption then ruleOption rule = true ∨ ∀ p ∈ rulePrivs rule, p ∈ privs
  else ruleOption rule = true → ∀ p ∈ privs, p ∈ rulePrivs rule

end Rule

variable {pair : String × String}

section Effect
variable {t : AlterDefaultPrivileges} {privs : List Priv}

theorem getD_nonempty (ps : List Priv) : (nonempty ps).getD [] = ps := by
  unfold nonempty
  split
  · rename_i h
    exact (isEmpty_iff.mp h).symm
  · rfl

theorem stored_nonempty (h : Canonical order ps) : Stored order (nonempty ps) := by
  refine ⟨(getD_nonempty ps).symm ▸ h, ?_⟩
  intro hnil
  unfold nonempty at hnil
  split_ifs at hnil with hne
  exact hne (isEmpty_iff.mpr (Option.some.inj hnil))

theorem privileges_granted (dp : DefaultPrivilege) : (dp.granted t privs).privileges =
    (added (some dp.privileges) privs (privOrderFor t.objectKind.object)).getD [] := by
  unfold granted onlyGrantee
  simp only
  rw [addPrivileges_eq, update_self, update_self]

theorem revoked_eq (dp : DefaultPrivilege) : dp.revoked t privs =
    if t.grantOption then some { dp with grantOption := false }
    else if ((removed (some dp.privileges) privs
        (privOrderFor t.objectKind.object)).getD []).isEmpty then none
    else some { dp with
      privileges :=
        (removed (some dp.privileges) privs (privOrderFor t.objectKind.object)).getD [] } := by
  unfold revoked onlyGrantee
  simp only
  rw [removePrivileges_eq, update_self, update_self]

variable {rule : Option DefaultPrivilege}

theorem mem_ruleEntry : (p ∈ (ruleEntry rule).1.getD [] ↔ p ∈ rulePrivs rule) ∧
      (p ∈ (ruleEntry rule).2.getD [] ↔ ruleOption rule = true ∧ p ∈ rulePrivs rule) := by
  cases hoption : ruleOption rule <;> simp [ruleEntry, hoption, getD_nonempty]

section
variable (pair)

theorem mem_ruleEntry_after (rule : Option DefaultPrivilege) (p : Priv) :
    (p ∈ (ruleEntry (ruleAfter t privs pair rule)).1.getD [] ↔
      if t.revoke then p ∈ rulePrivs rule ∧ (t.grantOption = true ∨ p ∉ privs)
      else p ∈ rulePrivs rule ∨ p ∈ privs) ∧
    (p ∈ (ruleEntry (ruleAfter t privs pair rule)).2.getD [] ↔
      if t.revoke then t.grantOption = false ∧ ruleOption rule = true ∧
      p ∈ rulePrivs rule ∧ p ∉ privs
      else (ruleOption rule = true ∨ t.grantOption = true) ∧ (p ∈ rulePrivs rule ∨ p ∈ privs)) := by
  have hgranted : ∀ dp : DefaultPrivilege, p ∈ (dp.granted t privs).privileges ↔
      p ∈ dp.privileges ∨ p ∈ privs := by
    intro dp
    rw [privileges_granted, mem_added]
    rfl
  have hflag : ∀ dp : DefaultPrivilege, (dp.granted t privs).grantOption =
      (dp.grantOption || t.grantOption) := fun _ => rfl
  rw [mem_ruleEntry.1, mem_ruleEntry.2]
  cases rule with
  | none =>
    cases hrevoke : t.revoke <;>
      simp [ruleAfter, hrevoke, rulePrivs, ruleOption, hgranted, hflag]
  | some dp =>
    cases hrevoke : t.revoke with
    | false => simp [ruleAfter, altered, hrevoke, rulePrivs, ruleOption, hgranted, hflag]
    | true =>
      cases hoption : t.grantOption with
      | true => simp [ruleAfter, altered, hrevoke, rulePrivs, ruleOption, revoked_eq, hoption]
      | false =>
        have hmem : p ∈
            (removed (some dp.privileges) privs (privOrderFor t.objectKind.object)).getD [] ↔
            p ∈ dp.privileges ∧ p ∉ privs := mem_removed
        simp only [ruleAfter, altered, hrevoke, if_true, revoked_eq, hoption,
          Bool.false_eq_true, if_false]
        split
        · rename_i hempty
          rw [isEmpty_iff.mp hempty] at hmem
          simp [rulePrivs, ruleOption, ← hmem]
        · simp [rulePrivs, ruleOption, hmem]

theorem canonical_rulePrivs_after (hprivs : Canonical (privOrderFor t.objectKind.object) privs)
    (h : Canonical (privOrderFor t.objectKind.object) (rulePrivs rule)) :
    Canonical (privOrderFor t.objectKind.object) (rulePrivs (ruleAfter t privs pair rule)) := by
  have hgranted :
      ∀ dp : DefaultPrivilege, Canonical (privOrderFor t.objectKind.object) dp.privileges →
      Canonical (privOrderFor t.objectKind.object) (dp.granted t privs).privileges := by
    intro dp hdp
    rw [privileges_granted]
    exact canonical_added hdp hprivs
  cases rule with
  | none =>
    unfold ruleAfter
    simp only
    split
    · exact canonical_nil
    · exact hgranted _ canonical_nil
  | some dp =>
    unfold ruleAfter altered
    simp only
    split
    · rw [revoked_eq]
      split
      · exact h
      split
      · exact canonical_nil
      · exact canonical_removed h
    · exact hgranted dp h

end

theorem stored_ruleEntry (h : Canonical order (rulePrivs rule)) :
    StoredEntry order (ruleEntry rule) := by
  refine ⟨stored_nonempty h, ?_⟩
  unfold ruleEntry
  split
  · exact stored_nonempty h
  · exact stored_none

theorem stored_granting (hprivs : Canonical order privs) (h : StoredEntry order e)
    (revoke optionOnly withOption : Bool) :
    StoredEntry order (granting privs order revoke optionOnly withOption e) := by
  unfold granting
  split
  · refine ⟨?_, h.2.removed⟩
    split
    · exact h.1
    · exact h.1.removed
  · refine ⟨h.1.added hprivs, ?_⟩
    split
    · exact h.2.added hprivs
    · exact h.2

theorem mem_granting {revoke optionOnly withOption : Bool} :
    (p ∈ (granting privs order revoke optionOnly withOption e).1.getD [] ↔
      if revoke then p ∈ e.1.getD [] ∧ (optionOnly = true ∨ p ∉ privs)
      else p ∈ e.1.getD [] ∨ p ∈ privs) ∧
    (p ∈ (granting privs order revoke optionOnly withOption e).2.getD [] ↔
      if revoke then p ∈ e.2.getD [] ∧ p ∉ privs
      else p ∈ e.2.getD [] ∨ (withOption = true ∧ p ∈ privs)) := by
  cases revoke <;> cases optionOnly <;> cases withOption <;> simp [granting, mem_added, mem_removed]

theorem ruleEntry_after_iff (hprivs : Canonical (privOrderFor t.objectKind.object) privs)
    (h : Canonical (privOrderFor t.objectKind.object) (rulePrivs rule)) :
    ruleEntry (ruleAfter t privs pair rule) = t.replayed privs (ruleEntry rule) ↔
      Uniform t privs rule := by
  unfold AlterDefaultPrivileges.replayed Uniform
  rw [storedEntry_eq_iff (stored_ruleEntry (canonical_rulePrivs_after pair hprivs h))
    (stored_granting hprivs (stored_ruleEntry h) _ _ _)]
  simp only [mem_ruleEntry_after, mem_granting]
  simp only [mem_ruleEntry]
  cases t.revoke with
  | true =>
    cases t.grantOption with
    | true =>
      simp only [Bool.and_self, if_true, true_or, and_true, Bool.true_eq_false, false_and,
        false_iff, true_imp_iff, not_and, not_not, true_and]
      exact ⟨fun h ho p hp => h p ⟨ho, hp⟩, fun h p hp => h hp.1 p hp.2⟩
    | false => simp [and_assoc]
  | false =>
    simp only [Bool.false_eq_true, if_false, true_and]
    cases t.grantOption with
    | true =>
      simp only [if_true, or_true, true_and]
      constructor
      · intro h
        by_cases ho : ruleOption rule = true
        · exact .inl ho
        refine .inr fun p hp => ?_
        rcases (h p).mp (.inl hp) with hboth | hin
        · exact absurd hboth.1 ho
        · exact hin
      · rintro (ho | hsub) p
        · rw [and_iff_right ho]
        · exact ⟨fun h => .inr (h.elim (hsub p) fun h => h), fun h => h.imp And.right fun h => h⟩
    | false =>
      simp only [Bool.false_eq_true, if_false, or_false, false_and]
      constructor
      · intro h ho p hp
        exact ((h p).mp ⟨ho, .inr hp⟩).2
      · intro h p
        exact ⟨fun hp => ⟨hp.1, hp.2.elim (fun h => h) (h hp.1 p)⟩, fun hp => ⟨hp.1, .inl hp.2⟩⟩

end Effect

/-! ### Lists of rules -/

def DefaultPrivilege.key (dp : DefaultPrivilege) : String × DefaultKind × String :=
  (dp.forRole, dp.object, dp.grantee)

variable {dp : DefaultPrivilege} {kind : DefaultKind} {role grantee : String}

theorem isFor_iff : dp.isFor role kind grantee = true ↔ dp.key = (role, kind, grantee) := by
  unfold isFor key
  rw [Bool.and_eq_true_iff, Bool.and_eq_true_iff, beq_iff_eq, beq_iff_eq, beq_iff_eq, Prod.mk.injEq,
    Prod.mk.injEq, and_assoc]

def ruleOf (rules : List DefaultPrivilege) (role : String) (kind : DefaultKind) (grantee : String) :
    Option DefaultPrivilege := rules.find? (isFor role kind grantee)

/-- One rule for each creator, kind and grantee, with its privileges as they are stored. -/
structure WellKept (rules : List DefaultPrivilege) : Prop where
  keys : (rules.map key).Nodup
  canonical : ∀ dp ∈ rules, Canonical (privOrderFor dp.object.object) dp.privileges

variable {rules : List DefaultPrivilege}

theorem WellKept.tail (h : WellKept (dp :: rules)) : WellKept rules :=
  ⟨(nodup_cons.mp h.keys).2, fun d hd => h.canonical d (mem_cons_of_mem dp hd)⟩

theorem ruleOf_eq_none_of_not_mem (h : (role, kind, grantee) ∉ rules.map key) :
    ruleOf rules role kind grantee = none := by
  refine find?_eq_none.mpr ?_
  intro dp hdp hfor
  exact h (isFor_iff.mp hfor ▸ mem_map_of_mem hdp)

section Edit
variable {t : AlterDefaultPrivileges} {privs : List Priv}

theorem key_altered {dp' : DefaultPrivilege} (h : dp.altered t privs = some dp') :
    dp'.key = dp.key := by
  unfold altered at h
  split at h
  · rw [revoked_eq] at h
    split at h
    · cases h
      rfl
    · split_ifs at h
      cases h
      rfl
  · cases h
    rfl

theorem ruleOf_editRule (hkeys : (rules.map key).Nodup) (role : String) (kind : DefaultKind)
    (grantee : String) :
    ruleOf (editRule (isFor pair.1 t.objectKind pair.2) (altered t privs) rules) role kind
      grantee = if (role, kind, grantee) = (pair.1, t.objectKind, pair.2)
        then (ruleOf rules role kind grantee).bind (altered t privs)
        else ruleOf rules role kind grantee := by
  induction rules with
  | nil => split <;> rfl
  | cons dp rules ih =>
    obtain ⟨hnot, hkeys⟩ := nodup_cons.mp hkeys
    unfold editRule
    by_cases hdp : dp.isFor pair.1 t.objectKind pair.2 = true
    · rw [if_pos hdp]
      have hkey := isFor_iff.mp hdp
      by_cases hsame : (role, kind, grantee) = (pair.1, t.objectKind, pair.2)
      · rw [if_pos hsame]
        have hfind : ruleOf (dp :: rules) role kind grantee = some dp := by
          unfold ruleOf
          rw [find?_cons_of_pos (isFor_iff.mpr (hkey.trans hsame.symm))]
        rw [hfind, Option.bind_some]
        cases haltered : dp.altered t privs with
        | none =>
          refine ruleOf_eq_none_of_not_mem ?_
          rw [hsame, ← hkey]
          exact hnot
        | some dp' =>
          have hkey' : dp'.key = (role, kind, grantee) :=
            (key_altered haltered).trans (hkey.trans hsame.symm)
          exact find?_cons_of_pos (isFor_iff.mpr hkey')
      · rw [if_neg hsame]
        have hskip : ∀ d : DefaultPrivilege, d.key = dp.key →
            ¬ d.isFor role kind grantee = true := by
          intro d hd hfor
          exact hsame ((isFor_iff.mp hfor).symm.trans (hd.trans hkey))
        unfold ruleOf
        rw [find?_cons_of_neg (hskip dp rfl)]
        cases haltered : dp.altered t privs with
        | none => rfl
        | some dp' => exact find?_cons_of_neg (hskip dp' (key_altered haltered))
    · rw [if_neg hdp]
      unfold ruleOf at ih ⊢
      by_cases hfor : dp.isFor role kind grantee = true
      · have hne : (role, kind, grantee) ≠ (pair.1, t.objectKind, pair.2) := by
          intro hsame
          exact hdp (isFor_iff.mpr ((isFor_iff.mp hfor).trans hsame))
        rw [if_neg hne, find?_cons_of_pos hfor, find?_cons_of_pos hfor]
      · rw [find?_cons_of_neg hfor, find?_cons_of_neg hfor]
        exact ih hkeys

theorem mem_editRule {p : DefaultPrivilege → Bool} {f : DefaultPrivilege → Option DefaultPrivilege}
    {d : DefaultPrivilege} (h : d ∈ editRule p f rules) :
    d ∈ rules ∨ ∃ dp ∈ rules, p dp = true ∧ f dp = some d := by
  induction rules with
  | nil => cases h
  | cons dp rules ih =>
    unfold editRule at h
    split at h
    · rename_i hp
      rcases mem_append.mp h with h | h
      · exact .inr ⟨dp, mem_cons_self, hp, Option.mem_toList.mp h⟩
      · exact .inl (mem_cons_of_mem dp h)
    · rcases mem_cons.mp h with rfl | h
      · exact .inl mem_cons_self
      rcases ih h with h | ⟨dp', hdp', hf⟩
      · exact .inl (mem_cons_of_mem dp h)
      · exact .inr ⟨dp', mem_cons_of_mem dp hdp', hf⟩

theorem keys_editRule_sublist (p : DefaultPrivilege → Bool) (rules : List DefaultPrivilege) :
    ((editRule p (altered t privs) rules).map key).Sublist (rules.map key) := by
  induction rules with
  | nil => exact List.Sublist.refl _
  | cons dp rules ih =>
    unfold editRule
    split
    · cases haltered : dp.altered t privs with
      | none => exact sublist_cons_self _ _
      | some dp' =>
        change (dp'.key :: rules.map key).Sublist (dp.key :: rules.map key)
        rw [key_altered haltered]
    · exact ih.cons_cons _

end Edit

end Datax.Roles
