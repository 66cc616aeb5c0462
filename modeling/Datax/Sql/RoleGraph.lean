import Datax.Shared.Runs
import Datax.Sql.RoleStatements
import Mathlib.Data.List.Dedup

/-!
# The role graph over whole runs

A membership closes a cycle only if the role leads to the grantee already. CREATE ROLE starts from
a name that no role is a member of. GRANT looks before it adds: its graph has at least the
memberships from before the statement, and no path uses two of the new ones. ALTER ROLE ... IN ROLE
adds them without looking.
-/

namespace Datax.Roles

open AList List Fallible Relation RoleDescriptor Runs

/-! ### Descriptors -/

namespace RoleDescriptor
variable {d : RoleDescriptor} {r : String} {b : Bool}

theorem parents_setAdmin (l : List RoleMembership) :
    (setAdmin r b l).map RoleMembership.role = l.map RoleMembership.role := by
  induction l with
  | nil => rfl
  | cons m l ih =>
    unfold setAdmin
    split
    · rfl
    · rw [map_cons, ih, map_cons]

theorem isMemberOf_eq_none : d.isMemberOf r = none ↔ r ∉ d.parents := by
  unfold isMemberOf parents
  simp only [Option.map_eq_none_iff, find?_eq_none, beq_iff_eq, mem_map, not_exists, not_and]

def Rest (d d' : RoleDescriptor) : Prop := d'.name = d.name ∧ d'.builtin = d.builtin

theorem addMembership_spec : Rest d (d.addMembership r b).1 ∧
    (∀ p, p ∈ (d.addMembership r b).1.parents ↔ p ∈ d.parents ∨ p = r) ∧
    (d.parents.Nodup → (d.addMembership r b).1.parents.Nodup) ∧
    ((d.addMembership r b).2 = false → (d.addMembership r b).1 = d) := by
  unfold addMembership
  cases hm : d.isMemberOf r with
  | some had =>
    have hin : r ∈ d.parents := by
      by_contra hnot
      simp [isMemberOf_eq_none.mpr hnot] at hm
    have hmem : ∀ p, p ∈ d.parents ↔ p ∈ d.parents ∨ p = r :=
      fun p => ⟨.inl, fun h => h.elim (fun h => h) fun h => h ▸ hin⟩
    simp only
    split
    · have hsame : parents { d with memberOf := setAdmin r true d.memberOf } = d.parents :=
        parents_setAdmin _
      rw [hsame]
      exact ⟨⟨rfl, rfl⟩, hmem, fun h => h, fun h => (by cases h)⟩
    · exact ⟨⟨rfl, rfl⟩, hmem, fun h => h, fun _ => rfl⟩
  | none =>
    have hperm := (perm_insertionSort (fun a b : RoleMembership => a.role ≤ b.role)
      (d.memberOf ++ [⟨r, b⟩])).map
      RoleMembership.role
    rw [map_append] at hperm
    refine ⟨⟨rfl, rfl⟩,
      fun p => hperm.mem_iff.trans (by rw [mem_append, map_singleton, mem_singleton]; rfl), ?_,
      fun h => (by cases h)⟩
    intro hnodup
    refine hperm.nodup_iff.mpr (hnodup.append (nodup_singleton r) ?_)
    intro x hx hr
    rw [mem_singleton.mp hr] at hx
    exact isMemberOf_eq_none.mp hm hx

theorem removeMembership_spec : Rest d (d.removeMembership r b).1 ∧
    (d.removeMembership r b).1.parents.Sublist d.parents ∧
    (d.parents.Nodup → b = false → r ∉ (d.removeMembership r b).1.parents) ∧
    ((d.removeMembership r b).2 = false → (d.removeMembership r b).1 = d) := by
  unfold removeMembership
  cases hm : d.isMemberOf r with
  | none =>
    exact ⟨⟨rfl, rfl⟩, List.Sublist.refl _, fun _ _ => isMemberOf_eq_none.mp hm, fun _ => rfl⟩
  | some had =>
    cases b with
    | true =>
      cases had with
      | true =>
        refine ⟨⟨rfl, rfl⟩, ?_, fun _ h => (by cases h), fun h => (by cases h)⟩
        change ((setAdmin r false d.memberOf).map RoleMembership.role).Sublist d.parents
        rw [parents_setAdmin]
        exact List.Sublist.refl d.parents
      | false => exact ⟨⟨rfl, rfl⟩, List.Sublist.refl _, fun _ h => (by cases h), fun _ => rfl⟩
    | false =>
      have herase : parents { d with memberOf := d.memberOf.eraseP (·.role == r) } =
          d.parents.erase r := by
        unfold parents
        rw [erase_eq_eraseP, eraseP_map]
        exact congrArg (fun p => (d.memberOf.eraseP p).map RoleMembership.role)
          (funext fun m => Bool.beq_comm)
      refine ⟨⟨rfl, rfl⟩, ?_⟩
      simp only [Bool.false_eq_true, if_false]
      rw [herase]
      exact ⟨erase_sublist, fun hnodup _ => hnodup.not_mem_erase, fun h => (by cases h)⟩

theorem addParents_spec (rs : List String) (d : RoleDescriptor) :
    Rest d (rs.foldl RoleStore.addParent d) ∧
      (∀ p, p ∈ (rs.foldl RoleStore.addParent d).parents ↔ p ∈ d.parents ∨ p ∈ rs) ∧
    (d.parents.Nodup → (rs.foldl RoleStore.addParent d).parents.Nodup) := by
  induction rs generalizing d with
  | nil => exact ⟨⟨rfl, rfl⟩, fun p => by simp, fun h => h⟩
  | cons r rs ih =>
    obtain ⟨hrest, hmem, hnodup⟩ := ih (RoleStore.addParent d r)
    obtain ⟨hrest₁, hmem₁, hnodup₁, -⟩ := @addMembership_spec d r false
    refine ⟨⟨hrest.1.trans hrest₁.1, hrest.2.trans hrest₁.2⟩, ?_, fun h => hnodup (hnodup₁ h)⟩
    intro p
    rw [foldl_cons, hmem, RoleStore.addParent, hmem₁, mem_cons, or_assoc]

end RoleDescriptor

/-! ### The stored roles -/

namespace RoleStore

def Member (s : RoleStore) (a b : String) : Prop := b ∈ (lazyRoleGraph s).parents a

def Known (s : RoleStore) (n : String) : Prop := (s.lookupRole n).isSome = true

/-- What every statement keeps, but for cycles. -/
structure Kept (s : RoleStore) : Prop where
  good : ∀ n d, s.lookupRole n = some d → d.name = n ∧ d.builtin = isBuiltinRole n ∧ d.parents.Nodup
  noPublic : s.lookupRole publicRole = none
  targets : ∀ a b, s.Member a b → s.Known b
  layout : s.finalized = true ∨ s.roles = ∅

def Acyclic (s : RoleStore) : Prop := ∀ a, ¬ TransGen s.Member a a

structure Since (s : RoleStore) (N : String → String → Prop) (st : RoleStore) : Prop where
  kept : st.Kept
  final : st.finalized = true
  known : ∀ n, s.Known n → st.Known n
  added : ∀ a b, st.Member a b → s.Member a b ∨ N a b

variable {s st s' : RoleStore} {d : RoleDescriptor} {a b n : String} {N : String → String → Prop}

theorem member_iff : s.Member a b ↔ ∃ d, s.lookupRole a = some d ∧ b ∈ d.parents := by
  change b ∈ ((s.lookupRole a).map parents).getD [] ↔ _
  cases s.lookupRole a with
  | none | some d => simp

theorem member_of_lookup (h : s.lookupRole a = some d) : s.Member a b ↔ b ∈ d.parents := by
  rw [member_iff, h]
  exact ⟨fun ⟨d', hd', hb⟩ => by cases hd'; exact hb, fun hb => ⟨d, rfl, hb⟩⟩

theorem contains_filter_ne {l : List String} (h : a ≠ n) :
    (l.filter (· ≠ n)).contains a = l.contains a := by
  rw [Bool.eq_iff_iff, contains_iff_mem, contains_iff_mem, mem_filter]
  exact and_iff_left (by simpa using h)

theorem lookupRole_putRole (hd : isBuiltinRole d.name = false) (n : String) :
    (s.putRole d).lookupRole n = if n = d.name then some { d with legacy := false }
    else s.lookupRole n := by
  unfold lookupRole lookupLegacyRole putRole
  by_cases hn : n = d.name
  · rw [if_pos hn, hn, hd, if_neg Bool.false_ne_true, lookup_insert]
  · simp only [if_neg hn, lookup_insert_ne hn, lookup_erase_ne hn]
    rw [contains_filter_ne hn]

theorem lookupRole_deleteRole (hn : isBuiltinRole n = false) (hroot : n ≠ rootRole) (m : String) :
    (s.deleteRole n).lookupRole m = if m = n then none else s.lookupRole m := by
  unfold lookupRole lookupLegacyRole deleteRole
  by_cases hm : m = n
  · subst hm
    rw [if_pos rfl, hn, if_neg Bool.false_ne_true, lookup_erase, lookup_erase, if_neg hroot]
    rfl
  · simp only [if_neg hm, lookup_erase_ne hm]
    rw [contains_filter_ne hm]

theorem sound_of_empty (hroles : s.roles = ∅) (hpublic : s.users.lookup publicRole = none) :
    s.Kept ∧ s.Acyclic := by
  have hmember : ∀ a b, s.Member a b → b = adminRole ∧ a ≠ adminRole := by
    intro a b hab
    obtain ⟨d, hd, hb⟩ := member_iff.mp hab
    rcases parents_mem hd b hb with rfl | ⟨e, he, _⟩
    · refine ⟨rfl, ?_⟩
      rintro rfl
      cases hd
      cases hb
    · simp [hroles] at he
  refine ⟨⟨?_, ?_, ?_, .inr hroles⟩, ?_⟩
  · intro n d h
    unfold lookupRole at h
    rw [hroles, lookup_empty] at h
    split at h
    · rename_i hb
      cases h
      exact ⟨rfl, hb.symm, nodup_nil⟩
    · rename_i hb
      have hb := ((Bool.not_eq_true _).mp hb).symm
      simp only at h
      split at h
      · rename_i d' hd'
        cases h
        obtain ⟨v, _, rfl⟩ := Option.map_eq_some_iff.mp hd'
        refine ⟨rfl, hb, ?_⟩
        split
        · exact nodup_singleton _
        · exact nodup_nil
      · split_ifs at h with hroot
        cases h
        exact ⟨hroot.symm, hb, nodup_nil⟩
  · unfold lookupRole lookupLegacyRole
    rw [hroles, hpublic, if_neg (by decide), lookup_empty]
    exact if_neg (by decide)
  · intro a b hab
    rw [(hmember a b hab).1]
    rfl
  · intro a h
    obtain ⟨b, hb, _⟩ := TransGen.head'_iff.mp h
    obtain ⟨c, _, hc⟩ := TransGen.tail'_iff.mp h
    exact (hmember a b hb).2 (hmember c a hc).1

theorem Kept.ne_public (h : s.Kept) (hd : s.lookupRole n = some d) : n ≠ publicRole := by
  rintro rfl
  simp [h.noPublic] at hd

theorem since_self (h : s.Kept) (hfinal : s.finalized = true) : Since s N s :=
  ⟨h, hfinal, fun _ hn => hn, fun _ _ hab => .inl hab⟩

theorem Since.put (h : Since s N st) (hs : s.Kept) (hn : isBuiltinRole n = false)
    (hpublic : n ≠ publicRole) (hd : d.name = n ∧ d.builtin = false) (hnodup : d.parents.Nodup)
    (hparents : ∀ p ∈ d.parents, s.Member n p ∨ (N n p ∧ st.Known p)) :
    Since s N (st.putRole d) ∧ (∀ m, st.Known m → (st.putRole d).Known m) ∧
      ∀ a b, (st.putRole d).Member a b ↔ if a = n then b ∈ d.parents else st.Member a b := by
  have hlookup := fun m => lookupRole_putRole (s := st) (hd.1 ▸ hn) m
  rw [hd.1] at hlookup
  have hmember : ∀ a b, (st.putRole d).Member a b ↔
      if a = n then b ∈ d.parents else st.Member a b := by
    intro a b
    rw [member_iff, hlookup]
    split
    · exact ⟨fun ⟨d', hd', hb⟩ => by cases hd'; exact hb, fun hb => ⟨_, rfl, hb⟩⟩
    · exact member_iff.symm
  have hknown : ∀ m, st.Known m → (st.putRole d).Known m := by
    intro m hm
    unfold Known
    rw [hlookup]
    split
    · rfl
    · exact hm
  refine ⟨⟨⟨?_, ?_, ?_, .inl h.final⟩, h.final, fun m hm => hknown m (h.known m hm), ?_⟩,
    hknown, hmember⟩
  · intro m d' hd'
    rw [hlookup] at hd'
    split at hd'
    · rename_i hm
      cases hd'
      exact ⟨hm.symm, hd.2.trans (hm ▸ hn).symm, hnodup⟩
    · exact h.kept.good m d' hd'
  · rw [hlookup, if_neg hpublic.symm]
    exact h.kept.noPublic
  · intro a b hab
    refine hknown b ?_
    have hab := (hmember a b).mp hab
    split at hab
    · exact (hparents b hab).elim (fun hb => h.known b (hs.targets n b hb)) And.right
    · exact h.kept.targets a b hab
  · intro a b hab
    have hab := (hmember a b).mp hab
    split at hab
    · rename_i ha
      rw [ha]
      exact (hparents b hab).imp_right And.left
    · exact h.added a b hab

theorem checkExists_ok (h : s.checkExists n = .ok d) : s.lookupRole n = some d := by
  unfold checkExists at h
  split at h
  · cases h
    assumption
  · cases h

theorem known_of_checkExists (h : s.checkExists n = .ok d) : s.Known n := by
  rw [Known, checkExists_ok h]
  rfl

theorem lookup_users_of_none (h : s.lookupRole n = none) : s.users.lookup n = none := by
  unfold lookupRole lookupLegacyRole at h
  cases hu : s.users.lookup n with
  | none => rfl
  | some v =>
    rw [hu] at h
    split at h
    · cases h
    · split at h <;> cases h

end RoleStore

open RoleStore

/-! ### CREATE and ALTER ROLE -/

section Create
variable {s s' : RoleStore} {who : Session}

/-- The condition: no role that ALTER ROLE makes the altered one a member of leads to it. -/
def Looks (s : RoleStore) : RoleStatement → Prop
  | .create _ t => t.alter = true → ∀ r ∈ t.inRoles, ¬ ReflTransGen s.Member r t.name
  | _ => True

theorem putOptions_sound {t : CreateRole} {d : RoleDescriptor} (h : s.Kept) (hacyclic : s.Acyclic)
    (hfinal : s.finalized = true) (hname : isBuiltinRole t.name = false)
    (hpublic : t.name ≠ publicRole) (hd : d.name = t.name ∧ d.builtin = false ∧ d.parents.Nodup)
    (hparents : ∀ p ∈ d.parents, s.Member t.name p)
    (hnew : (∀ r ∈ t.inRoles, r ≠ t.name) → ∀ r ∈ t.inRoles, ¬ ReflTransGen s.Member r t.name)
    (hs : s.putOptions t d = .ok s') : s'.Kept ∧ s'.Acyclic := by
  unfold putOptions at hs
  split at hs
  · cases hs
  obtain ⟨_, hcheck, hs⟩ := bind_eq_ok.mp hs
  cases hs
  have hchecked : ∀ r ∈ t.inRoles, s.Known r ∧ r ≠ t.name := by
    intro r hr
    obtain ⟨d', hd', hself⟩ := bind_eq_ok.mp (forM_eq_ok hcheck r hr)
    exact ⟨known_of_checkExists hd', (ite_error_eq_ok hself).1⟩
  obtain ⟨hrest, hmem, hnodup⟩ := addParents_spec t.inRoles (applyOptions t d)
  obtain ⟨hsince, -⟩ :=
    (since_self (N := fun a b => a = t.name ∧ b ∈ t.inRoles) h hfinal).put h hname hpublic
    ⟨hrest.1.trans hd.1, hrest.2.trans hd.2.1⟩ (hnodup hd.2.2)
    fun p hp => ((hmem p).mp hp).imp (hparents p) fun hp => ⟨⟨rfl, hp⟩, (hchecked p hp).1⟩
  refine ⟨hsince.kept, Marking.acyclic_add hacyclic hsince.added ?_⟩
  rintro a b a' b' ⟨_, hb⟩ ⟨rfl, _⟩
  exact hnew (fun r hr => (hchecked r hr).2) b hb

theorem createRole_sound {t : CreateRole} (h : s.Kept) (hacyclic : s.Acyclic)
    (hlooks : Looks s (.create who t)) (hs : s.execCreateRole who t = .ok s') :
    s'.Kept ∧ s'.Acyclic := by
  obtain ⟨_, hreserved, hs⟩ := bind_eq_ok.mp hs
  obtain ⟨hreserved, _⟩ := ite_error_eq_ok hreserved
  obtain ⟨_, hpublic, hname⟩ : _ ∧ t.name ≠ publicRole ∧ ¬ isBuiltinRole t.name = true := by
    push Not at hreserved
    exact hreserved
  have hname := (Bool.not_eq_true _).mp hname
  obtain ⟨_, _, hs⟩ := bind_eq_ok.mp hs
  split at hs
  · rename_i hfinal
    have hempty :=
      h.layout.resolve_left ((Bool.not_eq_true _).mpr ((Bool.not_eq_true' _).mp hfinal))
    obtain ⟨_, hs⟩ := ite_error_eq_ok hs
    split at hs
    · cases hs
    · split_ifs at hs
      cases hs
      exact ⟨h, hacyclic⟩
    · cases hs
      exact ⟨h, hacyclic⟩
    · cases hs
    · cases hs
      refine sound_of_empty hempty ?_
      rw [lookup_insert_ne hpublic.symm]
      exact lookup_users_of_none h.noPublic
  · rename_i hfinal
    have hfinal : s.finalized = true := by simpa using hfinal
    split at hs
    · cases hs
    · rename_i d hd halter
      obtain ⟨hown, hbuiltin, hnodup⟩ := h.good t.name d hd
      exact putOptions_sound h hacyclic hfinal hname hpublic ⟨hown, hbuiltin.trans hname, hnodup⟩
        (fun p hp => (member_of_lookup hd).mpr hp) (fun _ => hlooks halter) hs
    · split at hs
      · cases hs
        exact ⟨h, hacyclic⟩
      · cases hs
    · rename_i hnone _
      have hno : ¬ s.Known t.name := by
        unfold Known
        rw [hnone]
        exact Bool.false_ne_true
      refine putOptions_sound h hacyclic hfinal hname hpublic
        (d := { name := t.name, login := t.isUser })
        ⟨rfl, rfl, nodup_nil⟩ (fun p hp => absurd hp not_mem_nil) ?_ hs
      intro hself r hr hpath
      rcases ReflTransGen.cases_tail hpath with heq | ⟨c, _, hc⟩
      · exact hself r hr heq.symm
      · exact hno (h.targets c t.name hc)

end Create

/-! ### GRANT and REVOKE -/

section Grant
variable {s₀ s s' : RoleStore} {who : Session} {t : GrantRole}

structure Granting (s₀ : RoleStore) (t : GrantRole) (st : RoleStore × RoleGraph) : Prop where
  since : Since s₀ (fun a b => t.revoke = false ∧ a ∈ t.grantees ∧ b ∈ t.roles) st.1
  grows : t.revoke = false → ∀ a b, s₀.Member a b → st.1.Member a b
  cached : t.revoke = false → ∀ a d, (a, d) ∈ st.2.roles → ∀ b, s₀.Member a b →
    b ∈ (d.map parents).getD []

theorem parents_of_granting {st : RoleStore × RoleGraph} (h : Granting s₀ t st)
    (hgrant : t.revoke = false) {a b : String} (hab : s₀.Member a b) :
    b ∈ RoleGraph.parents { st.2 with reader := some st.1 } a := by
  unfold RoleGraph.parents RoleGraph.role
  cases hlookup : st.2.roles.lookup a with
  | some d =>
    obtain ⟨before, after, hsplit, _⟩ := lookup_eq_some_iff.mp hlookup
    exact h.cached hgrant a d (hsplit ▸ mem_append_right _ mem_cons_self) b hab
  | none => exact h.grows hgrant a b hab

theorem changed_spec {gd : RoleDescriptor} {r : String} {x : RoleDescriptor × Bool}
    (hx : x = if t.revoke then gd.removeMembership r t.adminOption
      else gd.addMembership r t.adminOption) :
    gd.Rest x.1 ∧ (gd.parents.Nodup → x.1.parents.Nodup) ∧ (x.2 = false → x.1 = gd) ∧
      (∀ p ∈ x.1.parents, p ∈ gd.parents ∨ (t.revoke = false ∧ p = r)) ∧
      (t.revoke = false → ∀ p ∈ gd.parents, p ∈ x.1.parents) := by
  subst hx
  cases t.revoke with
  | true =>
    obtain ⟨hrest, hsub, -, hsame⟩ := @RoleDescriptor.removeMembership_spec gd r t.adminOption
    exact ⟨hrest, fun h => h.sublist hsub, hsame, fun p hp => .inl (hsub.subset hp), fun h =>
      (by cases h)⟩
  | false =>
    obtain ⟨hrest, hmem, hnodup, hsame⟩ := @RoleDescriptor.addMembership_spec gd r t.adminOption
    exact ⟨hrest, hnodup, hsame, fun p hp => ((hmem p).mp hp).imp_right fun hp => ⟨rfl, hp⟩,
      fun _ p hp => (hmem p).mpr (.inl hp)⟩

theorem grantOne_sound {st st' : RoleStore × RoleGraph} {r g : String} (hs₀ : s₀.Kept)
    (h : Granting s₀ t st) (hr : r ∈ t.roles) (hknown : st.1.Known r) (hg : g ∈ t.grantees)
    (hs : grantOne t r st g = .ok st') :
    (Granting s₀ t st' ∧ st'.1.Known r) ∧ (t.revoke = false → ¬ ReflTransGen s₀.Member r g) := by
  obtain ⟨_, hcheck, hs⟩ := bind_eq_ok.mp hs
  obtain ⟨gd, hgd, hs⟩ := bind_eq_ok.mp hs
  obtain ⟨hreach, hs⟩ := ite_error_eq_ok hs
  have hgd := checkExists_ok hgd
  have hbuiltin : isBuiltinRole g = false := by
    have hnot := (ite_error_eq_ok hcheck).1
    push Not at hnot
    exact (Bool.not_eq_true _).mp hnot.2
  have hparents : ∀ b, b ∈ gd.parents ↔ st.1.Member g b := fun b => (member_of_lookup hgd).symm
  generalize hx : (if t.revoke then gd.removeMembership r t.adminOption
    else gd.addMembership r t.adminOption) = x at hs
  obtain ⟨hrest, hnodup, hsame, hsub, hsup⟩ := changed_spec hx.symm
  have hput : Since s₀ (fun a b => t.revoke = false ∧ a ∈ t.grantees ∧ b ∈ t.roles) st'.1 ∧
      (∀ m, st.1.Known m → st'.1.Known m) ∧ ∀ a b, st'.1.Member a b ↔
        if a = g then b ∈ x.1.parents else st.1.Member a b := by
    cases hs
    simp only
    split
    · obtain ⟨hname, hb, hnd⟩ := h.since.kept.good g gd hgd
      refine h.since.put hs₀ hbuiltin (h.since.kept.ne_public hgd)
        ⟨hrest.1.trans hname, hrest.2.trans (hb.trans hbuiltin)⟩
        (hnodup hnd) fun p hp => ?_
      rcases hsub p hp with hp | ⟨hgrant, rfl⟩
      · exact (h.since.added g p ((hparents p).mp hp)).imp_right fun hN =>
          ⟨hN, h.since.kept.targets g p ((hparents p).mp hp)⟩
      · exact .inr ⟨⟨hgrant, hg, hr⟩, hknown⟩
    · rename_i hno
      rw [hsame ((Bool.or_eq_false_iff.mp ((Bool.not_eq_true _).mp hno)).1)]
      refine ⟨h.since, fun _ hm => hm, fun a b => ?_⟩
      split
      · rename_i ha
        rw [hparents, ha]
      · exact Iff.rfl
  obtain ⟨hsince, hkn, hmember⟩ := hput
  refine ⟨⟨⟨hsince, ?_, ?_⟩, hkn r hknown⟩, ?_⟩
  · intro hgrant a b hab
    have hold := h.grows hgrant a b hab
    rw [hmember]
    split
    · rename_i ha
      rw [ha] at hold
      exact hsup hgrant b ((hparents b).mpr hold)
    · exact hold
  · intro hgrant a d hd b hab
    cases hs
    rw [hgrant, if_neg Bool.false_ne_true] at hd
    rcases mem_append.mp hd with hd | hd
    · exact h.cached hgrant a d hd b hab
    obtain ⟨n, _, heq⟩ := mem_map.mp hd
    cases heq
    exact parents_of_granting h hgrant hab
  · intro hgrant hpath
    refine hreach (Bool.and_eq_true_iff.mpr ⟨by rw [hgrant]; rfl, contains_iff_mem.mpr ?_⟩)
    exact (RoleGraph.mem_reachable_iff r g).mpr
      (ReflTransGen.mono (fun a b hab => parents_of_granting h hgrant hab) r g hpath)

theorem grantRole_sound (h : s.Kept) (hacyclic : s.Acyclic) (hs : s.execGrantRole who t = .ok s') :
    s'.Kept ∧ s'.Acyclic := by
  unfold execGrantRole at hs
  split at hs
  · rename_i hfinal
    have hempty :=
      h.layout.resolve_left ((Bool.not_eq_true _).mpr ((Bool.not_eq_true' _).mp hfinal))
    unfold execGrantRoleLegacy at hs
    split at hs
    · obtain ⟨_, hs⟩ := ite_error_eq_ok hs
      obtain ⟨_, _, hs⟩ := bind_eq_ok.mp hs
      obtain ⟨_, hs⟩ := ite_error_eq_ok hs
      cases hs
      have husers := lookup_users_of_none h.noPublic
      exact sound_of_empty hempty husers
    · cases hs
  · rename_i hfinal
    obtain ⟨st, hst, rfl⟩ := map_eq_ok.mp hs
    have hstart : Granting s t (s, lazyRoleGraph s) :=
      ⟨since_self h (by simpa using hfinal), fun _ _ _ hab => hab, fun _ _ _ hd =>
        absurd hd not_mem_nil⟩
    have hstep : ∀ mayGrant st r st', r ∈ t.roles → Granting s t st →
        grantRole t mayGrant st r = .ok st' →
        Granting s t st' ∧ ∀ g ∈ t.grantees, t.revoke = false → ¬ ReflTransGen s.Member r g := by
      intro mayGrant st r st' hr hI hst'
      obtain ⟨d, hd, hst'⟩ := bind_eq_ok.mp hst'
      obtain ⟨_, hst'⟩ := ite_error_eq_ok hst'
      obtain ⟨_, hst'⟩ := ite_error_eq_ok hst'
      obtain ⟨hend, hall⟩ := foldlM_all (I := fun st => Granting s t st ∧ st.1.Known r)
        (fun st g st' hg hI hs => grantOne_sound h hI.1 hr hI.2 hg hs)
          ⟨hI, known_of_checkExists hd⟩ hst'
      exact ⟨hend.1, hall⟩
    obtain ⟨hend, hall⟩ := foldlM_all (hstep _) hstart hst
    refine ⟨hend.since.kept, Marking.acyclic_add hacyclic hend.since.added ?_⟩
    rintro a b a' b' ⟨hgrant, _, hb⟩ ⟨_, ha', _⟩
    exact hall b hb a' ha' hgrant

end Grant

/-! ### DROP ROLE -/

section Drop
variable {s s' : RoleStore} {who : Session} {name : String}

section
variable (name) {st : RoleStore} (hs : s.Kept)
include hs

theorem dropMember_since {r : RoleDescriptor} (hr : s.lookupRole r.name = some r)
    (h : Since s (fun _ _ => False) st) :
    Since s (fun _ _ => False) (dropMember name st r) ∧
      ∀ a, (dropMember name st r).Member a name → a ≠ name → a ≠ r.name ∧ st.Member a name := by
  obtain ⟨-, hbuiltin, hnodup⟩ := hs.good r.name r hr
  unfold dropMember
  split
  · rename_i hskip
    refine ⟨h, fun a hab hne => ⟨?_, hab⟩⟩
    rintro rfl
    have hin := (member_of_lookup hr).mp ((h.added _ _ hab).resolve_right id)
    rcases Bool.or_eq_true_iff.mp hskip with hskip | hnone
    · rcases Bool.or_eq_true_iff.mp hskip with hb | hself
      · unfold lookupRole at hr
        rw [if_pos (hbuiltin ▸ hb)] at hr
        rw [← Option.some.inj hr] at hin
        cases hin
      · exact hne (beq_iff_eq.mp hself)
    · exact isMemberOf_eq_none.mp (Option.isNone_iff_eq_none.mp hnone) hin
  · rename_i hskip
    obtain ⟨hrest, hfewer, hgone, -⟩ := @RoleDescriptor.removeMembership_spec r name false
    have hb : r.builtin = false := by
      by_contra hb
      exact hskip (by rw [eq_true_of_ne_false hb]; rfl)
    obtain ⟨hsince, -, hmember⟩ :=
      h.put hs (hbuiltin.symm.trans hb) (hs.ne_public hr) ⟨hrest.1, hrest.2.trans hb⟩
      (hnodup.sublist hfewer) fun p hp => .inl ((member_of_lookup hr).mpr (hfewer.subset hp))
    refine ⟨hsince, fun a hab _ => ?_⟩
    have hab := (hmember a name).mp hab
    split at hab
    · exact absurd hab (hgone hnodup rfl)
    · exact ⟨by assumption, hab⟩

theorem dropMembers_since {l : List RoleDescriptor} (hl : ∀ r ∈ l, s.lookupRole r.name = some r)
    (h : Since s (fun _ _ => False) st) :
    Since s (fun _ _ => False) (l.foldl (dropMember name) st) ∧
      ∀ a, (l.foldl (dropMember name) st).Member a name → a ≠ name →
        (∀ r ∈ l, a ≠ r.name) ∧ st.Member a name := by
  induction l generalizing st with
  | nil => exact ⟨h, fun a hab _ => ⟨fun r hr => absurd hr not_mem_nil, hab⟩⟩
  | cons r l ih =>
    obtain ⟨hone, hfirst⟩ := dropMember_since name hs (hl r mem_cons_self) h
    obtain ⟨hend, hrest⟩ := ih (fun r hr => hl r (mem_cons_of_mem _ hr)) hone
    refine ⟨hend, fun a hab hne => ?_⟩
    obtain ⟨hall, hab⟩ := hrest a hab hne
    obtain ⟨hr, hab⟩ := hfirst a hab hne
    exact ⟨forall_mem_cons.mpr ⟨hr, hall⟩, hab⟩

end

theorem mem_listRoles {r : RoleDescriptor} (h : s.Kept) :
    r ∈ s.listRoles ↔ s.lookupRole r.name = some r := by
  unfold listRoles
  rw [mem_filterMap]
  constructor
  · rintro ⟨n, _, hn⟩
    rw [(h.good n r hn).1]
    exact hn
  · intro hr
    refine ⟨r.name, ?_, hr⟩
    by_cases hroot : r.name = rootRole
    · rw [hroot]
      exact mem_cons_self
    refine mem_cons_of_mem _
      ((perm_insertionSort _ _).mem_iff.mpr (mem_filter.mpr ⟨?_, by simpa using hroot⟩))
    rw [mem_dedup, mem_append, mem_append]
    unfold lookupRole at hr
    split at hr
    · rename_i hb
      exact .inl (.inl (contains_iff_mem.mp hb))
    split at hr
    · rename_i d hd
      exact .inl (.inr (mem_keys.mp (lookup_isSome.mp (by rw [hd]; rfl))))
    split at hr
    · rename_i d hd
      obtain ⟨v, hv, _⟩ := Option.map_eq_some_iff.mp hd
      exact .inr (mem_keys.mp (lookup_isSome.mp (by rw [hv]; rfl)))
    · cases hr

theorem dropOne_sound {t : DropRole} {owns : String → Bool} (h : s.Kept) (hacyclic : s.Acyclic)
    (hs : dropOne who t owns s name = .ok s') : s'.Kept ∧ s'.Acyclic := by
  obtain ⟨hreserved, hs⟩ := ite_error_eq_ok hs
  obtain ⟨_, hs⟩ := ite_error_eq_ok hs
  push Not at hreserved
  have hbuiltin := (Bool.not_eq_true _).mp hreserved.2.1
  split at hs
  · split_ifs at hs
    cases hs
    exact ⟨h, hacyclic⟩
  · obtain ⟨_, hs⟩ := ite_error_eq_ok hs
    cases hs
    split
    · rename_i hfinal
      obtain ⟨hsince, hgone⟩ :=
        dropMembers_since name h (fun r hr => (mem_listRoles h).mp hr) (since_self h hfinal)
      generalize hst : s.listRoles.foldl (dropMember name) s = st at hsince hgone
      have hlookup := fun m => lookupRole_deleteRole (s := st) hbuiltin hreserved.1 m
      have hmember : ∀ a b, (st.deleteRole name).Member a b →
          s.Member a b ∧ st.Member a b ∧ b ≠ name := by
        intro a b hab
        obtain ⟨d, hd, hb⟩ := member_iff.mp hab
        rw [hlookup] at hd
        split_ifs at hd with ha
        have hold := (member_of_lookup hd).mpr hb
        have hmem := (hsince.added a b hold).resolve_right id
        refine ⟨hmem, hold, ?_⟩
        rintro rfl
        obtain ⟨d₀, hd₀, _⟩ := member_iff.mp hmem
        exact (hgone a hold ha).1 d₀ ((mem_listRoles h).mpr ((h.good a d₀ hd₀).1.symm ▸ hd₀))
          (h.good a d₀ hd₀).1.symm
      refine ⟨⟨?_, ?_, ?_, .inl hsince.final⟩, Marking.acyclic_add (N := fun _ _ => False) hacyclic
        (fun a b hab => .inl (hmember a b hab).1)
        fun _ _ _ _ hno => hno.elim⟩
      · intro n d hd
        rw [hlookup] at hd
        split_ifs at hd
        exact hsince.kept.good n d hd
      · rw [hlookup]
        split
        · rfl
        · exact hsince.kept.noPublic
      · intro a b hab
        obtain ⟨-, hst, hne⟩ := hmember a b hab
        unfold Known
        rw [hlookup, if_neg hne]
        exact hsince.kept.targets a b hst
    · rename_i hfinal
      have hempty := h.layout.resolve_left hfinal
      refine sound_of_empty ?_ ?_
      · unfold deleteRole
        rw [hempty]
        rfl
      · unfold deleteRole
        rw [lookup_erase_ne (fun heq => hreserved.2.2 heq.symm)]
        exact lookup_users_of_none h.noPublic

end Drop

/-! ### Runs -/

theorem mem_effective_iff {s : RoleStore} (h : s.lookupRole publicRole = none) (x y : String) :
    y ∈ (lazyRoleGraph s).effective x ↔ y = publicRole ∨ (x = rootRole ∧ y = adminRole) ∨
      ReflTransGen (fun a b => b ∈ (lazyRoleGraph s).inherited a) x y := by
  have hset : ∀ b ∈ [x, publicRole] ++ (if x = rootRole then [adminRole] else []),
      b = x ∨ b = publicRole ∨ (x = rootRole ∧ b = adminRole) := by
    intro b hb
    split at hb <;> simp_all
  have hnowhere : ∀ b, b = publicRole ∨ b = adminRole → (lazyRoleGraph s).inherited b = [] := by
    rintro b (rfl | rfl)
    · unfold RoleGraph.inherited
      rw [show (lazyRoleGraph s).role publicRole = none from h]
    · rfl
  have hiff := Marking.mem_walk_iff (lazyRoleGraph s).inherited_mentioned
    (length_filter_le _ _) (mem_append_left _ mem_cons_self) (fun b hb hne => by
      rcases hset b hb with hx | hb | ⟨_, hb⟩
      · exact absurd hx hne
      · exact hnowhere b (.inl hb)
      · exact hnowhere b (.inr hb)) y
  refine hiff.trans ⟨?_, ?_⟩
  · rintro (hy | hy)
    · rcases hset y hy with rfl | hy | hy
      · exact .inr (.inr .refl)
      · exact .inl hy
      · exact .inr (.inl hy)
    · exact .inr (.inr hy)
  · rintro (rfl | ⟨rfl, rfl⟩ | hy)
    · exact .inl (by simp)
    · exact .inl (by simp)
    · exact .inr hy

theorem exec_sound {s s' : RoleStore} {a : RoleStatement} (h : s.Kept ∧ s.Acyclic)
    (hlooks : Looks s a) (hs : s.exec a = some s') : s'.Kept ∧ s'.Acyclic := by
  cases a with
  | create who t => exact createRole_sound h.1 h.2 hlooks (Fallible.ok_of_toOption hs)
  | grant who t => exact grantRole_sound h.1 h.2 (Fallible.ok_of_toOption hs)
  | drop who t owns =>
    have hs := Fallible.ok_of_toOption hs
    obtain ⟨_, _, hs⟩ := bind_eq_ok.mp hs
    exact foldlM_invariant (I := fun s => s.Kept ∧ s.Acyclic)
      (fun _ _ _ _ h hs => dropOne_sound h.1 h.2 hs) h hs

/-- From a cluster without role descriptors, in every run of statements that succeed and in
which no ALTER ROLE adds a membership in a role that leads back: no role leads to itself, and
the graph answers with the roles that memberships lead to, and with those whose privileges are
inherited. -/
theorem role_graph_sound (start : RoleStore) (hroles : start.roles = ∅)
    (hpublic : start.users.lookup publicRole = none) (statements : List RoleStatement)
    (s : RoleStore) (hlooks : Runs.Guarded exec Looks start statements)
    (hrun : run exec start statements = some s) :
    (∀ x, ¬ TransGen s.Member x x) ∧
    (∀ x y, y ∈ (lazyRoleGraph s).reachable x ↔ ReflTransGen s.Member x y) ∧
    ∀ x y, y ∈ (lazyRoleGraph s).effective x ↔ y = publicRole ∨ (x = rootRole ∧ y = adminRole) ∨
      ReflTransGen (fun a b => b ∈ (lazyRoleGraph s).inherited a) x y := by
  obtain ⟨hkept, hacyclic⟩ :=
    invariant_of_run (I := fun s => s.Kept ∧ s.Acyclic) (fun _ _ _ h hl hs => exec_sound h hl hs)
    (sound_of_empty hroles hpublic) hlooks hrun
  exact ⟨hacyclic, RoleGraph.mem_reachable_iff, mem_effective_iff hkept.noPublic⟩

namespace Circle

def root : Session := { user := rootRole, sessionUser := rootRole }

def role (name : String) (inRoles : List String) : RoleStatement :=
  .create root { alter := false, name := name, inRoles := inRoles }

def start : RoleStore := { finalized := true }

theorem members_resolved : ∃ s, run exec start [role "a" [], role "b" ["a"]] = some s ∧
    ∀ x, ¬ TransGen s.Member x x := by
  refine exists_of_run (fun _ => True) (by decide +kernel) fun s hs _ => ?_
  refine (role_graph_sound start rfl rfl _ s ?_ hs).1
  exact ⟨fun h => (by cases h), fun _ _ => ⟨fun h => (by cases h), fun _ _ => trivial⟩⟩

/-- Role b is made a member of a, and then a one of b. -/
theorem alter_closes_circle : ∃ s, run exec start
    [role "a" [], role "b" ["a"], .create root { alter := true, name := "a", inRoles := ["b"] }] =
      some s ∧ s.Member "a" "b" ∧ s.Member "b" "a" := by
  refine exists_of_run
    (fun s => "b" ∈ (lazyRoleGraph s).parents "a" ∧ "a" ∈ (lazyRoleGraph s).parents "b")
      (by decide +kernel) ?_
  exact fun s _ h => h

end Circle

end Datax.Roles
