import Datax.Shared.Marking
import Mathlib.Data.List.AList
import Mathlib.Data.List.Sort
import Mathlib.Data.String.Basic

/-!
# Roles

A role is a descriptor under its (lower-cased) name: may it log in, does it inherit, and which
roles it is a member of. The built-in roles have none. Before the cluster is finalized there
are only users with a password and markers for admins; both layouts are read until the
migration has moved the old one.
-/

namespace Datax.Roles

open Option List

def adminRole : String := "admin"
def readAllRole : String := "read_all"
def writeAllRole : String := "write_all"
def metricsRole : String := "metrics"
def publicRole : String := "public"
def rootRole : String := "root"

def nodePrincipal : String := "node"

def builtinRoles : List String := [adminRole, readAllRole, writeAllRole, metricsRole]

def isBuiltinRole (name : String) : Bool := builtinRoles.contains name

inductive Refusal where
  | insufficientPriv | invalidGrantOperation | invalidParameterValue | featureNotSupported
  | undefinedObject
  | undefinedDatabase | duplicateObject | dependentObjectsExist | objectInUse | syntaxError
  deriving DecidableEq, Repr

structure RoleMembership where
  role : String
  admin : Bool := false
  deriving DecidableEq, Repr

structure RoleDescriptor where
  name : String
  login : Bool := false
  noInherit : Bool := false
  verifier : Option String := none
  memberOf : List RoleMembership := []
  builtin : Bool := false
  legacy : Bool := false
  deriving DecidableEq, Repr

namespace RoleDescriptor

/-- Whether with the admin option, for a direct member. -/
def isMemberOf (d : RoleDescriptor) (role : String) : Option Bool :=
  (d.memberOf.find? (·.role == role)).map RoleMembership.admin

/-- The admin option of the first membership in the role. -/
def setAdmin (role : String) (admin : Bool) : List RoleMembership → List RoleMembership
  | [] => []
  | m :: ms =>
    if m.role = role then { m with admin := admin } :: ms else m :: setAdmin role admin ms

/-- Adds or upgrades a direct membership; was there anything to change? -/
def addMembership (d : RoleDescriptor) (role : String) (admin : Bool) : RoleDescriptor × Bool :=
  match d.isMemberOf role with
  | some had =>
    if admin && !had then ({ d with memberOf := setAdmin role true d.memberOf }, true)
    else (d, false)
  | none =>
    let members := d.memberOf ++ [⟨role, admin⟩]
    ({ d with memberOf := members.insertionSort fun a b => a.role ≤ b.role }, true)

/-- Drops a direct membership, or only its admin option. -/
def removeMembership (d : RoleDescriptor) (role : String) (adminOnly : Bool) :
    RoleDescriptor × Bool :=
  match d.isMemberOf role with
  | none => (d, false)
  | some had =>
    if adminOnly then
      if had then ({ d with memberOf := setAdmin role false d.memberOf }, true) else (d, false)
    else ({ d with memberOf := d.memberOf.eraseP (·.role == role) }, true)

def parents (d : RoleDescriptor) : List String := d.memberOf.map RoleMembership.role

end RoleDescriptor

/-! ### The stored roles -/

/-- The descriptors, and the users and admin markers of the old layout. -/
structure RoleStore where
  finalized : Bool
  roles : AList fun _ : String => RoleDescriptor := ∅
  users : AList fun _ : String => String := ∅
  admins : List String := []

def builtinRole (name : String) : RoleDescriptor := { name := name, builtin := true }

namespace RoleStore
variable (s : RoleStore)

def lookupLegacyRole (name : String) : Option RoleDescriptor :=
  (s.users.lookup name).map fun verifier =>
    { name := name, login := true, verifier := some verifier, legacy := true
      memberOf := if s.admins.contains name then [⟨adminRole, false⟩] else [] }

def lookupRole (name : String) : Option RoleDescriptor :=
  if isBuiltinRole name then some (builtinRole name)
  else
    match s.roles.lookup name with
    | some d => some d
    | none =>
      match s.lookupLegacyRole name with
      | some d => some d
      | none => if name = rootRole then some { name := rootRole, login := true } else none

/-- Every name that has a role: root first, then by name. -/
def roleNames : List String :=
  rootRole :: ((builtinRoles ++ s.roles.keys ++ s.users.keys).dedup.filter
    (· ≠ rootRole)).insertionSort (· ≤ ·)

def listRoles : List RoleDescriptor := s.roleNames.filterMap s.lookupRole

def putRole (d : RoleDescriptor) : RoleStore :=
  { s with
    roles := s.roles.insert d.name { d with legacy := false }
    users := s.users.erase d.name
    admins := s.admins.filter (· ≠ d.name) }

def deleteRole (name : String) : RoleStore :=
  { s with
    roles := s.roles.erase name
    users := s.users.erase name, admins := s.admins.filter (· ≠ name) }

end RoleStore

/-! ### The membership graph -/

/-- Roles that have been read, and where to read others. -/
structure RoleGraph where
  roles : List (String × Option RoleDescriptor)
  reader : Option RoleStore

def lazyRoleGraph (s : RoleStore) : RoleGraph := ⟨[], some s⟩

namespace RoleGraph
variable (g : RoleGraph)

def role (name : String) : Option RoleDescriptor :=
  match g.roles.lookup name with
  | some d => d
  | none => g.reader.bind (·.lookupRole name)

def remember (names : List String) : RoleGraph :=
  { g with roles := g.roles ++ names.map fun n => (n, g.role n) }

def parents (name : String) : List String := ((g.role name).map RoleDescriptor.parents).getD []

def inherited (name : String) : List String :=
  match g.role name with
  | some d => if d.noInherit then [] else d.parents
  | none => []

def mentioned : List String :=
  (g.roles.filterMap Prod.snd).flatMap RoleDescriptor.parents ++
    (g.reader.map fun s =>
      s.roles.entries.flatMap fun e => RoleDescriptor.parents e.2).getD [] ++ [adminRole]

def effective (name : String) : List String :=
  let set := [name, publicRole] ++ if name = rootRole then [adminRole] else []
  Marking.walk g.inherited g.mentioned.length set name

def reachable (name : String) : List String := Marking.walk g.parents g.mentioned.length [name] name

end RoleGraph

def isAdminSet (set : List String) : Bool := set.contains rootRole || set.contains adminRole

/-! ### What the graph answers -/

variable {s : RoleStore} {name : String} {d : RoleDescriptor}

theorem lookup_mem_entries (h : s.roles.lookup name = some d) :
    ⟨name, d⟩ ∈ s.roles.entries := AList.mem_lookup_iff.mp h

theorem RoleStore.parents_mem (h : s.lookupRole name = some d) :
    ∀ p ∈ d.parents, p = adminRole ∨ ∃ e ∈ s.roles.entries, p ∈ RoleDescriptor.parents e.2 := by
  intro p hp
  unfold lookupRole at h
  split at h
  · cases h
    cases hp
  split at h
  · rename_i d' hd'
    cases h
    exact .inr ⟨_, lookup_mem_entries hd', hp⟩
  · split at h
    · rename_i d' hd'
      cases h
      obtain ⟨v, _, rfl⟩ := map_eq_some_iff.mp hd'
      split at hp
      · exact .inl (mem_singleton.mp hp)
      · cases hp
    · split_ifs at h
      cases h
      cases hp

namespace RoleGraph
variable {g : RoleGraph}

theorem parents_mentioned (name : String) : ∀ p ∈ g.parents name, p ∈ g.mentioned := by
  intro p hp
  unfold parents at hp
  cases hrole : g.role name with
  | none =>
    simp [hrole] at hp
  | some d =>
    rw [hrole, map_some, getD_some] at hp
    unfold mentioned
    rw [append_assoc, mem_append]
    unfold role at hrole
    split at hrole
    · rename_i d' hd'
      subst hrole
      obtain ⟨before, after, hsplit, _⟩ := lookup_eq_some_iff.mp hd'
      have hmem : (name, some d) ∈ g.roles := hsplit ▸ mem_append_right _ mem_cons_self
      exact .inl (mem_flatMap.mpr ⟨d, mem_filterMap.mpr ⟨_, hmem, rfl⟩, hp⟩)
    · obtain ⟨s, hs, hd⟩ := bind_eq_some_iff.mp hrole
      rw [hs, map_some, getD_some, mem_append]
      rcases RoleStore.parents_mem hd p hp with rfl | ⟨e, he, hp⟩
      · exact .inr (.inr mem_cons_self)
      · exact .inr (.inl (mem_flatMap.mpr ⟨e, he, hp⟩))

theorem inherited_mentioned (name : String) : ∀ p ∈ g.inherited name, p ∈ g.mentioned := by
  intro p hp
  refine parents_mentioned name p ?_
  unfold inherited at hp
  unfold parents
  split at hp
  · rename_i d hd
    rw [hd, map_some, getD_some]
    split at hp
    · cases hp
    · exact hp
  · cases hp

theorem mem_reachable_iff (x y : String) :
    y ∈ g.reachable x ↔ Relation.ReflTransGen (fun a b => b ∈ g.parents a) x y := by
  have hroom : Marking.unmarked g.mentioned [x] ≤ g.mentioned.length := length_filter_le _ _
  have hiff := Marking.mem_walk_iff g.parents_mentioned hroom mem_cons_self
    (fun b hb hne => absurd (mem_singleton.mp hb) hne) y
  refine hiff.trans ⟨?_, .inr⟩
  rintro (hy | hy)
  · rw [mem_singleton.mp hy]
  · exact hy

end RoleGraph

end Datax.Roles
