import Datax.Shared.Keyed
import Datax.Shared.Runs
import Datax.Sql.Privileges

/-!
# Default privileges

ALTER DEFAULT PRIVILEGES keeps, for each creator, kind of object and grantee, a list of privileges
and one flag for the grant option. Against what they give a new object stands the replay: the same
statements as grants on an object that starts with none. One flag cannot say that only some
privileges may be granted on.
-/

namespace Datax.Roles

open Function

structure AlterDefaultPrivileges where
  objectKind : DefaultKind
  privileges : List PrivWord
  forRoles : List String
  grantees : List String
  revoke : Bool
  grantOption : Bool

def DefaultPrivilege.isFor (role : String) (kind : DefaultKind) (grantee : String)
    (dp : DefaultPrivilege) : Bool :=
  dp.forRole == role && dp.object == kind && dp.grantee == grantee

def onlyGrantee (grantee : String) (privs : List Priv) : PrivMap :=
  Function.update (fun _ => none) grantee (some privs)

section Rule
variable (t : AlterDefaultPrivileges) (privs : List Priv)

def DefaultPrivilege.granted (dp : DefaultPrivilege) : DefaultPrivilege :=
  let m := (addPrivileges (onlyGrantee dp.grantee dp.privileges) dp.grantee privs
    (privOrderFor t.objectKind.object)).1
  { dp with privileges := (m dp.grantee).getD [], grantOption := dp.grantOption || t.grantOption }

def DefaultPrivilege.revoked (dp : DefaultPrivilege) : Option DefaultPrivilege :=
  if t.grantOption then some { dp with grantOption := false }
  else
    let m := (removePrivileges (onlyGrantee dp.grantee dp.privileges) dp.grantee privs
      (privOrderFor t.objectKind.object)).1
    let rest := (m dp.grantee).getD []
    if rest.isEmpty then none else some { dp with privileges := rest }

def DefaultPrivilege.altered (dp : DefaultPrivilege) : Option DefaultPrivilege :=
  if t.revoke then dp.revoked t privs else some (dp.granted t privs)

def editRule (p : DefaultPrivilege → Bool) (f : DefaultPrivilege → Option DefaultPrivilege) :
    List DefaultPrivilege → List DefaultPrivilege
  | [] => []
  | dp :: rest => if p dp then (f dp).toList ++ rest else dp :: editRule p f rest

def alterRule (rules : List DefaultPrivilege) (pair : String × String) : List DefaultPrivilege :=
  let p := DefaultPrivilege.isFor pair.1 t.objectKind pair.2
  if rules.any p then editRule p (DefaultPrivilege.altered t privs) rules
  else if t.revoke then rules
  else rules ++ [DefaultPrivilege.granted t privs
    { forRole := pair.1, object := t.objectKind, grantee := pair.2 }]

end Rule

section Statement
variable (c : Catalog) (s : Session)

/-- Without a FOR ROLE clause the statement is about the current role. -/
def AlterDefaultPrivileges.creators (t : AlterDefaultPrivileges) : List String :=
  if t.forRoles.isEmpty then [s.user] else t.forRoles

def AlterDefaultPrivileges.pairs (t : AlterDefaultPrivileges) : List (String × String) :=
  (t.creators s).flatMap fun r => t.grantees.map fun g => (r, g)

def checkCreator (r : String) : Except Refusal Unit :=
  if (c.roles.lookupRole r).isNone then .error .undefinedObject
  else if !isAdminSet (roleSet c s) && !(roleSet c s).contains r then .error .insufficientPriv
  else .ok ()

def Catalog.updateDatabase (db : Database) : Catalog :=
  { c with databases := Keyed.replace Database.id c.databases db }

def execAlterDefaultPrivileges (t : AlterDefaultPrivileges) : Except Refusal Catalog := do
  if !c.roles.finalized then throw .featureNotSupported
  let privs ← expandPrivileges t.privileges t.objectKind.object
  (t.creators s).forM (checkCreator c s)
  let _ ← resolveGrantees c t.grantees
  let db ← c.lookupDatabase s.database
  if db.id = 0 then throw .featureNotSupported
  return c.updateDatabase
    { db with defaultPrivileges := (t.pairs s).foldl (alterRule t privs) db.defaultPrivileges }

def applyRule (owner : String) (kind : DefaultKind) (gs : Grants) (dp : DefaultPrivilege) :
    Grants :=
  if dp.object ≠ kind ∨ dp.forRole ≠ ownerOf owner then gs
  else (applyGrant gs dp.grantee dp.privileges (privOrderFor kind.object) false false
    dp.grantOption).1

def applyDefaultPrivileges (dbID : Nat) (owner : String) (kind : DefaultKind) (gs : Grants) :
    Grants :=
  match c.readDatabase dbID with
  | none => gs
  | some db => db.defaultPrivileges.foldl (applyRule owner kind) gs

end Statement

/-! ### One grantee's entry -/

def added (cur : Option (List Priv)) (privs order : List Priv) : Option (List Priv) :=
  if privs.all (cur.getD []).contains then cur else some (orderedPrivs (cur.getD [] ++ privs) order)

def removed (cur : Option (List Priv)) (privs order : List Priv) : Option (List Priv) :=
  let rest := (cur.getD []).filter fun p => !privs.contains p
  if !privs.any (cur.getD []).contains then cur
  else if rest.isEmpty then none
  else some (orderedPrivs rest order)

theorem addPrivileges_eq (m : PrivMap) (grantee : String) (privs order : List Priv) :
    (addPrivileges m grantee privs order).1 =
      Function.update m grantee (added (m grantee) privs order) := by
  unfold addPrivileges added
  simp only
  split
  · exact (update_eq_self grantee m).symm
  · rfl

theorem removePrivileges_eq (m : PrivMap) (grantee : String) (privs order : List Priv) :
    (removePrivileges m grantee privs order).1 =
      Function.update m grantee (removed (m grantee) privs order) := by
  unfold removePrivileges removed
  simp only
  split
  · exact (update_eq_self grantee m).symm
  · split <;> rfl

def granting (privs order : List Priv) (revoke optionOnly withOption : Bool)
    (cur : Option (List Priv) × Option (List Priv)) : Option (List Priv) × Option (List Priv) :=
  if revoke then (if optionOnly then cur.1 else removed cur.1 privs order,
    removed cur.2 privs order)
  else (added cur.1 privs order, if withOption then added cur.2 privs order else cur.2)

def Grants.entry (gs : Grants) (grantee : String) : Option (List Priv) × Option (List Priv) :=
  (gs.privileges grantee, gs.grantOptions grantee)

theorem Grants.ext_entry {gs gs' : Grants} (h : ∀ g, gs.entry g = gs'.entry g) : gs = gs' := by
  obtain ⟨p, o⟩ := gs
  obtain ⟨p', o'⟩ := gs'
  have hp : p = p' := funext fun g => (Prod.mk.inj (h g)).1
  have ho : o = o' := funext fun g => (Prod.mk.inj (h g)).2
  rw [hp, ho]

theorem entry_applyGrant (gs : Grants) (grantee : String) (set order : List Priv)
    (revoke optionOnly withOption : Bool) (g : String) :
    (applyGrant gs grantee set order revoke optionOnly withOption).1.entry g =
      if g = grantee then granting set order revoke optionOnly withOption (gs.entry grantee)
      else gs.entry g := by
  have hset : ∀ (m : PrivMap) (v : Option (List Priv)),
      Function.update m grantee v g = if g = grantee then v else m g := by
    intro m v
    by_cases h : g = grantee
    · rw [h, update_self, if_pos rfl]
    · rw [update_of_ne h, if_neg h]
  unfold applyGrant granting Grants.entry
  cases revoke with
  | true =>
    cases optionOnly with
    | true =>
      simp only [Bool.and_self, if_true, removePrivileges_eq, hset]
      split
      · rename_i h
        rw [h]
      · rfl
    | false =>
      simp only [Bool.and_false, Bool.false_eq_true, if_false, if_true, removePrivileges_eq, hset]
      split <;> rfl
  | false =>
    cases withOption with
    | true =>
      simp only [Bool.false_and, Bool.false_eq_true, if_false, if_true, addPrivileges_eq, hset]
      split <;> rfl
    | false =>
      simp only [Bool.false_and, Bool.false_eq_true, if_false, addPrivileges_eq, hset]
      split
      · rename_i h
        rw [h]
      · rfl

end Datax.Roles
