import Datax.Shared.Fallible
import Datax.Sql.Privileges

/-!
# Statements on roles

CREATE and ALTER ROLE, GRANT and REVOKE of roles, and DROP ROLE, on the stored roles. What a
dropped role owns is given with the statement. GRANT asks a graph that it builds as it goes:
a role once read is not read again, although the statement itself may have changed it.
-/

namespace Datax.Roles

structure CreateRole where
  alter : Bool
  isUser : Bool := false
  ifNotExists : Bool := false
  name : String
  login : Option Bool := none
  inherit : Option Bool := none
  /-- The empty text is PASSWORD NULL. -/
  password : Option String := none
  inRoles : List String := []

structure GrantRole where
  roles : List String
  grantees : List String
  revoke : Bool := false
  adminOption : Bool := false

structure DropRole where
  names : List String
  ifExists : Bool := false

def reservedRoleName (name : String) : Except Refusal Unit :=
  if name = nodePrincipal ∨ name = publicRole ∨ isBuiltinRole name then .error
    .invalidParameterValue
  else if name = "" then .error .syntaxError
  else .ok ()

namespace RoleStore
variable (s : RoleStore) (who : Session)

def isAdminSession : Bool :=
  who.actor == rootRole || isAdminSet ((lazyRoleGraph s).effective who.actor)

def checkAdmin : Except Refusal Unit :=
  if s.isAdminSession who then .ok () else .error .insufficientPriv

def checkExists (name : String) : Except Refusal RoleDescriptor :=
  match s.lookupRole name with
  | some d => .ok d
  | none => .error .undefinedObject

def execCreateRoleLegacy (t : CreateRole) : Except Refusal RoleStore :=
  if t.login = some false ∨ t.inherit.isSome ∨ t.inRoles ≠ [] ∨
    (t.isUser = false ∧ t.login = none) ∨ t.password = some "" then
    .error .featureNotSupported
  else
    match s.users.lookup t.name, t.alter, t.password with
    | none, true, _ => .error .undefinedObject
    | some _, false, _ => if t.ifNotExists then .ok s else .error .duplicateObject
    | _, true, none => .ok s
    | _, false, none => .error .syntaxError
    | _, _, some p => .ok { s with users := s.users.insert t.name p }

def checkParent (t : CreateRole) (r : String) : Except Refusal Unit := do
  let _ ← s.checkExists r
  if r = t.name then .error .invalidGrantOperation else .ok ()

def applyOptions (t : CreateRole) (d : RoleDescriptor) : RoleDescriptor :=
  { d with
    login := t.login.getD d.login
    noInherit := (t.inherit.map (!·)).getD d.noInherit
    verifier := match t.password with
      | none => d.verifier
      | some p => if p = "" then none else some p }

def addParent (d : RoleDescriptor) (r : String) : RoleDescriptor := (d.addMembership r false).1

def putOptions (t : CreateRole) (d : RoleDescriptor) : Except Refusal RoleStore := do
  if t.name = rootRole ∧ (t.login = some false ∨ t.password = some "") then
    throw .featureNotSupported
  t.inRoles.forM (s.checkParent t)
  return s.putRole (t.inRoles.foldl addParent (applyOptions t d))

/-- Admins only, except that a role may change its own password. -/
def checkMayCreate (t : CreateRole) : Except Refusal Unit :=
  let selfPassword :=
    t.alter && t.name == who.user && t.login.isNone && t.inherit.isNone && t.inRoles.isEmpty &&
    t.password.any (· != "")
  if selfPassword then .ok () else s.checkAdmin who

def execCreateRole (t : CreateRole) : Except Refusal RoleStore := do
  reservedRoleName t.name
  s.checkMayCreate who t
  if !s.finalized then s.execCreateRoleLegacy t
  else
    match s.lookupRole t.name, t.alter with
    | none, true => .error .undefinedObject
    | some d, true => s.putOptions t d
    | some _, false => if t.ifNotExists then .ok s else .error .duplicateObject
    | none, false => s.putOptions t { name := t.name, login := t.isUser }

def execGrantRoleLegacy (t : GrantRole) : Except Refusal RoleStore :=
  match t.roles, t.grantees with
  | [r], [user] =>
    if r ≠ adminRole ∨ t.adminOption then .error .featureNotSupported
    else do
      s.checkAdmin who
      if user = rootRole then .error .featureNotSupported
      else .ok { s with
        admins := if t.revoke then s.admins.filter (· ≠ user) else user :: s.admins }
  | _, _ => .error .featureNotSupported

def checkGrantee (r g : String) : Except Refusal Unit :=
  if g = publicRole ∨ isBuiltinRole g then .error .invalidGrantOperation
  else if g = rootRole ∧ r = adminRole then .error .featureNotSupported
  else if g = r then .error .invalidGrantOperation
  else .ok ()

def grantOne (t : GrantRole) (r : String) (st : RoleStore × RoleGraph) (g : String) :
    Except Refusal (RoleStore × RoleGraph) := do
  checkGrantee r g
  let gd ← st.1.checkExists g
  let graph : RoleGraph := { st.2 with reader := some st.1 }
  if !t.revoke && (graph.reachable r).contains g then .error .invalidGrantOperation
  else
    let x := if t.revoke then gd.removeMembership r t.adminOption
      else gd.addMembership r t.adminOption
    .ok (if x.2 || gd.legacy then st.1.putRole x.1 else st.1,
      if t.revoke then graph else graph.remember (graph.reachable r))

def grantRole (t : GrantRole) (mayGrant : String → Bool) (st : RoleStore × RoleGraph) (r : String) :
    Except Refusal (RoleStore × RoleGraph) := do
  let _ ← st.1.checkExists r
  if r = publicRole then .error .invalidGrantOperation
  else if !mayGrant r then .error .insufficientPriv
  else t.grantees.foldlM (grantOne t r) st

def execGrantRole (t : GrantRole) : Except Refusal RoleStore :=
  if !s.finalized then s.execGrantRoleLegacy who t
  else
    let mayGrant r :=
      s.isAdminSession who || ((s.lookupRole who.actor).bind fun d => d.isMemberOf r).getD false
    (t.roles.foldlM (grantRole t mayGrant) (s, lazyRoleGraph s)).map Prod.fst

def dropMember (name : String) (s : RoleStore) (r : RoleDescriptor) : RoleStore :=
  if r.builtin || r.name == name || (r.isMemberOf name).isNone then s
  else s.putRole (r.removeMembership name false).1

def dropOne (t : DropRole) (owns : String → Bool) (s : RoleStore) (name : String) :
    Except Refusal RoleStore :=
  if name = rootRole ∨ isBuiltinRole name ∨ name = publicRole then .error .featureNotSupported
  else if name = who.sessionUser then .error .objectInUse
  else if (s.lookupRole name).isNone then if t.ifExists then .ok s else .error .undefinedObject
  else if owns name then .error .dependentObjectsExist
  else .ok ((if s.finalized then s.listRoles.foldl (dropMember name) s else s).deleteRole name)

def execDropRole (t : DropRole) (owns : String → Bool) : Except Refusal RoleStore := do
  s.checkAdmin who
  t.names.foldlM (dropOne who t owns) s

end RoleStore

inductive RoleStatement where
  | create (who : Session) (t : CreateRole)
  | grant (who : Session) (t : GrantRole)
  | drop (who : Session) (t : DropRole) (owns : String → Bool)

def RoleStore.exec (s : RoleStore) : RoleStatement → Option RoleStore
  | .create who t => (s.execCreateRole who t).toOption
  | .grant who t => (s.execGrantRole who t).toOption
  | .drop who t owns => (s.execDropRole who t owns).toOption

end Datax.Roles
