import Datax.Sql.Roles

/-!
# Privileges

An object records, for each grantee, the privileges granted and those among them that may be
granted on. A database records what its new objects start with.
-/

namespace Datax.Roles

inductive Priv where
  | select | insert | update | delete | truncate | usage | create | connect
  deriving DecidableEq, Repr

inductive ObjectKind where
  | table | sequence | database | schema
  deriving DecidableEq, Repr

def privOrderFor : ObjectKind → List Priv
  | .table => [.select, .insert, .update, .delete, .truncate]
  | .sequence => [.usage, .select, .update]
  | .database => [.create, .connect]
  | .schema => [.usage, .create]

inductive PrivWord where
  | all
  | priv (p : Priv)
  deriving DecidableEq, Repr

def PrivWord.names (order : List Priv) : PrivWord → List Priv
  | .all => order
  | .priv p => [p]

def expandPrivileges (words : List PrivWord) (kind : ObjectKind) : Except Refusal (List Priv) :=
  let order := privOrderFor kind
  let set := words.flatMap (PrivWord.names order)
  if set.all order.contains then .ok (order.filter set.contains) else .error .invalidGrantOperation

/-! ### Privilege maps -/

/-- The privileges of each grantee; a grantee left with nothing disappears. -/
abbrev PrivMap := String → Option (List Priv)

def orderedPrivs (set order : List Priv) : List Priv :=
  order.filter set.contains ++ (set.filter fun p => !order.contains p).dedup

def addPrivileges (m : PrivMap) (grantee : String) (privs order : List Priv) : PrivMap × Bool :=
  let cur := (m grantee).getD []
  if privs.all cur.contains then (m, false)
  else (Function.update m grantee (some (orderedPrivs (cur ++ privs) order)), true)

def removePrivileges (m : PrivMap) (grantee : String) (privs order : List Priv) : PrivMap × Bool :=
  let cur := (m grantee).getD []
  let rest := cur.filter fun p => !privs.contains p
  if !privs.any cur.contains then (m, false)
  else if rest.isEmpty then (Function.update m grantee none, true)
  else (Function.update m grantee (some (orderedPrivs rest order)), true)

/-- What is granted on an object, and what of it may be granted on. -/
structure Grants where
  privileges : PrivMap := fun _ => none
  grantOptions : PrivMap := fun _ => none

/-- One grantee's part of a GRANT or REVOKE; was there anything to change? -/
def applyGrant (gs : Grants) (grantee : String) (set order : List Priv)
    (revoke optionOnly withOption : Bool) :
    Grants × Bool :=
  if revoke && optionOnly then
    let (options, changed) := removePrivileges gs.grantOptions grantee set order
    ({ gs with grantOptions := options }, changed)
  else if revoke then
    let (privs, changed) := removePrivileges gs.privileges grantee set order
    let (options, changed') := removePrivileges gs.grantOptions grantee set order
    (⟨privs, options⟩, changed || changed')
  else
    let (privs, changed) := addPrivileges gs.privileges grantee set order
    if withOption then
      let (options, changed') := addPrivileges gs.grantOptions grantee set order
      (⟨privs, options⟩, changed || changed')
    else ({ gs with privileges := privs }, changed)

/-! ### Databases -/

inductive DefaultKind where
  | tables | sequences
  deriving DecidableEq, Repr

def DefaultKind.object : DefaultKind → ObjectKind
  | .tables => .table
  | .sequences => .sequence

structure DefaultPrivilege where
  forRole : String
  object : DefaultKind
  grantee : String
  privileges : List Priv := []
  grantOption : Bool := false
  deriving DecidableEq, Repr

structure Database where
  id : Nat
  name : String
  defaultPrivileges : List DefaultPrivilege := []

structure Catalog where
  roles : RoleStore
  databases : List Database

def defaultDatabase : String := "datax"

def ownerOf (owner : String) : String := if owner = "" then rootRole else owner

namespace Catalog
variable (c : Catalog)

def readDatabase (id : Nat) : Option Database :=
  if id = 0 then none else c.databases.find? (·.id == id)

/-- A default database without a descriptor is the flat namespace. -/
def lookupDatabase (name : String) : Except Refusal Database :=
  match c.databases.find? (·.name == name) with
  | some db => .ok db
  | none => if name = defaultDatabase then .ok { id := 0, name := defaultDatabase }
    else .error .undefinedDatabase

end Catalog

/-! ### Who may do what -/

structure Session where
  user : String
  sessionUser : String
  /-- The view owner while a view's query runs. -/
  privAs : String := ""
  database : String := defaultDatabase

def Session.actor (s : Session) : String := if s.privAs = "" then s.user else s.privAs

section Checks
variable (c : Catalog) (s : Session)

def roleSet : List String := (lazyRoleGraph c.roles).effective s.actor

def resolveGrantees (names : List String) : Except Refusal (List String) :=
  if names.all fun n =>
    n == publicRole || (c.roles.lookupRole n).isSome || !c.roles.finalized then .ok names
  else .error .undefinedObject

end Checks

end Datax.Roles
