import Akb.RoleSync.Roles
import Akb.Access.EffectiveRole
import Akb.Tables.Names
import Akb.Library.Fallible

/-! The catalog rows that the SQL roles project. -/
namespace Akb.RoleSync
open Akb.Library Akb.Native

structure User where
  id : Uuid
  /-- `account_status = 'active'`. -/
  active : Bool

structure Vault where
  id : Uuid
  name : String
  ownerId : Option Uuid
  publicAccess : Option String

/-- A row of `vault_tables`. -/
structure VaultTable where
  vaultId : Uuid
  name : String

structure VaultScope where
  prefixes : List String
  extraVaults : List String

/-- An empty prefix is ignored. -/
def VaultScope.permits (scope : VaultScope) (vaultName : String) : Bool :=
  scope.prefixes.any (fun text => text ≠ "" && text.toList.isPrefixOf vaultName.toList) ||
    scope.extraVaults.any (fun name => name = vaultName)

/-- A row of `tokens`; its `vault_scope` is none for NULL, and else what `VaultScope.from_db_json`
makes of the stored value. -/
structure Token where
  id : Uuid
  userId : Uuid
  vaultScope : Option (Except String (Option VaultScope))
  expiresAt : Option Int

/-- The catalog at a time; the foreign keys hold. -/
structure Catalog where
  users : Table User User.id
  vaults : Table Vault Vault.id
  grants : Access.Tables Uuid Uuid
  tables : List VaultTable
  tokens : Table Token Token.id
  now : Int
  accessKnown : ∀ a ∈ grants.access, (∃ v ∈ vaults, v.id = a.vaultId) ∧ ∃ u ∈ users, u.id = a.userId
  ownersKnown : ∀ v ∈ vaults, ∀ o ∈ v.ownerId, ∃ u ∈ users, u.id = o

/-! ### What a role is entitled to -/

def scopeOf : Access.Role → Option Scope
  | .reader => some .reader
  | .writer => some .writer
  | .admin => some .admin
  | .owner => none

/-- `vault_group_role_name`, which raises for a role that is no scope. -/
def groupRoleName (vaultId : Uuid) (role : Access.Role) : Except PgError String :=
  match scopeOf role with
  | some scope => .ok (vaultGroupRoleName vaultId scope)
  | none => .error (.refused "invalid scope: 'owner'")

def publicAccessScope (level : String) : Option Scope :=
  if level = "reader" then some .reader else if level = "writer" then some .writer else none

namespace Catalog
variable (c : Catalog)

def memberRole? (vaultId userId : Uuid) : Option Access.Role := Access.currentEffectiveRole c.grants vaultId userId

/-- `_fetch_user_accessible`: the explicit grants, then the owned vaults. -/
def accessible (userId : Uuid) : List (Uuid × String × Access.Role) :=
  (c.grants.access.rows.filter (fun a => a.userId = userId)).flatMap (fun a =>
      (c.vaults.rows.filter (fun v => v.id = a.vaultId)).map (fun v => (v.id, v.name, a.role))) ++
    (c.vaults.rows.filter (fun v => v.ownerId = some userId)).map (fun v => (v.id, v.name, .admin))

def isLive (t : Token) : Bool :=
  t.vaultScope.isSome && t.expiresAt.all (fun expiry => c.now < expiry) &&
    c.users.rows.any (fun u => u.id = t.userId && u.active)

/-- `_locked_live_scoped_tokens`, of every user. -/
def liveScopedTokens : List Token := c.tokens.rows.filter c.isLive

def userTokens (userId : Uuid) : List Token := c.liveScopedTokens.filter (fun t => t.userId = userId)

end Catalog

/-- `wanted_token_group_roles`. -/
def wantedTokenGroupRoles (accessible : List (Uuid × String × Access.Role)) (scope : VaultScope) :
    Except PgError (List String) :=
  (accessible.filter (fun entry => scope.permits entry.2.1)).mapM (fun entry => groupRoleName entry.1 entry.2.2)

/-! ### Physical table names -/

def sanitizePgPart (text : String) : List Char :=
  (PyText.lower text.toList).map (fun c => if c.isLower || c.isDigit then c else '_')

/-- `pg_table_name` over the digest of a text. -/
def pgTableName (sha1 : List Char → List Char) (vaultName tableName : String) : String :=
  let vault := sanitizePgPart vaultName
  let table := sanitizePgPart tableName
  let composed := "vt_".toList ++ (vault ++ ("__".toList ++ table))
  if composed.length ≤ Tables.pgIdentMaxLen then String.ofList composed
  else
    let digest := (sha1 (vault ++ '\x00' :: table)).take 8
    let budget := Tables.pgIdentMaxLen - 5 - 9
    let tableKeep := min table.length (budget - 1)
    let vaultKeep := min vault.length (budget - tableKeep)
    String.ofList ("vt_".toList ++ (vault.take vaultKeep ++ ("__".toList ++ (table.take tableKeep ++ '_' :: digest))))

/-- Both sides of a `__` within the text are non-empty. -/
def hasSeparator (text : List Char) : Bool :=
  (List.range text.length).any (fun i => decide (0 < i) && "__".toList.isPrefixOf (text.drop i) && decide (i + 2 < text.length))

/-- `_is_safe_pg_table_name`; a `$` also matches before a final newline. -/
def isSafePgTableName (name : String) : Bool :=
  let text := name.toList
  let line := if text.getLast? = some '\n' then text.dropLast else text
  "vt_".toList.isPrefixOf line && (line.drop 3).all (fun c => c.isLower || c.isDigit || c == '_') &&
    hasSeparator (line.drop 3) && decide (text.length ≤ Tables.pgIdentMaxLen)

end Akb.RoleSync

/-! The projections that run inside a catalog transaction. A hook that fails rolls the transaction
back, so each is a function that may fail. -/
namespace Akb.RoleSync
open Akb.Library Akb.Native

/-- The order in which the elements of a set come. -/
structure SetOrder where
  names : List String → List String
  pairs : List (String × String) → List (String × String)
  mem_names : ∀ xs x, x ∈ names xs ↔ x ∈ xs
  mem_pairs : ∀ xs x, x ∈ pairs xs ↔ x ∈ xs

def SetOrder.listed : SetOrder := ⟨id, id, fun _ _ => Iff.rfl, fun _ _ => Iff.rfl⟩

def minus {α : Type} [DecidableEq α] (xs ys : List α) : List α := xs.filter (fun x => x ∉ ys)

theorem mem_minus {α : Type} [DecidableEq α] {xs ys : List α} {x : α} : x ∈ minus xs ys ↔ x ∈ xs ∧ x ∉ ys := by
  simp [minus]

/-- `_token_group_memberships`. -/
def tokenGroupMemberships (r : Roles) (tokenRole : String) : List String :=
  (r.members.filter (fun m => m.member = tokenRole && isCatalogRole m.group .vault)).map Membership.group

/-- The group scopes in the order the hooks walk them, all but one. -/
def otherScopes (wanted : Option Scope) : List Scope := Scope.all.filter (fun scope => some scope ≠ wanted)

section
variable (pg : Server) (order : SetOrder)

def grantAll (role : String) (groups : List String) (r : Roles) : Except PgError Roles :=
  performAll (fun group => pg.grantMembership group role) (order.names groups) r

def revokeAll (role : String) (groups : List String) (r : Roles) : Except PgError Roles :=
  performAll (fun group => pg.revokeMembershipStrict group role) (order.names groups) r

/-- One token of `_sync_user_scoped_tokens_locked`. -/
def syncToken (accessible : List (Uuid × String × Access.Role)) (t : Token) (r : Roles) : Except PgError Roles :=
  match t.vaultScope with
  | some (.ok (some scope)) => do
    let role := tokenRoleName t.id
    let r ← pg.createRoleIfMissing role r
    let wanted ← wantedTokenGroupRoles accessible scope
    let have' := tokenGroupMemberships r role
    let r ← grantAll pg order role wanted r
    revokeAll pg order role (minus have' wanted) r
  | _ => .ok r

/-- `_sync_user_scoped_tokens_locked`. -/
def syncUserScopedTokens (c : Catalog) (userId : Uuid) (r : Roles) : Except PgError Roles :=
  performAll (syncToken pg order (c.accessible userId)) (c.userTokens userId) r

def onVaultCreateInConn (c : Catalog) (vaultId : Uuid) (ownerUserId : Option Uuid) (r : Roles) :
    Except PgError Roles := do
  let reader := vaultGroupRoleName vaultId .reader
  let writer := vaultGroupRoleName vaultId .writer
  let admin := vaultGroupRoleName vaultId .admin
  let r ← performAll pg.createRoleIfMissing [reader, writer, admin] r
  let r ← pg.grantMembership reader writer r
  let r ← pg.grantMembership writer admin r
  match ownerUserId with
  | none => return r
  | some owner =>
    let ownerRole := userRoleName owner
    let r ← pg.createRoleIfMissing ownerRole r
    let r ← pg.grantMembership admin ownerRole r
    syncUserScopedTokens pg order c owner r

/-- The role a user is wanted in on a vault; a stored role that is no scope fails later, where its
group is named. -/
def wantedRole (c : Catalog) (vaultId userId : Uuid) : Option Access.Role :=
  match c.vaults.get? vaultId, c.users.get? userId with
  | some v, some _ => if v.ownerId = some userId then some .admin else c.memberRole? vaultId userId
  | _, _ => none

/-- The grant of the wanted role. -/
def grantWanted (vaultId userId : Uuid) (wanted : Option Access.Role) (r : Roles) : Except PgError Roles :=
  match wanted with
  | none => .ok r
  | some role => do
    let r ← pg.createRoleIfMissing (userRoleName userId) r
    let group ← groupRoleName vaultId role
    pg.grantMembership group (userRoleName userId) r

def syncVaultUserInConn (c : Catalog) (vaultId userId : Uuid) (r : Roles) : Except PgError Roles := do
  let wanted := wantedRole c vaultId userId
  let user := userRoleName userId
  let r ← performAll (fun scope => pg.revokeMembershipStrict (vaultGroupRoleName vaultId scope) user)
    (otherScopes (wanted.bind scopeOf)) r
  let r ← grantWanted pg vaultId userId wanted r
  syncUserScopedTokens pg order c userId r

/-- The revocations and the grant of a vault's public level. -/
def syncPublicLevel (vaultId : Uuid) (level : String) (r : Roles) : Except PgError Roles := do
  let target := publicAccessScope level
  let r ← performAll (fun scope => pg.revokeMembershipStrict (vaultGroupRoleName vaultId scope) authenticatedRole)
    (otherScopes target) r
  match target with
  | none => return r
  | some scope => pg.grantMembership (vaultGroupRoleName vaultId scope) authenticatedRole r

def onPublicAccessChangeInConn (vaultId : Uuid) (level : String) (r : Roles) : Except PgError Roles := do
  let r ← pg.createRoleIfMissing authenticatedRole r
  syncPublicLevel pg vaultId level r

end

end Akb.RoleSync
