import Akb.Access.EffectiveRole
import Akb.Library.Run

/-! Who may do what to a vault: the access check, and the calls that grant and revoke access, hand a
vault over, archive it, open it to everybody and delete it. Most of them check first and open their
transaction later, so other calls can come between. -/
namespace Akb.Access.Vaults
open Akb.Library Akb.Access

abbrev VaultId := Nat
abbrev UserId := Nat
abbrev TokenId := Nat

/-! ### Tables -/

structure UserRow where
  id : UserId
  username : String
  isAdmin : Bool

inductive Status where
  | active
  | archived
  deriving DecidableEq

inductive PublicAccess where
  | none
  | reader
  | writer
  deriving DecidableEq

/-- `validate_public_access` -/
def PublicAccess.ofText (level : String) : Option PublicAccess :=
  if level = "none" then some .none
  else if level = "reader" then some .reader
  else if level = "writer" then some .writer
  else Option.none

def PublicAccess.role : PublicAccess → Option Role
  | .none => Option.none
  | .reader => some .reader
  | .writer => some .writer

/-- A row of `vault_write_policy` with its `vault_write_grants`. -/
structure WritePolicy where
  managedBy : String
  grants : List (TokenId × List String)

/-- A row of `vaults`; `mirror` when `vault_external_git` has one for it. -/
structure VaultRow where
  id : VaultId
  name : String
  ownerId : Option UserId
  status : Status
  publicAccess : PublicAccess
  mirror : Bool
  policy : Option WritePolicy

/-! ### Requests -/

structure VaultScope where
  prefixes : List String
  extraVaults : List String

/-- An empty prefix is ignored. -/
def VaultScope.permits (scope : VaultScope) (vaultName : String) : Bool :=
  scope.prefixes.any (fun text => text ≠ "" && text.toList.isPrefixOf vaultName.toList) ||
    scope.extraVaults.any (fun name => name = vaultName)

/-- The principal of a request, with the scope of its token. -/
structure Caller where
  userId : UserId
  scope : Option VaultScope
  tokenId : Option TokenId

inductive Refusal where
  | notFound (kind name : String)
  | forbidden (message : String)
  | conflict (message : String)
  | validation (message : String)
  | access (error : AccessError)
  | raised

inductive RoleSource where
  | writePolicyGrant
  | writePolicyAdminBypass
  | systemAdmin
  | member
  | everybody

structure Authorized where
  vaultId : VaultId
  role : Role
  status : Status
  source : RoleSource

/-- The calls that check access before their transaction. -/
inductive Call where
  | grant (username userId : Option String) (role sourceKey : String) (revision : Option Int)
  | revoke (username userId sourceKey : Option String) (revision : Option Int)
  | transfer (username userId : Option String)
  | archive
  | unarchive
  | delete

/-- A call that has passed its check. -/
structure Passed where
  caller : Caller
  name : String
  call : Call
  authorized : Authorized

structure World where
  users : Table UserRow UserRow.id
  vaults : Table VaultRow VaultRow.id
  grants : Tables VaultId UserId
  nextVault : VaultId
  pending : List Passed

def World.empty : World := ⟨.empty, .empty, .empty, 0, []⟩

namespace World

def isAdmin (w : World) (u : UserId) : Bool := (w.users.get? u).any UserRow.isAdmin

def findVault (w : World) (name : String) : Option VaultRow := w.vaults.rows.find? (fun v => v.name = name)

end World

/-! ### The access check -/

/-- `_MUTATING_ROLES` -/
def mutatingRoles : List Role := [.writer, .admin, .owner]

def archivedText (name : String) : String := "Vault '" ++ name ++ "' is archived (read-only)"

def requiresText (required : Role) (name : String) : String :=
  "Requires '" ++ required.name ++ "' role on vault '" ++ name ++ "'"

/-- A scope bounds writes only. -/
def checkVaultScope (c : Caller) (name : String) (required : Role) : Except Refusal Unit :=
  refuse (required ∈ mutatingRoles ∧ c.scope.any (fun s => !s.permits name)) (.forbidden
    ("Token scope does not permit '" ++ required.name ++ "' on vault '" ++ name ++ "'"))

def writeActionWildcard : String := "*"

/-- The token of a caller may write to a managed vault. -/
def WritePolicy.permits (p : WritePolicy) (c : Caller) (writeAction : Option String) : Bool :=
  (c.tokenId.bind fun token => p.grants.lookup token).any fun actions =>
    actions.contains writeActionWildcard || writeAction.any actions.contains

/-- The last part of the check: the stronger of the public role and the member's own. -/
def checkRoles (w : World) (v : VaultRow) (c : Caller) (required : Role) : Except Refusal Authorized :=
  let memberRole := currentEffectiveRole w.grants v.id c.userId
  let publicIsStronger := decide (roleLevel memberRole < roleLevel v.publicAccess.role)
  match if publicIsStronger then v.publicAccess.role else memberRole with
  | some role =>
    if roleLevel (some role) < roleLevel (some required) then .error (.forbidden (requiresText required v.name))
    else .ok ⟨v.id, role, v.status, if publicIsStronger then .everybody else .member⟩
  | none => .error (.forbidden (requiresText required v.name))

def checkVaultAccess (w : World) (c : Caller) (name : String) (required : Role) (allowArchived : Bool)
    (writeAction : Option String) : Except Refusal Authorized := do
  let v ← found (w.findVault name) (.notFound "Vault" name)
  refuse (allowArchived = false ∧ v.status = .archived ∧ required ∈ [Role.writer, Role.admin]) (.forbidden (archivedText name))
  refuse (required = .writer ∧ v.mirror) (.forbidden ("Vault '" ++ name ++ "' is a read-only external git mirror"))
  checkVaultScope c name required
  match if required ∈ mutatingRoles then v.policy else none with
  | some p =>
    if p.permits c writeAction then return ⟨v.id, required, v.status, .writePolicyGrant⟩
    else if c.scope.isNone && w.isAdmin c.userId then return ⟨v.id, .owner, v.status, .writePolicyAdminBypass⟩
    else .error (.forbidden ("Vault '" ++ name ++ "' is write-managed by " ++ p.managedBy ++
      "; writes require a granted service token with the required write action"))
  | none =>
    if w.isAdmin c.userId then return ⟨v.id, .owner, v.status, .systemAdmin⟩
    else if v.ownerId = some c.userId then return ⟨v.id, .owner, v.status, .member⟩
    else checkRoles w v c required

/-! ### Before the transaction -/

/-- The role that a call checks for. -/
def Call.required : Call → Role
  | .grant .. => .admin
  | .revoke .. => .admin
  | .transfer .. => .owner
  | .archive => .owner
  | .unarchive => .owner
  | .delete => .admin

def validateSourceKeyText (text : String) : Except Refusal Unit :=
  match validateSourceKey text with
  | .ok _ => .ok ()
  | .error (.invalidSourceKey message) => .error (.validation message)
  | .error e => .error (.access e)

/-- What a call does before its transaction. -/
def Call.authorize (w : World) (c : Caller) (name : String) : Call → Except Refusal Authorized
  | .grant _ _ role sourceKey _ => do
    refuse (role ∉ ["reader", "writer", "admin"]) (.forbidden ("Invalid role: " ++ role ++ ". Use: reader, writer, admin"))
    validateSourceKeyText sourceKey
    checkVaultAccess w c name .admin false none
  | .revoke _ _ sourceKey _ => do
    let authorized ← checkVaultAccess w c name .admin false none
    (sourceKey.map validateSourceKeyText).getD (.ok ())
    return authorized
  | .transfer .. => checkVaultAccess w c name .owner false none
  | .archive => checkVaultAccess w c name .owner false none
  | .unarchive => checkVaultAccess w c name .owner false none
  | .delete => checkVaultAccess w c name .admin true none

/-! ### Transactions -/

section
variable (parseUuid : String → Option UserId)

/-- `_resolve_user_reference` -/
def resolveUserReference (w : World) (username userId : Option String) : Except Refusal UserRow :=
  match userId with
  | some text => do
    let id ← found (parseUuid text) (.validation "user_id must be a UUID")
    let target ← found (w.users.get? id) (.notFound "User" text)
    refuse (username.any (fun name => target.username ≠ name))
      (.conflict "User reference is stale. Refresh the member list and try again.")
    return target
  | none =>
    match username with
    | none => .error (.validation "user or user_id is required")
    | some name =>
      if name = "" then .error (.validation "user or user_id is required")
      else found (w.users.rows.find? (fun u => u.username = name)) (.notFound "User" name)

/-- The check that a grant and a revocation repeat under the lock of the vault. -/
def confirmAdmin (w : World) (v : VaultRow) (u : UserId) : Except Refusal Unit :=
  refuse (v.ownerId ≠ some u ∧ w.isAdmin u = false ∧
    roleLevel (currentEffectiveRole w.grants v.id u) < roleLevel (some .admin)) (.forbidden (requiresText .admin v.name))

/-- A write to the contributions of a vault. -/
def writeGrants (w : World) (scan : ScanOrder VaultId UserId) (call : Access.Call VaultId UserId) : Except Refusal World :=
  match call.run scan w.grants with
  | .ok (_, grants) => .ok { w with grants := grants }
  | .error e => .error (.access e)

def grantAccess (w : World) (scan : ScanOrder VaultId UserId) (u : UserId) (name : String) (username userId : Option String)
    (role sourceKey : String) (revision : Option Int) : Except Refusal World := do
  let v ← found (w.findVault name) (.notFound "Vault" name)
  refuse (v.status = .archived) (.forbidden (archivedText name))
  confirmAdmin w v u
  let target ← resolveUserReference parseUuid w username userId
  writeGrants w scan (.apply v.id target.id role sourceKey (some u) revision)

def revokeAccess (w : World) (scan : ScanOrder VaultId UserId) (u : UserId) (name : String)
    (username userId sourceKey : Option String) (revision : Option Int) : Except Refusal World := do
  let v ← found (w.findVault name) (.notFound "Vault" name)
  refuse (v.status = .archived) (.forbidden (archivedText name))
  confirmAdmin w v u
  let target ← resolveUserReference parseUuid w username userId
  refuse (v.ownerId = some target.id) (.forbidden "Cannot revoke owner's access. Use transfer_ownership instead.")
  match sourceKey with
  | none => writeGrants w scan (.removeAll v.id target.id)
  | some key => writeGrants w scan (.remove v.id target.id key revision)

/-- A caller who passed as an administrator need not own the vault. -/
def RoleSource.isAdministrator : RoleSource → Bool
  | .systemAdmin => true
  | .writePolicyAdminBypass => true
  | _ => false

def transferOwnership (w : World) (scan : ScanOrder VaultId UserId) (u : UserId) (name : String) (source : RoleSource)
    (username userId : Option String) : Except Refusal World := do
  let v ← found (w.findVault name) (.notFound "Vault" name)
  refuse (v.ownerId ≠ some u ∧ source.isAdministrator = false)
    (.conflict "owner_id moved during transfer (another transfer won the race)")
  let newOwner ← resolveUserReference parseUuid w username userId
  let formerOwner ← found v.ownerId .raised
  let w : World := { w with
    vaults := w.vaults.updateWhere (fun r => r.id = v.id) (fun r => { r with ownerId := some newOwner.id }) (fun _ => rfl) }
  let w ← writeGrants w scan (.apply v.id formerOwner Role.admin.name directSourceKey (some newOwner.id) none)
  writeGrants w scan (.removeAll v.id newOwner.id)

/-- `UPDATE vaults SET status = ... WHERE name = ...`; nothing is checked again. -/
def setStatus (w : World) (name : String) (status : Status) : World :=
  { w with vaults := w.vaults.updateWhere (fun r => r.name = name) (fun r => { r with status := status }) (fun _ => rfl) }

/-- The rows of a deleted vault in the tables at hand. -/
def deleteVault (w : World) (name : String) : Except Refusal World := do
  let v ← found (w.findVault name) (.notFound "Vault" name)
  return { w with
    vaults := w.vaults.deleteWhere (fun r => r.id = v.id)
    grants := ⟨w.grants.contributions.deleteWhere (fun c => c.vaultId = v.id),
      w.grants.access.deleteWhere (fun a => a.vaultId = v.id)⟩ }

def Passed.commit (w : World) (scan : ScanOrder VaultId UserId) (p : Passed) : Except Refusal World :=
  match p.call with
  | .grant username userId role sourceKey revision =>
    grantAccess parseUuid w scan p.caller.userId p.name username userId role sourceKey revision
  | .revoke username userId sourceKey revision =>
    revokeAccess parseUuid w scan p.caller.userId p.name username userId sourceKey revision
  | .transfer username userId => transferOwnership parseUuid w scan p.caller.userId p.name p.authorized.source username userId
  | .archive => .ok (setStatus w p.name .archived)
  | .unarchive => .ok (setStatus w p.name .active)
  | .delete => deleteVault w p.name

end

/-! ### Calls that check inside their transaction -/

def setPublicAccess (w : World) (c : Caller) (name level : String) : Except Refusal World := do
  let level ← found (PublicAccess.ofText level) (.validation
    ("Invalid public_access '" ++ level ++ "'. Must be one of: ['none', 'reader', 'writer']"))
  let _ ← checkVaultAccess w c name .owner false none
  let v ← found (w.findVault name) (.notFound "Vault" name)
  refuse (v.status = .archived) (.forbidden (archivedText name))
  return { w with
    vaults := w.vaults.updateWhere (fun r => r.id = v.id) (fun r => { r with publicAccess := level }) (fun _ => rfl) }

/-- Of the metadata only the public access is at hand. -/
def updateVaultMetadata (w : World) (c : Caller) (name : String) (publicAccess : Option String) : Except Refusal World := do
  match publicAccess with
  | none =>
    let _ ← checkVaultAccess w c name .owner false none
    return w
  | some level =>
    let level ← found (PublicAccess.ofText level) (.validation
      ("Invalid public_access '" ++ level ++ "'. Must be one of: ['none', 'reader', 'writer']"))
    let _ ← checkVaultAccess w c name .owner false none
    return { w with
      vaults := w.vaults.updateWhere (fun r => r.name = name) (fun r => { r with publicAccess := level }) (fun _ => rfl) }

def createVault (w : World) (c : Caller) (name level : String) (mirror : Bool) : Except Refusal World := do
  checkVaultScope c name .owner
  let level ← found (PublicAccess.ofText level) (.validation
    ("Invalid public_access '" ++ level ++ "'. Must be one of: ['none', 'reader', 'writer']"))
  refuse (w.findVault name).isSome (.conflict "Vault name is unavailable. Choose a different name.")
  let vaults ← found (w.vaults.insert? ⟨w.nextVault, name, some c.userId, .active, level, mirror, none⟩) .raised
  return { w with vaults := vaults, nextVault := w.nextVault + 1 }

/-! ### Steps -/

/-- What happens to the vaults. `account` is any change to the users, `manage` what an administrator does
to the write policy of a vault. -/
inductive Step where
  | account (users : Table UserRow UserRow.id)
  | create (c : Caller) (name level : String) (mirror : Bool)
  | manage (c : Caller) (name : String) (policy : Option WritePolicy)
  | check (c : Caller) (name : String) (call : Call)
  | commit (i : Nat) (scan : ScanOrder VaultId UserId)
  | setPublic (c : Caller) (name level : String)
  | updateMetadata (c : Caller) (name : String) (publicAccess : Option String)

/-- A call that raises changes nothing. -/
def World.orElse (w : World) : Except Refusal World → World
  | .ok w' => w'
  | .error _ => w

def World.next (parseUuid : String → Option UserId) (w : World) : Step → World
  | .account users => { w with users := users }
  | .create c name level mirror => w.orElse (createVault w c name level mirror)
  | .manage c name policy =>
    if w.isAdmin c.userId then
      { w with vaults := w.vaults.updateWhere (fun r => r.name = name) (fun r => { r with policy := policy }) (fun _ => rfl) }
    else w
  | .check c name call =>
    match call.authorize w c name with
    | .ok authorized => { w with pending := w.pending ++ [⟨c, name, call, authorized⟩] }
    | .error _ => w
  | .commit i scan =>
    match w.pending[i]? with
    | some p => { w.orElse (p.commit parseUuid w scan) with pending := w.pending.eraseIdx i }
    | none => w
  | .setPublic c name level => w.orElse (setPublicAccess w c name level)
  | .updateMetadata c name publicAccess => w.orElse (updateVaultMetadata w c name publicAccess)

/-- Who makes a step. -/
def Step.caller (w : World) : Step → Option Caller
  | .account _ => none
  | .create c .. => some c
  | .manage c .. => some c
  | .check c .. => some c
  | .commit i _ => w.pending[i]?.map Passed.caller
  | .setPublic c .. => some c
  | .updateMetadata c .. => some c

end Akb.Access.Vaults
