import Akb.Library.Fallible
import Akb.Library.Table
import Mathlib.Order.Defs.LinearOrder
import Mathlib.Data.List.Sort

/-! The records that say which store a database belongs to: the claim, pending record
and marker of a new database, and the fence, receipt and authority of a cutover. -/
namespace Akb.Authority
open Akb.Library

abbrev Text := List Char

def lowerHex (c : Char) : Bool := ('0' ≤ c && c ≤ '9') || ('a' ≤ c && c ≤ 'f')

/-- `'^[0-9a-f]{64}$'` -/
def hexDigest (s : Text) : Bool := s.length = 64 && s.all lowerHex

/-- `'^sha256:[0-9a-f]{64}$'` -/
def imageDigest (s : Text) : Bool := s.take 7 = ['s', 'h', 'a', '2', '5', '6', ':'] && hexDigest (s.drop 7)

/-- The identity of one deployment. -/
structure Identity (ι : Type) where
  tenantId : Text
  namespaceName : Text
  databaseId : ι
  currentDatabase : Text
  runtimeImageDigest : Text
  deriving DecidableEq

/-- The CHECK constraints on an identity, the same in every table. -/
def Identity.storable {ι : Type} (i : Identity ι) : Bool :=
  i.tenantId.any (· ≠ ' ') && i.namespaceName.any (· ≠ ' ') && i.currentDatabase.any (· ≠ ' ') &&
    imageDigest i.runtimeImageDigest

/-- `_binding_matches`: everything but the initializing image. -/
def Identity.bindingMatches {ι : Type} (row i : Identity ι) : Prop :=
  row.tenantId = i.tenantId ∧ row.namespaceName = i.namespaceName ∧ row.databaseId = i.databaseId ∧
    row.currentDatabase = i.currentDatabase

instance {ι : Type} [DecidableEq ι] (row i : Identity ι) : Decidable (row.bindingMatches i) :=
  inferInstanceAs (Decidable (_ ∧ _))

/-- A table keyed by a `BOOLEAN PRIMARY KEY` that a CHECK holds to TRUE. -/
abbrev Singleton (ρ : Type*) := Table ρ (fun _ : ρ => true)

inductive ClaimStatus
  | claimed
  | minted
  deriving DecidableEq

structure Claim (ι : Type) where
  claimId : ι
  identity : Identity ι
  status : ClaimStatus
  deriving DecidableEq

inductive PendingStatus
  | pending
  | consumed
  deriving DecidableEq

structure Pending (ι : Type) where
  authorityId : ι
  claimId : ι
  identity : Identity ι
  status : PendingStatus
  deriving DecidableEq

structure Marker (ι : Type) where
  authorityId : ι
  claimId : ι
  identity : Identity ι
  deriving DecidableEq

inductive FenceState
  | open
  | fenced
  | committed
  deriving DecidableEq

/-- The row of `native_revision_legacy_write_fence`. -/
structure LegacyFence (ι : Type) where
  epoch : Int
  state : FenceState
  cutoverId : Option ι
  deriving DecidableEq

/-- What a verified cutover amounts to. -/
structure Snapshot where
  inventoryDigest : Text
  verificationDigest : Text
  vaultBindingDigest : Text
  deriving DecidableEq

/-- A row of `native_revision_existing_authority_fence`. -/
structure Receipt (ι : Type) where
  fenceToken : ι
  cutoverId : ι
  legacyWriteEpoch : Int
  identity : Identity ι
  snapshot : Snapshot
  deriving DecidableEq

/-- A row of `native_revision_existing_authority`. -/
structure ExistingAuthority (ι : Type) where
  authorityId : ι
  cutoverId : ι
  identity : Identity ι
  snapshot : Snapshot
  legacyWriteEpoch : Int
  deriving DecidableEq

def Snapshot.storable (s : Snapshot) : Bool :=
  hexDigest s.inventoryDigest && hexDigest s.verificationDigest && hexDigest s.vaultBindingDigest

inductive CutoverStatus
  | planned
  | applied
  | verified
  | aborted
  deriving DecidableEq

structure CutoverRun (ι : Type) where
  cutoverId : ι
  inventoryDigest : Text
  verificationDigest : Option Text
  status : CutoverStatus

structure CutoverVault (ι : Type) where
  cutoverId : ι
  namespaceId : ι
  migrationRunId : ι
  fixedGitOid : Text
  inventoryDigest : Text
  verificationDigest : Option Text
  status : CutoverStatus

structure CutoverFile (ι : Type) where
  cutoverId : ι
  status : CutoverStatus
  verificationDigest : Option Text

/-- How far the schema was brought: `init.sql`, then the migrations that create these tables. -/
inductive Schema
  | empty
  | booted
  | m061
  | m088
  | m096
  deriving DecidableEq

def Schema.rank : Schema → Nat
  | empty => 0
  | booted => 1
  | m061 => 2
  | m088 => 3
  | m096 => 4

structure Database (ι : Type) where
  schema : Schema
  /-- `none` while the table does not exist. -/
  claims : Option (Singleton (Claim ι))
  pending : Table (Pending ι) Pending.authorityId
  marker : Singleton (Marker ι)
  runs : Table (CutoverRun ι) CutoverRun.cutoverId
  vaults : Table (CutoverVault ι) (fun v => (v.cutoverId, v.namespaceId))
  files : List (CutoverFile ι)
  legacyFence : Option (LegacyFence ι)
  durable : Singleton (Receipt ι)
  existing : Singleton (ExistingAuthority ι)
  transientGuards : Bool
  /-- The rows of the content tables. -/
  content : Nat

namespace Database
variable {ι : Type}

def initial : Database ι :=
  ⟨.empty, none, Table.empty, Table.empty, Table.empty, Table.empty, [], none, Table.empty, Table.empty, false, 0⟩

def claimRows (d : Database ι) : List (Claim ι) := d.claims.elim [] Table.rows

end Database

/-- The codes of `NativeAuthorityError`, and what the database or a callback raises. -/
inductive Code
  | databaseNotNew
  | claimCorrupt
  | claimMismatch
  | cutoverSchemaIncomplete
  | transactionActive
  | cutoverNotVerified
  | cutoverIncomplete
  | fenceIncomplete
  | modeConflict
  | fenceIdentityMismatch
  | fenceConflict
  | existingMismatch
  | legacyFenceMismatch
  | fenceTokenMismatch
  | fenceTokenMissing
  | missing
  | schemaNotInitialized
  | inventoryNotEmpty
  | gitNotBlank
  | markerMismatch
  | markerIncomplete
  | pendingMismatch
  | undefinedTable
  | constraintViolation
  | callbackFailed
  deriving DecidableEq

end Akb.Authority

/-! The two phases of an existing-database cutover. Each phase is one transaction
under the authority lock: it happens as a whole or not at all. -/
namespace Akb.Authority
open Akb.Library
variable {ι : Type} [LinearOrder ι]

scoped instance lawfulBEqOfLinearOrder : LawfulBEq ι := inferInstance

structure Binding (ι : Type) where
  namespaceId : ι
  migrationRunId : ι
  fixedGitOid : Text
  inventoryDigest : Text
  verificationDigest : Text

/-- `ExistingDatabaseAuthorityFence`, the receipt one phase hands to the other. -/
structure Fence (ι : Type) where
  cutoverId : ι
  fenceToken : ι
  legacyWriteEpoch : Int
  snapshot : Snapshot
  authorityId : Option ι
  state : FenceState
  deriving DecidableEq

def fenceFromRow (row : Receipt ι) (authorityId : Option ι) (state : FenceState) : Fence ι :=
  ⟨row.cutoverId, row.fenceToken, row.legacyWriteEpoch, row.snapshot, authorityId, state⟩

section Phases
variable (canonicalDigest : List (Binding ι) → Text)

def CutoverVault.binding (v : CutoverVault ι) : Binding ι :=
  ⟨v.namespaceId, v.migrationRunId, v.fixedGitOid, v.inventoryDigest, v.verificationDigest.getD []⟩

/-- The vaults of a cutover in the order of their namespaces. -/
def cutoverVaults (d : Database ι) (cutoverId : ι) : List (CutoverVault ι) :=
  (d.vaults.rows.filter (fun v => v.cutoverId = cutoverId)).insertionSort (fun v w => v.namespaceId ≤ w.namespaceId)

def CutoverFile.incomplete (f : CutoverFile ι) : Bool :=
  f.status ≠ .verified || !f.verificationDigest.any hexDigest

def verifiedCutoverBinding (d : Database ι) (cutoverId : ι) : Except Code Snapshot := do
  let run ← found (d.runs.get? cutoverId) .cutoverNotVerified
  refuse (run.status ≠ .verified) .cutoverNotVerified
  let verificationDigest ← found run.verificationDigest .cutoverNotVerified
  let vaults := cutoverVaults d cutoverId
  refuse (vaults.isEmpty || vaults.any (fun v => v.status ≠ .verified || v.verificationDigest.isNone)) .cutoverIncomplete
  refuse (d.files.any (fun f => f.cutoverId = cutoverId && f.incomplete)) .cutoverIncomplete
  pure ⟨run.inventoryDigest, verificationDigest, canonicalDigest (vaults.map CutoverVault.binding)⟩

omit [LinearOrder ι] in
def requireDurableAuthorityFenceSchema (d : Database ι) : Except Code Unit :=
  refuse (d.schema.rank < Schema.m096.rank) .fenceIncomplete

def rejectNewDatabaseAuthorityConflict (d : Database ι) : Except Code Unit := do
  refuse (d.schema.rank < Schema.m061.rank) .undefinedTable
  refuse (d.claimRows.length ≠ 0 ∨ d.pending.rows.length ≠ 0 ∨ d.marker.rows.length ≠ 0) .modeConflict

/-- `_lock_cutover_tables` needs the tables of the cutover. -/
def lockCutoverTables (d : Database ι) : Except Code Unit :=
  refuse (d.schema.rank < Schema.m088.rank) .cutoverSchemaIncomplete

def requireCommittedLegacyFence (d : Database ι) (authority : ExistingAuthority ι) : Except Code Unit :=
  refuse (!d.legacyFence.any (fun fence => fence.state = .committed && fence.epoch = authority.legacyWriteEpoch &&
    fence.cutoverId = some authority.cutoverId)) .legacyFenceMismatch

/-- `_validate_existing_authority_fence`. The kind, backend and status of an authority row are fixed by
CHECK constraints. -/
def validateExistingAuthorityFence (d : Database ι) (existing : ExistingAuthority ι) (durable : Option (Receipt ι))
    (legacy : LegacyFence ι) (identity : Identity ι) (cutoverId : ι) : Except Code (Fence ι) := do
  refuse (existing.cutoverId ≠ cutoverId) .fenceConflict
  refuse (existing.identity ≠ identity) .fenceIdentityMismatch
  let durable ← found durable .fenceIncomplete
  refuse (durable.cutoverId ≠ cutoverId) .fenceConflict
  refuse (durable.identity ≠ identity) .fenceIdentityMismatch
  refuse (legacy.state ≠ .committed) .fenceIncomplete
  refuse (durable.legacyWriteEpoch ≠ legacy.epoch) .fenceIncomplete
  let snapshot ← verifiedCutoverBinding canonicalDigest d cutoverId
  refuse (existing.snapshot ≠ snapshot) .existingMismatch
  refuse (durable.snapshot ≠ snapshot) .fenceIncomplete
  requireCommittedLegacyFence d existing
  pure (fenceFromRow durable (some existing.authorityId) .committed)

/-- `_validate_fenced_authority_receipt`: the receipt that permits a resume. -/
def validateFencedAuthorityReceipt (d : Database ι) (durable : Option (Receipt ι)) (legacy : LegacyFence ι)
    (identity : Identity ι) (cutoverId : ι) : Except Code (Receipt ι) := do
  refuse (legacy.state ≠ .fenced) .fenceIncomplete
  refuse (legacy.cutoverId ≠ some cutoverId) .fenceConflict
  let durable ← found durable .fenceIncomplete
  refuse (durable.cutoverId ≠ cutoverId) .fenceConflict
  refuse (durable.identity ≠ identity) .fenceIdentityMismatch
  refuse (durable.legacyWriteEpoch ≠ legacy.epoch) .fenceIncomplete
  let snapshot ← verifiedCutoverBinding canonicalDigest d cutoverId
  refuse (durable.snapshot ≠ snapshot) .fenceIncomplete
  pure durable

/-- The arguments of `begin_existing_database_authority`; `preflight` is what the callback does if there is
one, `token` the token drawn for a new fence. -/
structure BeginCall (ι : Type) where
  idle : Bool
  identity : Identity ι
  cutoverId : ι
  preflight : Option Bool
  token : ι

/-- The transition from open to fenced. -/
def beginOpen (d : Database ι) (legacy : LegacyFence ι) (call : BeginCall ι) : Except Code (Fence ι × Database ι) := do
  refuse (d.durable.rows ≠ []) .fenceIncomplete
  refuse (legacy.epoch ≠ 0) .fenceIncomplete
  let snapshot ← verifiedCutoverBinding canonicalDigest d call.cutoverId
  refuse (call.preflight = some false) .callbackFailed
  let row : Receipt ι := ⟨call.token, call.cutoverId, legacy.epoch + 1, call.identity, snapshot⟩
  refuse (!(row.identity.storable && row.snapshot.storable)) .constraintViolation
  let durable ← found (d.durable.insert? row) .constraintViolation
  pure (fenceFromRow row none .fenced,
    { d with
      legacyFence := some ⟨legacy.epoch + 1, .fenced, some call.cutoverId⟩
      durable := durable
      transientGuards := true })

def beginExistingDatabaseAuthority (d : Database ι) (call : BeginCall ι) : Except Code (Fence ι × Database ι) := do
  refuse (!call.idle) .transactionActive
  requireDurableAuthorityFenceSchema d
  rejectNewDatabaseAuthorityConflict d
  lockCutoverTables d
  let legacy ← found d.legacyFence .fenceIncomplete
  let durable := d.durable.get? true
  match d.existing.get? true, legacy.state with
  | some existing, _ => do
    let committed ← validateExistingAuthorityFence canonicalDigest d existing durable legacy call.identity call.cutoverId
    pure (committed, { d with transientGuards := false })
  | none, .open => beginOpen canonicalDigest d legacy call
  | none, .fenced => do
    let receipt ← validateFencedAuthorityReceipt canonicalDigest d durable legacy call.identity call.cutoverId
    pure (fenceFromRow receipt none .fenced, { d with transientGuards := true })
  | none, .committed => .error .fenceIncomplete

/-- The arguments of `finalize_existing_database_authority`; `authorityId` is the one given or drawn,
`rebound` whether the publications were rebound. -/
structure FinalizeCall (ι : Type) where
  idle : Bool
  identity : Identity ι
  fence : Option (Fence ι)
  cutoverId : Option ι
  fenceToken : Option ι
  legacyWriteEpoch : Option Int
  authorityId : ι
  rebound : Bool

/-- A value given beside the receipt differs from it. -/
def contradicts {α : Type*} [DecidableEq α] (supplied : Option α) (expected : α) : Bool := supplied.any (· ≠ expected)

/-- `_require_requested_fence_values`. -/
def requestedFenceValues (call : FinalizeCall ι) : Except Code (ι × ι × Int) :=
  match call.fence with
  | some fence => do
    refuse (contradicts call.cutoverId fence.cutoverId || contradicts call.fenceToken fence.fenceToken ||
      contradicts call.legacyWriteEpoch fence.legacyWriteEpoch) .fenceTokenMismatch
    refuse (fence.state = .open) .fenceIncomplete
    pure (fence.cutoverId, fence.fenceToken, fence.legacyWriteEpoch)
  | none => do
    let cutoverId ← found call.cutoverId .fenceTokenMissing
    let fenceToken ← found call.fenceToken .fenceTokenMissing
    let legacyWriteEpoch ← found call.legacyWriteEpoch .fenceTokenMissing
    pure (cutoverId, fenceToken, legacyWriteEpoch)

/-- `_fence_arguments_match_receipt`. -/
def fenceArgumentsMatchReceipt (durable : Receipt ι) (requested : ι × ι × Int) (fence : Option (Fence ι)) : Bool :=
  durable.cutoverId = requested.1 && durable.fenceToken = requested.2.1 && durable.legacyWriteEpoch = requested.2.2 &&
    fence.all (fun f => f.snapshot = durable.snapshot)

/-- The transition from fenced to committed. -/
def finalizeFenced (d : Database ι) (legacy : LegacyFence ι) (durable : Receipt ι) (requested : ι × ι × Int)
    (call : FinalizeCall ι) : Except Code (ι × Database ι) := do
  refuse (legacy.state ≠ .fenced) .fenceIncomplete
  let snapshot ← verifiedCutoverBinding canonicalDigest d requested.1
  refuse (durable.snapshot ≠ snapshot) .fenceIncomplete
  let row : ExistingAuthority ι := ⟨call.authorityId, requested.1, call.identity, snapshot, requested.2.2⟩
  refuse (!(row.identity.storable && row.snapshot.storable && decide (0 < row.legacyWriteEpoch))) .constraintViolation
  let existing ← found (d.existing.insert? row) .constraintViolation
  refuse (!call.rebound) .callbackFailed
  pure (call.authorityId,
    { d with
      existing := existing
      legacyFence := some { legacy with state := .committed }
      transientGuards := false })

def finalizeExistingDatabaseAuthority (d : Database ι) (call : FinalizeCall ι) : Except Code (ι × Database ι) := do
  let requested ← requestedFenceValues call
  refuse (!call.idle) .transactionActive
  requireDurableAuthorityFenceSchema d
  rejectNewDatabaseAuthorityConflict d
  lockCutoverTables d
  let legacy ← found d.legacyFence .fenceIncomplete
  let durable ← found (d.durable.get? true) .fenceIncomplete
  refuse (!fenceArgumentsMatchReceipt durable requested call.fence) .fenceTokenMismatch
  refuse (legacy.cutoverId ≠ some requested.1 ∨ legacy.epoch ≠ requested.2.2) .fenceTokenMismatch
  refuse (durable.identity ≠ call.identity) .fenceIdentityMismatch
  match d.existing.get? true with
  | some existing => do
    let _ ← validateExistingAuthorityFence canonicalDigest d existing (some durable) legacy call.identity requested.1
    pure (existing.authorityId, { d with transientGuards := false })
  | none => finalizeFenced canonicalDigest d legacy durable requested call

end Phases
end Akb.Authority
