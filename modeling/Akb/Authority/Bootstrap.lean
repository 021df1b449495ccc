import Akb.Library.Run
import Akb.Authority.Cutover

/-! Native bootstrap, the guards of a startup, and the transactions that move the records. -/
namespace Akb.Authority
open Akb.Library
variable {ι : Type} [LinearOrder ι]

/-- `mint_new_database_claim`. Any table of an earlier schema proves that the database is not new. -/
def mintNewDatabaseClaim (d : Database ι) (identity : Identity ι) (claimId : ι) : Except Code (ι × Database ι) :=
  match d.claims with
  | some claims =>
    match claims.rows with
    | [] => .error .databaseNotNew
    | [existing] => do
      refuse (existing.identity ≠ identity) .claimMismatch
      pure (existing.claimId, d)
    | _ => .error .claimCorrupt
  | none => do
    refuse (d.schema ≠ .empty) .databaseNotNew
    refuse (!identity.storable) .constraintViolation
    let claims ← found ((Table.empty : Singleton (Claim ι)).insert? ⟨claimId, identity, .claimed⟩) .constraintViolation
    pure (claimId, { d with claims := some claims })

/-- The receipt migration 096 writes for a cutover that was committed before it. -/
def backfilled (d : Database ι) (token : ι) : Singleton (Receipt ι) :=
  match d.existing.get? true with
  | some a =>
    if d.legacyFence.any (fun fence => fence.state = .committed && fence.epoch = a.legacyWriteEpoch &&
        fence.cutoverId = some a.cutoverId) then
      (d.durable.insert? ⟨token, a.cutoverId, a.legacyWriteEpoch, a.identity, a.snapshot⟩).getD d.durable
    else d.durable
  | none => d.durable

/-- One step of `init_db`: `init.sql`, or the next migration of these tables. -/
def migrate (d : Database ι) (token : ι) : Database ι :=
  match d.schema with
  | .empty => { d with schema := .booted }
  | .booted => { d with schema := .m061, claims := some (d.claims.getD Table.empty) }
  | .m061 => { d with schema := .m088, legacyFence := some (d.legacyFence.getD ⟨0, .open, none⟩) }
  | .m088 => { d with schema := .m096, durable := backfilled d token }
  | .m096 => d

def initDb (d : Database ι) (token : ι) : Database ι := migrate (migrate (migrate (migrate d token) token) token) token

/-- `INSERT` into the pending table: one row a claim, and one in state pending. -/
def insertPending (t : Table (Pending ι) Pending.authorityId) (row : Pending ι) :
    Option (Table (Pending ι) Pending.authorityId) :=
  if t.rows.any (fun p => p.claimId = row.claimId || p.status = .pending) then none else t.insert? row

/-- `mint_pending_authority`; `gitBlank` is what `git_authority_is_blank` found. -/
def mintPendingAuthority (d : Database ι) (identity : Identity ι) (claimId authorityId : ι) (gitBlank : Bool) :
    Except Code (ι × Database ι) := do
  let claims ← found d.claims .undefinedTable
  let claim ← found (claims.get? true) .claimMismatch
  refuse (claim.claimId ≠ claimId ∨ claim.identity ≠ identity) .claimMismatch
  refuse (d.schema.rank < Schema.m061.rank) .undefinedTable
  let existing := d.pending.rows.find? (fun p => p.claimId = claimId)
  match claim.status with
  | .minted => do
    let row ← found existing .claimCorrupt
    refuse (row.identity ≠ identity) .claimCorrupt
    pure (row.authorityId, d)
  | .claimed => do
    refuse existing.isSome .claimCorrupt
    refuse (d.schema.rank < Schema.booted.rank) .schemaNotInitialized
    refuse (d.schema.rank < Schema.m096.rank) .undefinedTable
    refuse (d.content ≠ 0) .inventoryNotEmpty
    refuse (!gitBlank) .gitNotBlank
    let pending ← found (insertPending d.pending ⟨authorityId, claimId, identity, .pending⟩) .constraintViolation
    pure (authorityId, { d with
      pending := pending
      claims := some (claims.updateWhere (fun c => c.status = .claimed) (fun c => { c with status := .minted }) fun _ => rfl) })

inductive Admission
  | notApplicable
  | initialized
  | validated
  | cutoverValidated
  deriving DecidableEq

/-- `consume_or_validate_native_authority`: the first Native startup writes the marker. -/
def consumeOrValidateNativeAuthority (d : Database ι) (identity : Identity ι) : Except Code (Admission × Database ι) := do
  refuse (d.schema.rank < Schema.m061.rank) .undefinedTable
  match d.marker.get? true with
  | some marker => do
    refuse (¬ marker.identity.bindingMatches identity) .markerMismatch
    let pending ← found (d.pending.get? marker.authorityId) .markerIncomplete
    refuse (pending.status ≠ .consumed) .markerIncomplete
    pure (.validated, d)
  | none =>
    match d.pending.rows.filter (fun p => p.status = .pending) with
    | [pending] => do
      refuse (pending.identity ≠ identity) .pendingMismatch
      refuse (d.schema.rank < Schema.m096.rank) .undefinedTable
      refuse (d.content ≠ 0) .inventoryNotEmpty
      let marker ← found (d.marker.insert? ⟨pending.authorityId, pending.claimId, identity⟩) .constraintViolation
      pure (.initialized, { d with
        marker := marker
        pending := d.pending.updateWhere (fun p => p.authorityId = pending.authorityId && p.status = .pending)
          (fun p => { p with status := .consumed }) fun _ => rfl })
    | _ => .error .missing

section Guards
variable (canonicalDigest : List (Binding ι) → Text)

def consumeOrValidateExistingDatabaseAuthority (d : Database ι) (identity : Identity ι) : Except Code Admission := do
  refuse (d.schema.rank < Schema.m088.rank) .undefinedTable
  let row ← found (d.existing.get? true) .missing
  let snapshot ← verifiedCutoverBinding canonicalDigest d row.cutoverId
  refuse (¬ row.identity.bindingMatches identity ∨ row.snapshot ≠ snapshot) .existingMismatch
  requireCommittedLegacyFence d row
  pure .cutoverValidated

inductive Backend
  | bareGit
  | postgresNative
  | bareGitCurrent
  | nativeLedgerM1
  deriving DecidableEq

def rejectIncompleteExistingAuthorityFence (d : Database ι) : Except Code Unit :=
  refuse (d.legacyFence.any (fun fence => fence.state ≠ .open &&
    (fence.state = .fenced || d.existing.rows.length = 0))) .fenceIncomplete

def rejectNativeAuthorityForNonProductMode (d : Database ι) : Except Code Unit := do
  refuse (d.schema.rank < Schema.m088.rank) .undefinedTable
  refuse (d.claimRows.length ≠ 0 ∨ d.pending.rows.length ≠ 0 ∨ d.marker.rows.length ≠ 0 ∨
    d.existing.rows.length ≠ 0) .modeConflict
  refuse (d.legacyFence.any (fun fence => fence.state ≠ .open)) .modeConflict

/-- `startup_revision_authority_preflight`, after the migrations of a startup. -/
def startupRevisionAuthorityPreflight (d : Database ι) (backend : Backend) (identity : Identity ι) :
    Except Code (Admission × Database ι) :=
  if backend = .postgresNative then do
    rejectIncompleteExistingAuthorityFence d
    refuse (d.schema.rank < Schema.m088.rank) .undefinedTable
    if d.existing.rows.length ≠ 0 then do
      let admission ← consumeOrValidateExistingDatabaseAuthority canonicalDigest d identity
      pure (admission, d)
    else consumeOrValidateNativeAuthority d identity
  else do
    rejectNativeAuthorityForNonProductMode d
    pure (.notApplicable, d)

/-- `pre_migration_revision_authority_guard`, before the migrations of a startup. -/
def preMigrationRevisionAuthorityGuard (d : Database ι) (backend : Backend) : Except Code Unit :=
  let claimCount := d.claimRows.length
  let existingCount := d.existing.rows.length
  let fenceState := d.legacyFence.map LegacyFence.state
  if backend = .postgresNative then do
    refuse (fenceState = some .fenced ∨ (fenceState = some .committed ∧ existingCount = 0)) .fenceIncomplete
    refuse (¬ ((claimCount = 1 ∧ existingCount = 0) ∨ (claimCount = 0 ∧ existingCount = 1))) .missing
  else
    refuse (claimCount ≠ 0 ∨ existingCount ≠ 0 ∨ fenceState = some .fenced ∨ fenceState = some .committed) .modeConflict

structure BootstrapReport (ι : Type) where
  initialized : Bool
  claimId : ι
  authorityId : ι

/-- `bootstrap_postgres_native` when nothing interrupts it; `claimId` and `authorityId` are drawn. -/
def bootstrapPostgresNative (d : Database ι) (identity : Identity ι) (claimId authorityId token : ι) (gitBlank : Bool) :
    Except Code (BootstrapReport ι × Database ι) := do
  let (claimId, d) ← mintNewDatabaseClaim d identity claimId
  let (authorityId, d) ← mintPendingAuthority (initDb d token) identity claimId authorityId gitBlank
  match d.marker.get? true with
  | some marker => do
    refuse (¬ marker.identity.bindingMatches identity) .markerMismatch
    let pending ← found (d.pending.get? marker.authorityId) .markerIncomplete
    refuse (pending.status ≠ .consumed) .markerIncomplete
    pure (⟨true, claimId, authorityId⟩, d)
  | none => pure (⟨false, claimId, authorityId⟩, d)

/-- What can happen to the records between two looks at them: each transaction of bootstrap, cutover and
startup, one step of the schema, and the work of servers and of the cutover planner. -/
inductive Event (ι : Type)
  | mintClaim (identity : Identity ι) (claimId : ι)
  | migrate (token : ι)
  | mintPending (identity : Identity ι) (claimId authorityId : ι) (gitBlank : Bool)
  | consume (identity : Identity ι)
  | beginCutover (call : BeginCall ι)
  | finalizeCutover (call : FinalizeCall ι)
  | plan (runs : Table (CutoverRun ι) CutoverRun.cutoverId)
      (vaults : Table (CutoverVault ι) (fun v => (v.cutoverId, v.namespaceId))) (files : List (CutoverFile ι))
  | write (content : Nat)

/-- The transient triggers reject writes while the fence is closed. -/
def writesFenced (d : Database ι) : Bool :=
  d.transientGuards && d.legacyFence.any (fun fence => fence.state = .fenced)

/-- A transaction that raises leaves everything as it was. -/
def committedState {α : Type} (d : Database ι) (r : Except Code (α × Database ι)) : Database ι :=
  match r with
  | .ok (_, d') => d'
  | .error _ => d

def next (d : Database ι) : Event ι → Database ι
  | .mintClaim identity claimId => committedState d (mintNewDatabaseClaim d identity claimId)
  | .migrate token => migrate d token
  | .mintPending identity claimId authorityId gitBlank =>
    committedState d (mintPendingAuthority d identity claimId authorityId gitBlank)
  | .consume identity => committedState d (consumeOrValidateNativeAuthority d identity)
  | .beginCutover call => committedState d (beginExistingDatabaseAuthority canonicalDigest d call)
  | .finalizeCutover call => committedState d (finalizeExistingDatabaseAuthority canonicalDigest d call)
  | .plan runs vaults files =>
    if d.schema.rank < Schema.m088.rank || writesFenced d then d
    else { d with runs := runs, vaults := vaults, files := files }
  | .write content => if d.schema = .empty || writesFenced d then d else { d with content := content }

def step (d : Database ι) (e : Event ι) (d' : Database ι) : Prop := next canonicalDigest d e = d'

/-- The databases that runs from an empty one reach. -/
def Reachable (d : Database ι) : Prop := ∃ es, Run (step canonicalDigest) Database.initial es d

end Guards
end Akb.Authority
