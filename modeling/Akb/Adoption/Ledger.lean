import Akb.Rollout.Ledger

/-! Legacy adoption: plans, their targets, and the registry rows that a target turns into an
installation. One type `κ` of UUIDs names apps, releases, vaults, installations and plans; `σ` is the
schema of a table. -/
namespace Akb.Adoption
open Akb.Library

variable {κ σ : Type}

/-! ### The registry -/

inductive VaultRow where
  | unused
  | live
  | deleted
  deriving DecidableEq

/-- A row of `vault_app_installations`. -/
structure Installation (κ : Type) where
  appId : κ
  vaultId : κ
  desiredReleaseId : Option κ
  currentReleaseId : Option κ
  lifecycle : Rollout.Lifecycle
  grantGeneration : Nat
  deriving DecidableEq

inductive ResourceStatus where
  | owned
  | retained
  deriving DecidableEq

/-- A row of `app_owned_resources` for a table; `source` is the adoption target in its metadata. -/
structure Resource (κ : Type) where
  installationId : κ
  status : ResourceStatus
  source : Option (κ × Nat)
  deriving DecidableEq

/-- What adoption shares with the other services. The functions stand for the tables under their
unique keys: a vault's table by name, a resource by vault and table. -/
structure Registry (κ σ : Type) where
  vault : κ → VaultRow
  table : κ → String → Option σ
  installation : κ → Option (Installation κ)
  resource : κ → String → Option (Resource κ)
  observed : κ → Option (Rollout.Observed κ)

/-- A registered release, with what `expected_schema_fingerprint` finds in its manifest. -/
structure Release where
  version : String
  expected : Option String
  deriving DecidableEq

/-- Releases never change; `fingerprint` is `canonical_table_fingerprint`, which refuses some rows. -/
structure World (κ σ : Type) where
  release : κ → κ → Option Release
  fingerprint : List (String × σ) → Option String

/-- `fetch_allowlisted_tables`. -/
def foundTables (reg : Registry κ σ) (vaultId : κ) (allowlist : List String) : List (String × σ) :=
  allowlist.filterMap (fun name => (reg.table vaultId name).map (fun schema => (name, schema)))

/-! ### Plans and targets -/

inductive Reason where
  | missingTable
  | ownershipConflict
  | installationExists
  | releaseFingerprintMissing
  | fingerprintMismatch
  | fingerprintChanged
  deriving DecidableEq

def Reason.code : Reason → String
  | .missingTable => "missing_table"
  | .ownershipConflict => "ownership_conflict"
  | .installationExists => "installation_exists"
  | .releaseFingerprintMissing => "release_fingerprint_missing"
  | .fingerprintMismatch => "fingerprint_mismatch"
  | .fingerprintChanged => "fingerprint_changed"

inductive TargetState where
  | planned
  | applied
  | replayed
  | blocked
  deriving DecidableEq

inductive Checkpoint where
  | preflight (code : Option Reason)
  | applied
  deriving DecidableEq

/-- What `normalize_table_allowlist` returns. -/
structure Allowlist where
  names : List String
  nonempty : names ≠ []
  nodup : names.Nodup
  deriving DecidableEq

/-- A row of `app_legacy_adoption_targets`; its place in the plan is its `target_order`. -/
structure Target (κ : Type) where
  vaultId : κ
  allowlist : Allowlist
  expected : String
  actual : Option String
  included : List String
  missing : List String
  conflicts : List String
  state : TargetState
  reason : Option Reason
  installationId : Option κ
  checkpoint : Checkpoint
  deriving DecidableEq

/-- The target has become applied. -/
def Target.done (t : Target κ) : Bool := t.state = .applied || t.state = .replayed

inductive PlanStatus where
  | planned
  /-- The status `partial`. -/
  | partly
  | applied
  | blocked
  deriving DecidableEq

structure Plan (κ : Type) where
  appId : κ
  baselineReleaseId : κ
  status : PlanStatus
  targets : List (Target κ)
  deriving DecidableEq

/-- The status that `_refresh_plan_status` writes. -/
def refreshStatus (targets : List (Target κ)) : PlanStatus :=
  if targets ≠ [] ∧ targets.all Target.done then .applied
  else if targets.any Target.done then .partly
  else if targets ≠ [] ∧ targets.all (fun t => t.state = .blocked) then .blocked
  else .planned

/-- A target row is written, and the status refreshed in the same transaction. -/
def Plan.setTarget (plan : Plan κ) (k : Nat) (t : Target κ) : Plan κ :=
  { plan with targets := plan.targets.set k t, status := refreshStatus (plan.targets.set k t) }

/-! ### Preflight -/

structure Preflight (κ : Type) where
  expected : Option String
  actual : String
  included : List String
  missing : List String
  conflicts : List String
  conflictInstallations : List κ
  reason : Option Reason
  installationId : Option κ
  deriving DecidableEq

/-- What `_fetch_preflight` makes of its answers: the names of the tables it found, their
fingerprint, the owners of those that have one, and the installation of the app in the vault. -/
def fetchPreflight (allowlist : Allowlist) (found : List String) (actual : String) (owners : List (String × κ))
    (installationId : Option κ) (expected : Option String) : Preflight κ :=
  let missing := allowlist.names.filter (fun name => name ∉ found)
  { expected := expected
    actual := actual
    included := found
    missing := missing
    conflicts := owners.map Prod.fst
    conflictInstallations := owners.map Prod.snd
    installationId := installationId
    reason :=
      if missing ≠ [] then some .missingTable
      else if owners ≠ [] then some .ownershipConflict
      else if installationId.isSome then some .installationExists
      else if expected = none then some .releaseFingerprintMissing
      else if some actual ≠ expected then some .fingerprintMismatch
      else none }

/-- A planned target that matched its release when it was planned has changed since. -/
def Preflight.sincePlanned (pf : Preflight κ) (t : Target κ) : Preflight κ :=
  if pf.reason = some .fingerprintMismatch ∧ t.state = .planned ∧ t.actual = some t.expected then
    { pf with reason := some .fingerprintChanged }
  else pf

/-- The row of a new target; without an expected fingerprint the insert fails. -/
def newTarget (vaultId : κ) (allowlist : Allowlist) (pf : Preflight κ) : Option (Target κ) :=
  pf.expected.map (fun expected =>
    { vaultId := vaultId
      allowlist := allowlist
      expected := expected
      actual := some pf.actual
      included := pf.included
      missing := pf.missing
      conflicts := pf.conflicts
      state := if pf.reason = none then .planned else .blocked
      reason := pf.reason
      installationId := pf.installationId
      checkpoint := .preflight pf.reason })

def Target.recheck (t : Target κ) (pf : Preflight κ) : Target κ :=
  { t with actual := some pf.actual, included := pf.included, missing := pf.missing, conflicts := pf.conflicts }

/-- The target that a preflight with a reason leaves. -/
def Target.block (t : Target κ) (pf : Preflight κ) : Target κ :=
  { t.recheck pf with state := .blocked, reason := pf.reason, checkpoint := .preflight pf.reason }

/-- The target that has become the installation `i`. -/
def Target.apply (t : Target κ) (pf : Preflight κ) (i : κ) : Target κ :=
  { t.recheck pf with state := .applied, reason := none, installationId := some i, checkpoint := .applied }

def Target.replay (t : Target κ) : Target κ := { t with state := .replayed }

/-- What the handler of a unique violation writes. -/
def Target.refuse (t : Target κ) : Target κ :=
  { t with
    state := .blocked
    reason := some .ownershipConflict
    checkpoint := .preflight (some .ownershipConflict) }

/-! ### Audit rows -/

inductive AuditAction where
  | planCreated
  | targetApplied
  | targetReplayed
  | targetBlocked
  | resourceAdopted
  | ownershipDenied
  deriving DecidableEq

inductive Outcome where
  | ok
  | error
  | replay
  deriving DecidableEq

/-- A row of `app_legacy_adoption_audit`. -/
structure AuditRow (κ : Type) where
  planId : κ
  target : Option Nat
  installationId : Option κ
  vaultId : Option κ
  releaseId : κ
  action : AuditAction
  outcome : Outcome
  reasonCode : String
  deriving DecidableEq

/-- An audit row about a target. -/
def auditRow (planId : κ) (plan : Plan κ) (k : Nat) (t : Target κ) (installationId : Option κ) (action : AuditAction)
    (outcome : Outcome) (reasonCode : String) : AuditRow κ :=
  ⟨planId, some k, installationId, some t.vaultId, plan.baselineReleaseId, action, outcome, reasonCode⟩

/-- The rows that a blocked target leaves. -/
def blockRows (planId : κ) (plan : Plan κ) (k : Nat) (t : Target κ) (pf : Preflight κ) : List (AuditRow κ) :=
  let installationId := pf.installationId <|> pf.conflictInstallations.head?
  auditRow planId plan k t installationId .targetBlocked .error ((pf.reason.map Reason.code).getD "") ::
    if pf.reason = some .ownershipConflict then
      [auditRow planId plan k t installationId .ownershipDenied .error Reason.ownershipConflict.code]
    else []

/-- The rows that an applied target leaves. -/
def applyRows (planId : κ) (plan : Plan κ) (k : Nat) (t : Target κ) (pf : Preflight κ) (i : κ) : List (AuditRow κ) :=
  pf.included.map (fun _ => auditRow planId plan k t (some i) .resourceAdopted .ok "adopted") ++
    [auditRow planId plan k t (some i) .targetApplied .ok "applied"]

end Akb.Adoption
