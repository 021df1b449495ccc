import Akb.Rollout.Ledger

/-! The control plane around the rollout ledger: installation commands with the grants and
the resources they keep, and the programs that request rollouts. Fingerprints are in normal form. -/
namespace Akb.Rollout
open Akb.Library
variable {κ ω : Type} [LinearOrder κ] [DecidableEq ω]

/-- The provenance of a grant. -/
inductive Mode where
  | install
  | restore
  | fresh
  | initialGrantApproval
  deriving DecidableEq

/-- A row of `installation_grants`. -/
structure Grant (κ : Type) where
  installationId : κ
  generation : Nat
  active : Bool
  capabilities : List String
  mode : Mode
  deriving DecidableEq

inductive Ownership where
  | owned
  | retained
  deriving DecidableEq

/-- A row of `app_owned_resources`; the resources are tables. -/
structure Resource (κ : Type) where
  installationId : κ
  resourceKey : String
  status : Ownership
  deriving DecidableEq

/-- The identity columns of an installation. -/
structure Placement (κ : Type) where
  installationId : κ
  appId : κ
  vaultId : κ
  deriving DecidableEq

structure Release (κ : Type) where
  id : κ
  appId : κ
  /-- What its manifest says the schema is to be. -/
  schemaFingerprint : Option String
  deriving DecidableEq

/-- An open rollout request, which has read the installations it is to change. -/
structure Request (κ : Type) where
  releaseId : κ
  key : κ
  installationIds : List κ
  deriving DecidableEq

/-- `requests` are by app: they take the lock of their app. `adopted` are the installations that
an adoption has made, `jobKeys` and `resumeKeys` the idempotency keys of jobs and of resumptions. -/
structure Control (κ ω : Type) where
  ledger : Ledger κ ω
  releases : List (Release κ)
  placements : List (Placement κ)
  grants : List (Grant κ)
  resources : List (Resource κ)
  adopted : List κ
  requests : κ → Option (Request κ)
  jobKeys : List (κ × κ × κ)
  resumeKeys : List (κ × κ × κ)

def Control.empty (now : Int) (releases : List (Release κ)) : Control κ ω :=
  ⟨.empty now, releases, [], [], [], [], fun _ => none, [], []⟩

/-- The check that the table makes of lifecycle and releases. -/
def Installation.coherent (i : Installation κ) : Bool :=
  match i.lifecycle with
  | .installing => i.desiredReleaseId.isSome && i.currentReleaseId.isNone
  | .active => i.desiredReleaseId.isSome && decide (i.currentReleaseId = i.desiredReleaseId)
  | .upgrading => i.desiredReleaseId.isSome && i.currentReleaseId.isSome && decide (i.currentReleaseId ≠ i.desiredReleaseId)
  | .blocked => true
  | .uninstalled => i.desiredReleaseId.isNone

def Installation.restore (releaseId : κ) (i : Installation κ) : Installation κ :=
  { i with
    desiredReleaseId := some releaseId
    currentReleaseId := some releaseId
    lifecycle := .active
    blockedReason := none }

def Installation.refresh (releaseId : κ) (i : Installation κ) : Installation κ :=
  { i with
    desiredReleaseId := some releaseId
    currentReleaseId := none
    lifecycle := .installing
    blockedReason := none }

def Installation.uninstall (i : Installation κ) : Installation κ :=
  { i with
    desiredReleaseId := none
    lifecycle := .uninstalled
    blockedReason := none
    activeGeneration := none }

def Installation.observeGrant (generation : Nat) (i : Installation κ) : Installation κ :=
  { i with observed := i.observed.map (fun o => { o with grantGeneration := some generation }) }

def Installation.grant (generation : Nat) (i : Installation κ) : Installation κ :=
  { i with grantGeneration := generation, activeGeneration := some generation }

namespace Control

def setInstallation (s : Control κ ω) (id : κ) (f : Installation κ → Installation κ) (hf : ∀ i, (f i).id = i.id) :
    Ledger κ ω :=
  { s.ledger with installations := s.ledger.installations.updateWhere (fun i => i.id = id) f hf }

def setResources (s : Control κ ω) (id : κ) (status : Ownership) : List (Resource κ) :=
  s.resources.map (fun r => if r.installationId = id then { r with status := status } else r)

def revokeGrants (s : Control κ ω) (id : κ) : List (Grant κ) :=
  s.grants.map (fun g => if g.installationId = id then { g with active := false } else g)

def activeGrants (s : Control κ ω) (id : κ) : List (Grant κ) :=
  s.grants.filter (fun g => g.installationId = id && g.active)

def loadInstallation (s : Control κ ω) (appId vaultId : κ) : Option (Installation κ) :=
  (s.placements.find? (fun p => p.appId = appId && p.vaultId = vaultId)).bind
    (fun p => s.ledger.installations.get? p.installationId)

/-- The insertion advances the generation of the installation, and one grant at most is active. -/
def insertGrant (s : Control κ ω) (g : Grant κ) : Option (Control κ ω) :=
  match s.ledger.installations.get? g.installationId with
  | none => none
  | some i =>
    if i.grantGeneration + 1 = g.generation ∧ s.activeGrants g.installationId = [] then
      some { s with
        grants := s.grants ++ [g]
        ledger := s.setInstallation g.installationId (Installation.grant g.generation) (fun _ => rfl) }
    else none

/-- The rows of a job; the app has no other job under the key. -/
def persistRolloutJob (s : Control κ ω) (appId releaseId key jobId : κ) (targets : List (κ × κ)) :
    Option (Control κ ω) :=
  if s.jobKeys.any (fun k => k.1 = appId && k.2.1 = key) then none
  else
    (s.ledger.persistRolloutJob appId releaseId jobId targets).bind (fun ledger =>
      if ledger.installations.rows.all Installation.coherent then
        some { s with ledger := ledger, jobKeys := (appId, key, jobId) :: s.jobKeys }
      else none)

/-- The job of one fresh installation. Its key is made of the app, the installation, the release and
the grant generation. Whether the release has a plan for it is left open. -/
def enqueueInstallationRollout (s : Control κ ω) (appId installationId releaseId key jobId targetId : κ) :
    Option (Control κ ω) :=
  match s.ledger.installations.get? installationId with
  | none => none
  | some i =>
    if i.lifecycle = .installing ∧ i.currentReleaseId = none ∧ i.desiredReleaseId = some releaseId ∧
        i.activeGeneration = some i.grantGeneration then
      match s.jobKeys.find? (fun k => k.1 = appId && k.2.1 = key) with
      | none => s.persistRolloutJob appId releaseId key jobId [(targetId, installationId)]
      | some k =>
        if s.ledger.jobs.rows.any (fun j => j.id = k.2.2 && j.releaseId = releaseId) ∧
            (s.ledger.targets.rows.filter (fun t => t.jobId = k.2.2)).map Target.installationId = [installationId] then
          some s
        else none
    else none

end Control

structure Command (κ : Type) where
  appId : κ
  vaultId : κ
  releaseId : κ
  capabilities : List String
  mode : Mode
  deriving DecidableEq

/-- The identifiers that a command draws. -/
structure Drawn (κ : Type) where
  installationId : κ
  key : κ
  jobId : κ
  targetId : κ
  deriving DecidableEq

namespace Control

/-- Whether the command has been carried out already. -/
def replayed (s : Control κ ω) (c : Command κ) (i : Installation κ) : Bool :=
  i.desiredReleaseId = some c.releaseId &&
    match s.activeGrants i.id with
    | [] => false
    | g :: _ =>
      g.capabilities = c.capabilities &&
        match c.mode with
        | .install => i.lifecycle = .installing || i.lifecycle = .active
        | .fresh => g.mode = .fresh && i.lifecycle = .installing && decide (i.currentReleaseId = none)
        | .restore => g.mode = .restore && i.lifecycle = .active && decide (i.currentReleaseId = some c.releaseId)
        | .initialGrantApproval => false

/-- What the release asks of the state that was last observed. -/
def compatible (release : Release κ) (i : Installation κ) : Bool :=
  match i.observed, release.schemaFingerprint with
  | some o, some expected => o.releaseId = some release.id && decide (o.schemaFingerprint = some expected)
  | _, _ => false

def applyExistingCommand (s : Control κ ω) (c : Command κ) (release : Release κ) (i : Installation κ) (d : Drawn κ) :
    Option (Control κ ω) :=
  if i.lifecycle ≠ .uninstalled then none
  else
    let grant : Grant κ := ⟨i.id, i.grantGeneration + 1, true, c.capabilities, c.mode⟩
    match c.mode with
    | .restore =>
      if i.currentReleaseId = some c.releaseId ∧ compatible release i then
        let restored : Control κ ω := { s with
          resources := s.setResources i.id .owned
          ledger := s.setInstallation i.id (Installation.restore c.releaseId) (fun _ => rfl) }
        restored.insertGrant grant
      else none
    | .fresh =>
      if s.resources.any (fun r => r.installationId = i.id && r.status = .retained) then none
      else
        let refreshed : Control κ ω :=
          { s with ledger := s.setInstallation i.id (Installation.refresh c.releaseId) (fun _ => rfl) }
        (refreshed.insertGrant grant).bind (fun s' =>
          s'.enqueueInstallationRollout c.appId i.id c.releaseId d.key d.jobId d.targetId)
    | .install | .initialGrantApproval => none

def installNew (s : Control κ ω) (c : Command κ) (d : Drawn κ) : Option (Control κ ω) :=
  if c.mode ≠ .install then none
  else
    (s.ledger.installations.insert?
        ⟨d.installationId, c.appId, .installing, none, some c.releaseId, 0, none, none, none⟩).bind (fun installations =>
      let installed : Control κ ω := { s with
        ledger := { s.ledger with installations := installations }
        placements := ⟨d.installationId, c.appId, c.vaultId⟩ :: s.placements }
      (installed.insertGrant ⟨d.installationId, 1, true, c.capabilities, c.mode⟩).bind (fun s' =>
        s'.enqueueInstallationRollout c.appId d.installationId c.releaseId d.key d.jobId d.targetId))

def commandInstallation (s : Control κ ω) (c : Command κ) (d : Drawn κ) : Option (Control κ ω) :=
  match s.releases.find? (fun r => r.id = c.releaseId && r.appId = c.appId) with
  | none => none
  | some release =>
    match s.loadInstallation c.appId c.vaultId with
    | some i => if s.replayed c i then some s else s.applyExistingCommand c release i d
    | none => s.installNew c d

def uninstallInstallation (s : Control κ ω) (appId vaultId : κ) : Option (Control κ ω) :=
  match s.loadInstallation appId vaultId with
  | none => none
  | some i =>
    if i.lifecycle = .uninstalled then some s
    else
      some { s with
        grants := s.revokeGrants i.id
        ledger := s.setInstallation i.id Installation.uninstall (fun _ => rfl)
        resources := s.setResources i.id .retained }

/-- A legacy adoption makes an active installation that has no grant yet. -/
def adopt (s : Control κ ω) (id : κ) (release : Release κ) (vaultId : κ) (tables : List String)
    (fingerprint : Option String) : Option (Control κ ω) :=
  if s.placements.any (fun p => p.appId = release.appId && p.vaultId = vaultId) then none
  else
    (s.ledger.installations.insert? ⟨id, release.appId, .active, some release.id, some release.id, 0, none,
        some ⟨0, some release.id, fingerprint, some 0⟩, none⟩).map (fun installations =>
      { s with
        ledger := { s.ledger with installations := installations }
        placements := ⟨id, release.appId, vaultId⟩ :: s.placements
        resources := s.resources ++ tables.map (fun t => ⟨id, t, .owned⟩)
        adopted := id :: s.adopted })

/-- The first grant of an adopted installation. -/
def approveInitialInstallationGrant (s : Control κ ω) (appId vaultId : κ) (release : Release κ)
    (capabilities : List String) : Option (Control κ ω) :=
  match s.loadInstallation appId vaultId with
  | none => none
  | some i =>
    if i.id ∈ s.adopted ∧ i.lifecycle = .active ∧ i.desiredReleaseId = some release.id ∧
        i.currentReleaseId = some release.id ∧ i.grantGeneration = 0 ∧ compatible release i then
      (s.insertGrant ⟨i.id, 1, true, capabilities, .initialGrantApproval⟩).map (fun s' =>
        { s' with ledger := s'.setInstallation i.id (Installation.observeGrant 1) (fun _ => rfl) })
    else none

end Control
end Akb.Rollout

/-! Rollout requests, resumptions and workers beside the installation commands, and the
interleavings of all of them. -/
namespace Akb.Rollout
open Akb.Library
variable {κ ω : Type} [LinearOrder κ] [DecidableEq ω]

def TargetState.open : TargetState → Bool
  | .pending | .running => true
  | .applied | .replayed | .failed | .blocked => false

def JobStatus.live : JobStatus → Bool
  | .pending | .running => true
  | .applied | .blocked => false

/-- What a rollout request asks of an installation that it is to change. -/
def Installation.requestable (releaseId : κ) (i : Installation κ) : Bool :=
  decide (i.activeGeneration = some i.grantGeneration) &&
    match i.currentReleaseId with
    | none => i.lifecycle = .installing && decide (i.desiredReleaseId = some releaseId)
    | some current =>
      match i.observed with
      | none => false
      | some o => o.releaseId = some current && decide (o.grantGeneration = some i.grantGeneration)

namespace Control

/-- The installation waits in a job for this release already. -/
def queued (s : Control κ ω) (releaseId : κ) (i : Installation κ) : Bool :=
  s.ledger.targets.rows.any (fun t => t.installationId = i.id && t.state.open &&
    s.ledger.jobs.rows.any (fun j => j.id = t.jobId && j.status.live && j.releaseId = releaseId))

/-- A request reads the installations without locking them. A key that is in use makes no new job. -/
def readRollout (s : Control κ ω) (appId releaseId key : κ) : Option (Control κ ω) :=
  match s.requests appId with
  | some _ => none
  | none =>
    if s.jobKeys.any (fun k => k.1 = appId && k.2.1 = key) ∨
        ¬ s.releases.any (fun r => r.id = releaseId && r.appId = appId) then none
    else
      let targets := s.ledger.installations.rows.filter (fun i => i.appId = appId &&
        (i.lifecycle = .active || i.lifecycle = .installing) && i.currentReleaseId ≠ some releaseId &&
        !s.queued releaseId i)
      if targets ≠ [] ∧ targets.all (Installation.requestable releaseId) then
        some { s with requests := fun a =>
          if a = appId then some ⟨releaseId, key, targets.map Installation.id⟩ else s.requests a }
      else none

def closeRequest (s : Control κ ω) (appId : κ) : κ → Option (Request κ) :=
  fun a => if a = appId then none else s.requests a

/-- The second half of the request: the installations are set on their way, whatever became of them. -/
def persistRequest (s : Control κ ω) (appId jobId : κ) (targetIds : List κ) : Option (Control κ ω) :=
  match s.requests appId with
  | none => none
  | some q =>
    if targetIds.length = q.installationIds.length then
      (s.persistRolloutJob appId q.releaseId q.key jobId (targetIds.zip q.installationIds)).map (fun s' =>
        { s' with requests := s.closeRequest appId })
    else none

/-- A resumption locks its installations. A key that is in use for the source makes no new job. -/
def resumeRollout (s : Control κ ω) (appId sourceId releaseId key jobId : κ) (targetIds : List κ) :
    Option (Control κ ω) :=
  if s.resumeKeys.any (fun k => k.1 = sourceId && k.2.1 = key) ∨ s.jobKeys.any (fun k => k.1 = appId && k.2.1 = key) ∨
      ¬ s.ledger.jobs.rows.any (fun j => j.id = sourceId && j.appId = appId) then none
  else
    (s.ledger.resumeRollout sourceId releaseId jobId targetIds).bind (fun ledger =>
      if ledger.installations.rows.all Installation.coherent then
        some { s with
          ledger := ledger
          jobKeys := (appId, key, jobId) :: s.jobKeys
          resumeKeys := (sourceId, key, jobId) :: s.resumeKeys }
      else none)

/-- The tables that the steps of a target create, once the preflight has passed. -/
def createTables (s : Control κ ω) (t : Target κ ω) (tables : List String) : List (Resource κ) :=
  match s.ledger.preflightTarget t with
  | some _ => s.resources
  | none =>
    s.resources ++ (tables.filter (fun key =>
      !s.resources.any (fun r => r.installationId = t.installationId && r.resourceKey = key))).map
        (fun key => ⟨t.installationId, key, .owned⟩)

def processTarget (s : Control κ ω) (w : ω) (execution : Execution) (tables : List String) : Option (Control κ ω) :=
  match s.ledger.workers w with
  | .working t =>
    (s.ledger.processTarget w execution).map (fun ledger =>
      { s with ledger := ledger, resources := s.createTables t tables })
  | _ => none

end Control

inductive ControlAction (κ ω : Type) where
  | command (c : Command κ) (d : Drawn κ)
  | uninstall (appId vaultId : κ)
  | adopt (id : κ) (release : Release κ) (vaultId : κ) (tables : List String) (fingerprint : Option String)
  | approve (appId vaultId : κ) (release : Release κ) (capabilities : List String)
  | readRollout (appId releaseId key : κ)
  | persistRequest (appId jobId : κ) (targetIds : List κ)
  | giveUpRequest (appId : κ)
  | resumeRollout (appId sourceId releaseId key jobId : κ) (targetIds : List κ)
  | reclaim (w : ω)
  | takeSnapshot (w : ω)
  | claimTarget (w : ω) (skipped : List κ)
  | commitClaim (w : ω)
  | processTarget (w : ω) (execution : Execution) (tables : List String)
  | stop (w : ω)
  | observe (id : κ) (o : Observed κ)
  | elapse (seconds : Nat)
  deriving DecidableEq

/-- The app reports the state of an installation. -/
def Installation.observe (o : Observed κ) (i : Installation κ) : Installation κ := { i with observed := some o }

namespace Control

def onLedger (s : Control κ ω) (ledger : Option (Ledger κ ω)) : Option (Control κ ω) :=
  ledger.map (fun l => { s with ledger := l })

def next (s : Control κ ω) : ControlAction κ ω → Option (Control κ ω)
  | .command c d => s.commandInstallation c d
  | .uninstall appId vaultId => s.uninstallInstallation appId vaultId
  | .adopt id release vaultId tables fingerprint => s.adopt id release vaultId tables fingerprint
  | .approve appId vaultId release capabilities => s.approveInitialInstallationGrant appId vaultId release capabilities
  | .readRollout appId releaseId key => s.readRollout appId releaseId key
  | .persistRequest appId jobId targetIds => s.persistRequest appId jobId targetIds
  | .giveUpRequest appId => some { s with requests := s.closeRequest appId }
  | .resumeRollout appId sourceId releaseId key jobId targetIds =>
    s.resumeRollout appId sourceId releaseId key jobId targetIds
  | .reclaim w => s.onLedger (s.ledger.reclaim w)
  | .takeSnapshot w => s.onLedger (s.ledger.takeSnapshot w)
  | .claimTarget w skipped => s.onLedger (s.ledger.claimTarget w skipped)
  | .commitClaim w => s.onLedger (s.ledger.commitClaim w)
  | .processTarget w execution tables => s.processTarget w execution tables
  | .stop w => s.onLedger (s.ledger.next (.stop w))
  | .observe id o => some { s with ledger := s.setInstallation id (Installation.observe o) (fun _ => rfl) }
  | .elapse seconds => s.onLedger (s.ledger.next (.elapse seconds))

def step (s : Control κ ω) (a : ControlAction κ ω) (s' : Control κ ω) : Prop := s.next a = some s'

end Control
end Akb.Rollout
