import Akb.Library.Table
import Akb.Library.Run
import Mathlib.Data.List.Sort

/-! The rollout ledger: jobs, their targets and the installations they change.
Workers claim targets in transactions of their own and process them in others.
One type `κ` of UUIDs names apps, releases, jobs, targets and installations. -/
namespace Akb.Rollout
open Akb.Library
variable {κ ω : Type} [LinearOrder κ] [DecidableEq ω]

scoped instance lawfulBEqOfLinearOrder : LawfulBEq κ := inferInstance

inductive TargetState where
  | pending
  | running
  | applied
  | replayed
  | failed
  | blocked
  deriving DecidableEq

inductive JobStatus where
  | pending
  | running
  | applied
  | blocked
  deriving DecidableEq

inductive Lifecycle where
  | installing
  | active
  | upgrading
  | blocked
  | uninstalled
  deriving DecidableEq

def TargetState.settled : TargetState → Bool
  | .applied | .replayed => true
  | .pending | .running | .failed | .blocked => false

/-- Why a target failed or was blocked. -/
inductive Reason where
  | installationStale
  | grantStale
  | observedStale
  | releaseMissing
  | manifestInvalid
  | sourcePlanUnavailable
  | stepMissing
  | stepFailed
  | schemaUnavailable
  | schemaProjectionMissing
  | schemaMismatch
  | rolloutBlocked
  deriving DecidableEq

def Reason.code : Reason → String
  | .installationStale => "installation_stale"
  | .grantStale => "grant_stale"
  | .observedStale => "observed_stale"
  | .releaseMissing => "release_missing"
  | .manifestInvalid => "manifest_invalid"
  | .sourcePlanUnavailable => "source_plan_unavailable"
  | .stepMissing => "step_missing"
  | .stepFailed => "step_failed"
  | .schemaUnavailable => "schema_unavailable"
  | .schemaProjectionMissing => "schema_projection_missing"
  | .schemaMismatch => "schema_mismatch"
  | .rolloutBlocked => "rollout_blocked"

/-- A row of `app_installation_observed_states`. -/
structure Observed (κ : Type) where
  generation : Nat
  releaseId : Option κ
  schemaFingerprint : Option String
  grantGeneration : Option Nat
  deriving DecidableEq

/-- A row of `vault_app_installations` with the generation of its newest active
grant and the state that was last observed of it. -/
structure Installation (κ : Type) where
  id : κ
  appId : κ
  lifecycle : Lifecycle
  currentReleaseId : Option κ
  desiredReleaseId : Option κ
  grantGeneration : Nat
  activeGeneration : Option Nat
  observed : Option (Observed κ)
  blockedReason : Option Reason
  deriving DecidableEq

structure Job (κ : Type) where
  id : κ
  appId : κ
  releaseId : κ
  status : JobStatus
  blockedReason : Option Reason
  deriving DecidableEq

structure Target (κ ω : Type) where
  id : κ
  jobId : κ
  appId : κ
  installationId : κ
  releaseId : κ
  ordinal : Nat
  batchNo : Nat
  state : TargetState
  reasonCode : Option Reason
  leaseOwner : Option ω
  leaseExpiresAt : Option Int
  deriving DecidableEq

abbrev Targets (κ ω : Type) := Table (Target κ ω) Target.id

/-- How far a claim transaction has come: its expired targets are reclaimed; its
claim statement reads a snapshot; it has locked the target it found, if any. -/
inductive ClaimStage (κ ω : Type) where
  | reclaimed
  | reading (snapshot : List (Target κ ω))
  | locked (target : Option (Target κ ω))
  deriving DecidableEq

/-- An open claim transaction. `overtaken` are the batches in which another claim
was committed since it read its snapshot. -/
structure ClaimTx (κ ω : Type) where
  startedAt : Int
  reclaimed : List κ
  stage : ClaimStage κ ω
  overtaken : List (κ × Nat)
  deriving DecidableEq

inductive Worker (κ ω : Type) where
  | idle
  | claiming (tx : ClaimTx κ ω)
  | working (target : Target κ ω)
  deriving DecidableEq

structure Ledger (κ ω : Type) where
  now : Int
  jobs : Table (Job κ) Job.id
  targets : Targets κ ω
  installations : Table (Installation κ) Installation.id
  workers : ω → Worker κ ω
  rowLocks : κ → Option ω

def Ledger.empty (now : Int) : Ledger κ ω := ⟨now, .empty, .empty, .empty, fun _ => .idle, fun _ => none⟩

def leaseSeconds : Int := 120

/-- `ORDER BY job_id, batch_no, ordinal`. -/
def Target.before (a b : Target κ ω) : Bool :=
  a.jobId < b.jobId ||
    (a.jobId = b.jobId && (a.batchNo < b.batchNo || (a.batchNo = b.batchNo && decide (a.ordinal ≤ b.ordinal))))

/-- What the claim statement asks of a target, over its snapshot. -/
def Target.eligible (snapshot : List (Target κ ω)) (t : Target κ ω) : Bool :=
  t.state = .pending &&
    !snapshot.any (fun prior => prior.jobId = t.jobId && prior.batchNo < t.batchNo && !prior.state.settled) &&
    !snapshot.any (fun same => same.jobId = t.jobId && same.batchNo = t.batchNo && same.state = .running)

def Target.withdraw (t : Target κ ω) : Target κ ω :=
  { t with state := .pending, leaseOwner := none, leaseExpiresAt := none }

def Target.claim (w : ω) (expiresAt : Int) (t : Target κ ω) : Target κ ω :=
  { t with state := .running, leaseOwner := some w, leaseExpiresAt := some expiresAt }

def Target.fail (reason : Reason) (t : Target κ ω) : Target κ ω :=
  { t with state := .failed, reasonCode := some reason, leaseOwner := none, leaseExpiresAt := none }

def Target.block (t : Target κ ω) : Target κ ω := { t with state := .blocked, reasonCode := some .rolloutBlocked }

def Target.apply (t : Target κ ω) : Target κ ω :=
  { t with state := .applied, leaseOwner := none, leaseExpiresAt := none }

def Job.start (j : Job κ) : Job κ := if j.status = .pending then { j with status := .running } else j

def Job.block (reason : Reason) (j : Job κ) : Job κ := { j with status := .blocked, blockedReason := some reason }

def Job.advance (status : JobStatus) (j : Job κ) : Job κ := { j with status := status }

omit [LinearOrder κ] in
@[simp] theorem Job.start_id (j : Job κ) : j.start.id = j.id := by
  rw [Job.start]
  split <;> rfl

/-- A canary, then batches of ten. -/
def batchNo (ordinal : Nat) : Nat := if ordinal = 0 then 0 else (ordinal - 1) / 10 + 1

/-- How the execution of a target's steps ends, once the preflight has passed. -/
inductive Execution where
  | failed (reason : Reason)
  | yielded
  | converged (fingerprint : String)
  deriving DecidableEq

def Installation.preflight (t : Target κ ω) (i : Installation κ) : Option Reason :=
  if i.lifecycle ≠ .installing ∧ i.lifecycle ≠ .upgrading ∨ i.desiredReleaseId ≠ some t.releaseId then
    some .installationStale
  else if i.activeGeneration ≠ some i.grantGeneration then some .grantStale
  else if i.currentReleaseId = none ∧ i.lifecycle = .installing then none
  else
    match i.observed with
    | none => some .observedStale
    | some o =>
      if o.releaseId ≠ i.currentReleaseId ∨ o.grantGeneration ≠ some i.grantGeneration then some .observedStale
      else none

def Installation.block (reason : Reason) (i : Installation κ) : Installation κ :=
  { i with lifecycle := .blocked, blockedReason := some reason }

/-- What the ledger records of an installation that converged on a release. -/
def Installation.converge (releaseId : κ) (fingerprint : String) (i : Installation κ) : Installation κ :=
  { i with
    lifecycle := .active
    currentReleaseId := i.desiredReleaseId
    blockedReason := none
    observed := some (match i.observed with
      | some o => ⟨o.generation + 1, some releaseId, some fingerprint, o.grantGeneration⟩
      | none => ⟨0, some releaseId, some fingerprint, some i.grantGeneration⟩) }

namespace Ledger

def setWorker (s : Ledger κ ω) (w : ω) (x : Worker κ ω) : ω → Worker κ ω := fun v => if v = w then x else s.workers v

def unlock (s : Ledger κ ω) (w : ω) : κ → Option ω := fun id => if s.rowLocks id = some w then none else s.rowLocks id

def setTarget (targets : Targets κ ω) (id : κ) (f : Target κ ω → Target κ ω) (hf : ∀ t, (f t).id = t.id) : Targets κ ω :=
  targets.updateWhere (fun t => t.id = id) f hf

def setJob (s : Ledger κ ω) (id : κ) (f : Job κ → Job κ) (hf : ∀ j, (f j).id = j.id) : Table (Job κ) Job.id :=
  s.jobs.updateWhere (fun j => j.id = id) f hf

def setInstallation (s : Ledger κ ω) (t : Target κ ω) (f : Installation κ → Installation κ)
    (hf : ∀ i, (f i).id = i.id) : Table (Installation κ) Installation.id :=
  s.installations.updateWhere (fun i => i.id = t.installationId && i.appId = t.appId) f hf

/-! A claim is one READ COMMITTED transaction: it takes back the expired targets,
then claims the first eligible one that no other transaction has locked. -/

def expired (s : Ledger κ ω) (t : Target κ ω) : Bool :=
  t.state = .running && t.leaseExpiresAt.any (fun at_ => at_ < s.now) &&
    s.jobs.rows.any (fun j => j.id = t.jobId && (j.status = .pending || j.status = .running))

def reclaim (s : Ledger κ ω) (w : ω) : Option (Ledger κ ω) :=
  match s.workers w with
  | .idle =>
    let ids := (s.targets.rows.filter s.expired).map Target.id
    if ids.all (fun id => s.rowLocks id = none) then
      some { s with
        rowLocks := fun id => if id ∈ ids then some w else s.rowLocks id
        workers := s.setWorker w (.claiming ⟨s.now, ids, .reclaimed, []⟩) }
    else none
  | _ => none

def takeSnapshot (s : Ledger κ ω) (w : ω) : Option (Ledger κ ω) :=
  match s.workers w with
  | .claiming tx =>
    if tx.stage = .reclaimed then
      let snapshot := s.targets.rows.map (fun t => if t.id ∈ tx.reclaimed then t.withdraw else t)
      some { s with workers := s.setWorker w (.claiming { tx with stage := .reading snapshot, overtaken := [] }) }
    else none
  | _ => none

/-- A row that changed since the snapshot is only taken if it is still pending;
its siblings are not read again. `skipped` are rows locked by other programs. -/
def claimTarget (s : Ledger κ ω) (w : ω) (skipped : List κ) : Option (Ledger κ ω) :=
  match s.workers w with
  | .claiming tx =>
    match tx.stage with
    | .reading snapshot =>
      let ordered := (snapshot.filter (Target.eligible snapshot)).insertionSort (fun a b => a.before b)
      let available (t : Target κ ω) : Bool :=
        (s.rowLocks t.id = none || s.rowLocks t.id = some w) && t.id ∉ skipped &&
          (t.id ∈ tx.reclaimed || s.targets.rows.any (fun r => r.id = t.id && r.state = .pending))
      let found := ordered.find? available
      some { s with
        rowLocks := fun id => if found.any (fun t => t.id = id) then some w else s.rowLocks id
        workers := s.setWorker w (.claiming { tx with stage := .locked found }) }
    | _ => none
  | _ => none

/-- What the open claims of other workers have missed once `w` commits its claim. -/
def overtake (s : Ledger κ ω) (w : ω) (x : Worker κ ω) (t : Target κ ω) : ω → Worker κ ω := fun v =>
  if v = w then x
  else
    match s.workers v with
    | .claiming tx => .claiming { tx with overtaken := (t.jobId, t.batchNo) :: tx.overtaken }
    | y => y

def commitClaim (s : Ledger κ ω) (w : ω) : Option (Ledger κ ω) :=
  match s.workers w with
  | .claiming tx =>
    match tx.stage with
    | .locked found =>
      let withdrawn := s.targets.updateWhere (fun t => t.id ∈ tx.reclaimed) Target.withdraw (fun _ => rfl)
      match found with
      | none => some { s with targets := withdrawn, rowLocks := s.unlock w, workers := s.setWorker w .idle }
      | some t =>
        some { s with
          targets := setTarget withdrawn t.id (Target.claim w (tx.startedAt + leaseSeconds)) (fun _ => rfl)
          jobs := s.setJob t.jobId Job.start Job.start_id
          rowLocks := s.unlock w
          workers := s.overtake w (.working t) t }
    | _ => none
  | _ => none

/-! Processing a target is one transaction; transactions that process targets run
one after the other, as they all take the role-authority lock first. -/

def markJobBlocked (s : Ledger κ ω) (t : Target κ ω) (reason : Reason) : Ledger κ ω :=
  { s with
    targets := (setTarget s.targets t.id (Target.fail reason) (fun _ => rfl)).updateWhere
      (fun r => r.jobId = t.jobId && r.state = .pending) Target.block (fun _ => rfl)
    installations := s.setInstallation t (Installation.block reason) (fun _ => rfl)
    jobs := s.setJob t.jobId (Job.block reason) (fun _ => rfl) }

def preflightTarget (s : Ledger κ ω) (t : Target κ ω) : Option Reason :=
  match s.installations.rows.find? (fun i => i.id = t.installationId && i.appId = t.appId) with
  | none => some .installationStale
  | some i => i.preflight t

def yieldTarget (s : Ledger κ ω) (t : Target κ ω) : Ledger κ ω :=
  { s with targets := setTarget s.targets t.id Target.withdraw (fun _ => rfl) }

def convergeTarget (s : Ledger κ ω) (t : Target κ ω) (fingerprint : String) : Ledger κ ω :=
  let targets := setTarget s.targets t.id Target.apply (fun _ => rfl)
  let remaining := targets.rows.any (fun r => r.jobId = t.jobId && !r.state.settled)
  { s with
    targets := targets
    installations := s.setInstallation t (Installation.converge t.releaseId fingerprint) (fun _ => rfl)
    jobs := s.setJob t.jobId (Job.advance (if remaining then .running else .applied)) (fun _ => rfl) }

def processed (s : Ledger κ ω) (t : Target κ ω) (execution : Execution) : Ledger κ ω :=
  match s.preflightTarget t, execution with
  | some reason, _ => s.markJobBlocked t reason
  | none, .failed reason => s.markJobBlocked t reason
  | none, .yielded => s.yieldTarget t
  | none, .converged fingerprint => s.convergeTarget t fingerprint

/-- Whether processing the target blocks its job. -/
def blocks (s : Ledger κ ω) (t : Target κ ω) (execution : Execution) : Bool :=
  match s.preflightTarget t, execution with
  | some _, _ | none, .failed _ => true
  | none, .yielded | none, .converged _ => false

/-- The transaction waits for the rows that a claim has locked. -/
def processTarget (s : Ledger κ ω) (w : ω) (execution : Execution) : Option (Ledger κ ω) :=
  match s.workers w with
  | .working t =>
    let touched (r : Target κ ω) : Bool :=
      r.id = t.id || (s.blocks t execution && r.jobId = t.jobId && r.state = .pending)
    if s.targets.rows.all (fun r => !touched r || s.rowLocks r.id = none) then
      some { s.processed t execution with workers := s.setWorker w .idle }
    else none
  | _ => none

end Ledger
end Akb.Rollout

/-! The programs that append to the rollout ledger, and its runs. -/
namespace Akb.Rollout
open Akb.Library
variable {κ ω : Type} [LinearOrder κ] [DecidableEq ω]

/-- A target to be inserted; what has converged already is only replayed. -/
structure Entry (κ : Type) where
  targetId : κ
  installationId : κ
  converged : Bool
  deriving DecidableEq

def Entry.target (jobId appId releaseId : κ) (ordinal : Nat) (e : Entry κ) : Target κ ω :=
  ⟨e.targetId, jobId, appId, e.installationId, releaseId, ordinal, batchNo ordinal,
    if e.converged then .replayed else .pending, none, none, none⟩

/-- The installation is set on its way to the release. -/
def Installation.desire (releaseId : κ) (i : Installation κ) : Installation κ :=
  { i with
    desiredReleaseId := some releaseId
    lifecycle := if i.currentReleaseId = none then .installing else .upgrading
    blockedReason := none }

/-- What a resumption asks of an installation of the source job. -/
def Installation.resumable (releaseId : κ) (i : Installation κ) : Bool :=
  decide (i.activeGeneration = some i.grantGeneration) &&
    match i.currentReleaseId with
    | none => (i.lifecycle = .blocked || i.lifecycle = .installing) && decide (i.desiredReleaseId = some releaseId)
    | some current =>
      match i.observed with
      | none => false
      | some o => o.releaseId = some current && decide (o.grantGeneration = some i.grantGeneration)

namespace Ledger

/-- A job with its targets in order; an installation has one target in it. -/
def insertJob (s : Ledger κ ω) (appId releaseId jobId : κ) (entries : List (Entry κ)) : Option (Ledger κ ω) :=
  let status : JobStatus := if entries.all Entry.converged then .applied else .pending
  if entries ≠ [] ∧ (entries.map Entry.installationId).Nodup then
    (s.jobs.insert? ⟨jobId, appId, releaseId, status, none⟩).bind (fun jobs =>
      (s.targets.insertAll? (entries.zipIdx.map (fun e => e.1.target jobId appId releaseId e.2))).map (fun targets =>
        { s with
          jobs := jobs
          targets := targets
          installations := s.installations.updateWhere
            (fun i => i.appId = appId && entries.any (fun e => e.installationId = i.id && !e.converged))
            (Installation.desire releaseId) (fun _ => rfl) }))
  else none

/-- The job of one fresh installation, or of all that a release request found. -/
def persistRolloutJob (s : Ledger κ ω) (appId releaseId jobId : κ) (targets : List (κ × κ)) : Option (Ledger κ ω) :=
  s.insertJob appId releaseId jobId (targets.map (fun t => ⟨t.1, t.2, false⟩))

/-- A new attempt at a blocked job, over the same installations. -/
def resumeRollout (s : Ledger κ ω) (sourceId releaseId jobId : κ) (ids : List κ) : Option (Ledger κ ω) :=
  match s.jobs.get? sourceId with
  | none => none
  | some source =>
    let sources := (s.targets.rows.filter (fun t => t.jobId = sourceId)).insertionSort (fun a b => a.ordinal ≤ b.ordinal)
    let found := sources.filterMap (fun t => (s.installations.get? t.installationId).filter
      (fun i => i.appId = source.appId && decide (i.lifecycle ≠ .uninstalled)))
    if source.status = .blocked ∧ source.releaseId = releaseId ∧ found.length = sources.length ∧
        found.all (Installation.resumable releaseId) ∧ ids.length = found.length then
      s.insertJob source.appId releaseId jobId
        ((ids.zip found).map (fun e => ⟨e.1, e.2.id, decide (e.2.currentReleaseId = some releaseId)⟩))
    else none

end Ledger

/-- `change` is any other program that writes to an installation. -/
inductive LedgerAction (κ ω : Type) where
  | persistRolloutJob (appId releaseId jobId : κ) (targets : List (κ × κ))
  | resumeRollout (sourceId releaseId jobId : κ) (ids : List κ)
  | reclaim (w : ω)
  | takeSnapshot (w : ω)
  | claimTarget (w : ω) (skipped : List κ)
  | commitClaim (w : ω)
  | processTarget (w : ω) (execution : Execution)
  | stop (w : ω)
  | change (i : Installation κ)
  | elapse (seconds : Nat)
  deriving DecidableEq

def Ledger.next (s : Ledger κ ω) : LedgerAction κ ω → Option (Ledger κ ω)
  | .persistRolloutJob appId releaseId jobId targets => s.persistRolloutJob appId releaseId jobId targets
  | .resumeRollout sourceId releaseId jobId ids => s.resumeRollout sourceId releaseId jobId ids
  | .reclaim w => s.reclaim w
  | .takeSnapshot w => s.takeSnapshot w
  | .claimTarget w skipped => s.claimTarget w skipped
  | .commitClaim w => s.commitClaim w
  | .processTarget w execution => s.processTarget w execution
  | .stop w => some { s with rowLocks := s.unlock w, workers := s.setWorker w .idle }
  | .change i => some { s with installations := s.installations.upsert i }
  | .elapse seconds => some { s with now := s.now + seconds }

def Ledger.step (s : Ledger κ ω) (a : LedgerAction κ ω) (s' : Ledger κ ω) : Prop := s.next a = some s'

end Akb.Rollout
