import Akb.FileProjection.Worker
import Akb.Library.Run

/-! The catalogue, the outbox, the native ledger and the workers as one system. A
File mutation and its outbox row are one step; each transaction of a worker is
one step, and the steps of the workers interleave in any order. -/
namespace Akb.FileProjection
open Akb.Library Akb.Native Akb.Events

/-- The workers that run carry names in `ω`; `issued` are the intent ids drawn so far. -/
structure Projection (ω : Type) where
  files : Table VaultFile VaultFile.id
  outbox : Table OutboxRow OutboxRow.fileId
  ledger : Ledger
  workers : ω → Option Worker
  issued : List Uuid
  now : Int

inductive Action (ω : Type) where
  | register (f : VaultFile)
  | confirm (vaultId fileId : Uuid) (byteSize : Nat) (contentHash actor : String) (intentId : Uuid)
  | replaceContents (vaultId fileId : Uuid) (s3Key mimeType : String) (byteSize : Nat) (contentHash actor : String)
      (intentId : Uuid)
  | remove (vaultId fileId : Uuid) (actor : String) (intentId : Uuid)
  | cancel (vaultId fileId : Uuid)
  | claim (w : ω) (fileId : Uuid)
  | advance (w : ω) (d : Draws)
  | fault (w : ω)
  | crash (w : ω)
  | rescue
  | requeue (namespaceId : Uuid) (fileId : Option Uuid)
  | tick (seconds : Nat)

variable {ω : Type} [DecidableEq ω]

def OutboxRow.due (row : OutboxRow) (now : Int) : Bool := row.nextAttemptAt.all (fun at_ => at_ ≤ now)

/-- The rows `_claim_one` selects from. Which of them is the oldest that nobody
has locked is left open. -/
def OutboxRow.claimable (row : OutboxRow) (now : Int) : Bool :=
  row.outcome.isNone && decide (row.retryCount < maxRetries) && row.due now &&
    row.claimedAt.all (fun at_ => at_ < now - claimSecs)

def OutboxRow.claim (now : Int) (row : OutboxRow) : OutboxRow :=
  { row with claimedAt := some now, retryCount := row.retryCount + 1, nextAttemptAt := some (now + claimSecs) }

def OutboxRow.complete (outcome : Outcome) (row : OutboxRow) : OutboxRow :=
  { row with claimedAt := none, nextAttemptAt := none, retryCount := 0, outcome := some outcome }

/-- `_failure`, with the attempts the claim counted. -/
def OutboxRow.fail (now : Int) (attempt : Nat) (row : OutboxRow) : OutboxRow :=
  if maxRetries ≤ attempt then { row with claimedAt := none, nextAttemptAt := none, outcome := some .abandoned }
  else { row with claimedAt := none, nextAttemptAt := some (now + nextAttemptDelay (attempt - 1)) }

/-- The rescue of a claim that died on its last attempt. -/
def OutboxRow.rescue (row : OutboxRow) : OutboxRow :=
  { row with outcome := some .abandoned, claimedAt := none, nextAttemptAt := none }

def OutboxRow.requeue (now : Int) (row : OutboxRow) : OutboxRow :=
  { row with claimedAt := none, retryCount := 0, nextAttemptAt := some now, outcome := none }

namespace Projection
variable (env : Env) (s : Projection ω)

def setWorker (w : ω) (x : Option Worker) : ω → Option Worker := fun v => if v = w then x else s.workers v

/-- The insert that `enqueue_native_file_projection` and its deletion share: a new
intent takes over the row of its File. -/
def enqueue (files : Table VaultFile VaultFile.id) (row : OutboxRow) : Option (Projection ω) :=
  if row.shape && env.freshIntent s.issued row.intentId then
    some { s with files := files, outbox := s.outbox.upsert row, issued := row.intentId :: s.issued }
  else none

/-- `enqueue_native_file_projection` for a File as it is now in the catalogue. -/
def enqueueNativeFileProjection (f : VaultFile) (hash : String) (byteSize : Nat) (actor : String) (intentId : Uuid) :
    Option (Projection ω) :=
  s.enqueue env (s.files.upsert f) {
    fileId := f.id, intentId := intentId, namespaceId := f.vaultId
    source := some ⟨orOctetStream f.mimeType, hash, byteSize, f.s3Key⟩
    logicalPath := logicalPath f.collection f.name, actor := actor
    claimedAt := none, retryCount := 0, nextAttemptAt := none, outcome := none }

def enqueueNativeFileProjectionDelete (f : VaultFile) (actor : String) (intentId : Uuid) : Option (Projection ω) :=
  s.enqueue env (s.files.deleteWhere (fun g => g.id = f.id)) {
    fileId := f.id, intentId := intentId, namespaceId := f.vaultId, source := none
    logicalPath := logicalPath f.collection f.name, actor := actor
    claimedAt := none, retryCount := 0, nextAttemptAt := none, outcome := none }

/-- `find_by_id_for_update`. -/
def findFile (vaultId fileId : Uuid) : Option VaultFile :=
  (s.files.get? fileId).filter (fun f => f.vaultId = vaultId ∧ f.kind = "file")

def intentIsCurrent (intent : OutboxRow) : Bool :=
  s.outbox.rows.any (fun row => row.fileId = intent.fileId ∧ row.intentId = intent.intentId ∧ row.outcome.isNone)

/-- `_source`. -/
def findSource (intent : OutboxRow) : Option VaultFile :=
  (s.files.get? intent.fileId).filter (fun f => f.vaultId = intent.namespaceId)

/-- `_complete` and `_failure` touch the open row of the intent only. -/
def closeOpen (intent : OutboxRow) (close : OutboxRow → OutboxRow) (h : ∀ row, (close row).fileId = row.fileId) :
    Table OutboxRow OutboxRow.fileId :=
  s.outbox.updateWhere
    (fun row => row.fileId = intent.fileId ∧ row.intentId = intent.intentId ∧ row.outcome.isNone) close h

/-- The next phase of a worker that reads, outside a native call. -/
def read (x : Worker) : Phase :=
  match x.phase with
  | .checkIntent => if s.intentIsCurrent x.intent then .readResource else .finish .superseded
  | .readResource =>
    match x.intent.source with
    | none => ensureAbsent x.intent (resourceRow s.ledger x.intent.fileId)
    | some source => .readSource source (resourceRow s.ledger x.intent.fileId)
  | .readSource source resource =>
    if !sourceMatches x.intent source (s.findSource x.intent) then .failed
    else if !isNativeTextFile source.mimeType source.byteSize then ensureAbsent x.intent resource
    else .readPayload source resource
  | .readPayload source resource =>
    match env.readPayload source with
    | .error _ => ensureAbsent x.intent resource
    | .ok payload => .checkIntentAgain source payload resource
  | .checkIntentAgain source payload resource =>
    if s.intentIsCurrent x.intent then .readSourceAgain source payload resource else .finish .superseded
  | .readSourceAgain source payload resource =>
    if sourceMatches x.intent source (s.findSource x.intent) then project x.intent source payload resource
    else .finish .superseded
  | .rereadRestored source payload =>
    match resourceRow s.ledger x.intent.fileId with
    | none => .failed
    | some r => moveUnlessThere x.intent source payload r .restored
  | .rereadMoved source payload =>
    match resourceRow s.ledger x.intent.fileId with
    | none => .failed
    | some r => replaceUnlessEqual source payload r .moved
  | phase => phase

theorem complete_fileId (outcome : Outcome) (row : OutboxRow) : (row.complete outcome).fileId = row.fileId := rfl

theorem fail_fileId (now : Int) (attempt : Nat) (row : OutboxRow) : (row.fail now attempt).fileId = row.fileId := by
  rw [OutboxRow.fail]
  split <;> rfl

/-- One step of a worker: its native call, the statement that ends its pass, or its next read. -/
def advance (w : ω) (x : Worker) (d : Draws) : Projection ω :=
  match x.nativeCall env with
  | some (call, after) =>
    match call.run env.native s.ledger d with
    | .ok (_, ledger) => { s with ledger := ledger, workers := s.setWorker w (some { x with phase := after }) }
    | .error _ => { s with workers := s.setWorker w (some { x with phase := .failed }) }
  | none =>
    match x.phase with
    | .finish outcome =>
      { s with
        outbox := s.closeOpen x.intent (OutboxRow.complete outcome) (complete_fileId outcome)
        workers := s.setWorker w none }
    | .failed =>
      { s with
        outbox := s.closeOpen x.intent (OutboxRow.fail s.now x.intent.retryCount) (fail_fileId s.now x.intent.retryCount)
        workers := s.setWorker w none }
    | _ => { s with workers := s.setWorker w (some { x with phase := s.read env x }) }

def next : Action ω → Option (Projection ω)
  | .register f =>
    if f.uploadState = .pending then (s.files.insert? f).map (fun files => { s with files := files }) else none
  | .confirm vaultId fileId byteSize contentHash actor intentId =>
    (s.findFile vaultId fileId).bind fun f =>
      if f.uploadState = .pending then
        s.enqueueNativeFileProjection env
          { f with
            uploadState := .confirmed, sizeBytes := some byteSize, contentHash := some contentHash, hashVerified := true }
          contentHash byteSize actor intentId
      else none
  | .replaceContents vaultId fileId s3Key mimeType byteSize contentHash actor intentId =>
    (s.findFile vaultId fileId).bind fun f =>
      if f.uploadState = .confirmed then
        s.enqueueNativeFileProjection env
          { f with
            s3Key := s3Key, mimeType := some mimeType, sizeBytes := some byteSize, contentHash := some contentHash
            hashVerified := true }
          contentHash byteSize actor intentId
      else none
  | .remove vaultId fileId actor intentId =>
    (s.findFile vaultId fileId).bind fun f => s.enqueueNativeFileProjectionDelete env f actor intentId
  | .cancel vaultId fileId =>
    some { s with files := s.files.deleteWhere (fun f =>
      f.id = fileId ∧ f.vaultId = vaultId ∧ f.kind = "file" ∧ f.uploadState = .pending) }
  | .claim w fileId =>
    if (s.workers w).isNone then
      (s.outbox.get? fileId).bind fun row =>
        if row.claimable s.now then
          some { s with
            outbox := s.outbox.updateWhere (fun r => r.fileId = fileId) (OutboxRow.claim s.now) (fun _ => rfl)
            workers := s.setWorker w (some ⟨row.claim s.now, .checkIntent⟩) }
        else none
    else none
  | .advance w d => (s.workers w).map (fun x => s.advance env w x d)
  | .fault w => (s.workers w).bind fun x =>
    if x.applying then some { s with workers := s.setWorker w (some { x with phase := .failed }) } else none
  | .crash w => some { s with workers := s.setWorker w none }
  | .rescue => some { s with
      outbox := s.outbox.updateWhere
        (fun row => row.outcome.isNone && decide (maxRetries ≤ row.retryCount) && row.due s.now) OutboxRow.rescue
        (fun _ => rfl) }
  | .requeue namespaceId fileId => some { s with
      outbox := s.outbox.updateWhere
        (fun row => row.namespaceId = namespaceId ∧ row.outcome = some .abandoned ∧ fileId.all (fun id => row.fileId = id))
        (OutboxRow.requeue s.now) (fun _ => rfl) }
  | .tick seconds => some { s with now := s.now + seconds }

def step (s : Projection ω) (a : Action ω) (s' : Projection ω) : Prop := s.next env a = some s'

end Projection

/-- Nothing registered, nothing projected, nobody at work. -/
def Projection.initial (ω : Type) (now : Int) : Projection ω := ⟨.empty, .empty, .empty, fun _ => none, [], now⟩

end Akb.FileProjection
