import Akb.Native.Service
import Akb.Events.Publisher

/-! The File catalogue, the outbox of its native text projection, and the checks of
what is text. -/
namespace Akb.FileProjection
open Akb.Library Akb.Native

inductive UploadState where
  | pending
  | confirmed
  deriving DecidableEq

/-- A row of `vault_files`, with the path of its collection. -/
structure VaultFile where
  id : Uuid
  vaultId : Uuid
  kind : String
  uploadState : UploadState
  collection : Option String
  name : String
  mimeType : Option String
  sizeBytes : Option Nat
  contentHash : Option String
  s3Key : String
  hashVerified : Bool
  deriving DecidableEq

/-- The path of the query: `c.path || '/' || vf.name`. -/
def VaultFile.logicalPath (f : VaultFile) : String := f.collection.elim f.name (fun path => path ++ "/" ++ f.name)

/-- `_logical_path`, which takes an empty collection for none. -/
def logicalPath (collection : Option String) (name : String) : String :=
  (collection.filter (fun path => path ≠ "")).elim name (fun path => path ++ "/" ++ name)

/-- `mime_type or "application/octet-stream"`. -/
def orOctetStream (mimeType : Option String) : String :=
  (mimeType.filter (fun mime => mime ≠ "")).getD "application/octet-stream"

/-- What an intent records of a File that is there. -/
structure Source where
  mimeType : String
  contentHash : String
  byteSize : Nat
  s3Key : String
  deriving DecidableEq

inductive Outcome where
  | superseded
  | alreadyAbsent
  | deleted
  | created
  | restored
  | unchanged
  | moved
  | replaced
  | abandoned
  deriving DecidableEq

/-- A row of `native_file_projection_outbox`. The source columns stand or fall
together, and a row is completed when it has an outcome. -/
structure OutboxRow where
  fileId : Uuid
  intentId : Uuid
  namespaceId : Uuid
  source : Option Source
  logicalPath : String
  actor : String
  claimedAt : Option Int
  retryCount : Nat
  nextAttemptAt : Option Int
  outcome : Option Outcome
  deriving DecidableEq

/-- `btrim(text) = ''`. -/
def trimsToNothing (text : String) : Bool := text.toList.all (fun c => c = ' ')

/-- `content_hash ~ '^[0-9a-f]{64}$'`. -/
def isDigest (text : String) : Bool :=
  text.length == 64 && text.toList.all (fun c => "0123456789abcdef".toList.contains c)

/-- The checks of the table on what an intent records. -/
def OutboxRow.shape (row : OutboxRow) : Bool :=
  !trimsToNothing row.logicalPath && !trimsToNothing row.actor &&
    row.source.all (fun source => !trimsToNothing source.mimeType && isDigest source.contentHash &&
      !trimsToNothing source.s3Key)

def isNativeTextFile (mimeType : String) (byteSize : Nat) : Bool :=
  (mimeType.toList.map Char.toLower).take 5 == "text/".toList && decide (byteSize ≤ maxTextBytes)

def validateNativeTextFile (rt : Runtime) (payload : ByteArray) (digest : String) (byteSize : Nat) :
    Except String Unit := do
  refuse (payload.size ≠ byteSize) "File byte size changed before Native projection"
  refuse (rt.sha256 payload ≠ digest) "File digest changed before Native projection"
  refuse (maxTextBytes < payload.size ∨ payload.data.contains 0) "File is not eligible Native searchable text"
  refuse (¬ payload.validateUTF8) "File is not valid UTF-8 Native searchable text"

inductive Stage where
  | create
  | restore
  | move
  | replace
  | delete
  deriving DecidableEq

def Stage.all : List Stage := [.create, .restore, .move, .replace, .delete]

/-- What the worker takes from outside: the native service's libraries, the bytes
of an object key, and `uuid5` of an intent and a stage. -/
structure Env where
  native : Runtime
  body : String → ByteArray
  mutationId : Uuid → Stage → Uuid

/-- `_read_payload` and its validation; the errors are the `ValueError`s. -/
def Env.readPayload (env : Env) (source : Source) : Except String ByteArray := do
  let payload := env.body source.s3Key
  refuse (maxTextBytes < payload.size) "File exceeds Native searchable text limit"
  validateNativeTextFile env.native payload source.contentHash source.byteSize
  return payload

/-- A drawn intent id is new, and so are the mutation ids that derive from it. -/
def Env.freshIntent (env : Env) (issued : List Uuid) (intentId : Uuid) : Bool :=
  !issued.contains intentId &&
    Stage.all.all (fun st => Stage.all.all (fun st' =>
      decide (env.mutationId intentId st = env.mutationId intentId st' → st = st') &&
        issued.all (fun other => env.mutationId intentId st ≠ env.mutationId other st')))

/-- The text a confirmed File should have in the native index. -/
def VaultFile.EligibleText (env : Env) (f : VaultFile) : Prop :=
  ∃ contentHash byteSize, f.contentHash = some contentHash ∧ f.sizeBytes = some byteSize ∧
    isNativeTextFile (orOctetStream f.mimeType) byteSize ∧
    ∃ payload, env.readPayload ⟨orOctetStream f.mimeType, contentHash, byteSize, f.s3Key⟩ = .ok payload

/-- `_source_matches` of a source that the intent says is present. -/
def sourceMatches (row : OutboxRow) (source : Source) (f : Option VaultFile) : Bool :=
  f.any (fun f => f.kind = "file" ∧ f.uploadState = .confirmed ∧ f.hashVerified ∧ f.logicalPath = row.logicalPath ∧
    orOctetStream f.mimeType = source.mimeType ∧ f.contentHash = some source.contentHash ∧
    f.sizeBytes = some source.byteSize ∧ f.s3Key = source.s3Key)

/-! One pass of the projection worker, a transaction or an object read at a time. -/
/-- What `_resource` reads: the Resource of the File and the digest of its head. -/
structure ResourceRow where
  namespaceId : Uuid
  surface : Surface
  lifecycle : Lifecycle
  currentPath : String
  headRevisionId : Option RevisionId
  digest : Option String
  deriving DecidableEq

def resourceRow (l : Ledger) (fileId : Uuid) : Option ResourceRow :=
  (l.resources.get? fileId).map (fun r => ⟨r.namespaceId, r.surface, r.lifecycle, r.currentPath, r.headRevisionId,
    (headManifest l fileId).map Manifest.digest⟩)

/-- Where a worker stands, with what it has read so far. `failed` is the handler
of an exception. -/
inductive Phase where
  | checkIntent
  | readResource
  | readSource (source : Source) (resource : Option ResourceRow)
  | readPayload (source : Source) (resource : Option ResourceRow)
  | checkIntentAgain (source : Source) (payload : ByteArray) (resource : Option ResourceRow)
  | readSourceAgain (source : Source) (payload : ByteArray) (resource : Option ResourceRow)
  | create (source : Source) (payload : ByteArray)
  | restore (source : Source) (payload : ByteArray) (resource : ResourceRow)
  | rereadRestored (source : Source) (payload : ByteArray)
  | move (source : Source) (payload : ByteArray) (resource : ResourceRow)
  | rereadMoved (source : Source) (payload : ByteArray)
  | replace (source : Source) (payload : ByteArray) (resource : ResourceRow)
  | delete (resource : ResourceRow)
  | finish (outcome : Outcome)
  | failed
  deriving DecidableEq

/-- A worker holds the outbox row as its claim returned it. -/
structure Worker where
  intent : OutboxRow
  phase : Phase
  deriving DecidableEq

/-- The worker is still inside `_apply`. -/
def Worker.applying (x : Worker) : Bool :=
  match x.phase with
  | .finish _ => false
  | .failed => false
  | _ => true

/-- `_validate_resource`. -/
def validResource (intent : OutboxRow) (r : ResourceRow) : Bool :=
  decide (r.namespaceId = intent.namespaceId) && decide (r.surface = .file)

/-- `_ensure_absent` up to its native call. -/
def ensureAbsent (intent : OutboxRow) : Option ResourceRow → Phase
  | none => .finish .alreadyAbsent
  | some r =>
    if r.lifecycle = .deleted then .finish .alreadyAbsent
    else if validResource intent r then .delete r
    else .failed

/-- The digest comparison at the end of `_apply`. -/
def replaceUnlessEqual (source : Source) (payload : ByteArray) (r : ResourceRow) (outcome : Outcome) : Phase :=
  if r.digest ≠ some source.contentHash then .replace source payload r else .finish outcome

/-- The path comparison, and what follows it. -/
def moveUnlessThere (intent : OutboxRow) (source : Source) (payload : ByteArray) (r : ResourceRow)
    (outcome : Outcome) : Phase :=
  if r.currentPath ≠ intent.logicalPath then .move source payload r
  else replaceUnlessEqual source payload r outcome

/-- What `_apply` does with the Resource it read, once the intent and the source are confirmed. -/
def project (intent : OutboxRow) (source : Source) (payload : ByteArray) : Option ResourceRow → Phase
  | none => .create source payload
  | some r =>
    if !validResource intent r then .failed
    else if r.lifecycle = .deleted then .restore source payload r
    else moveUnlessThere intent source payload r .unchanged

def Env.request (env : Env) (intent : OutboxRow) (stage : Stage) (path message : String) : Request where
  namespaceId := intent.namespaceId
  surface := .file
  path := path
  actor := intent.actor
  mutationId := env.mutationId intent.intentId stage
  message := some message
  subject := none
  summary := none

def Env.bodyRequest (env : Env) (intent : OutboxRow) (source : Source) (stage : Stage) (path message : String)
    (payload : ByteArray) : BodyRequest where
  toRequest := env.request intent stage path message
  payload := .bytes payload
  expectedDigest := some source.contentHash
  expectedSize := some source.byteSize

/-- The native mutation the worker is about to call, and the phase after it. -/
def Worker.nativeCall (env : Env) (x : Worker) : Option (NativeCall × Phase) :=
  let intent := x.intent
  match x.phase with
  | .create source payload =>
    some (.create (env.bodyRequest intent source .create intent.logicalPath "S3 File searchable-text projection" payload)
      (some intent.fileId) false, .finish .created)
  | .restore source payload r =>
    some (.restore (env.bodyRequest intent source .restore r.currentPath
      "S3 File searchable-text projection restored" payload)
      ((r.headRevisionId.map RevisionId.text).getD "") intent.fileId, .rereadRestored source payload)
  | .move source payload r =>
    some (.move (env.request intent .move r.currentPath "S3 File searchable-text path synchronized") intent.logicalPath
      (r.headRevisionId.map RevisionId.text) (some intent.fileId), .rereadMoved source payload)
  | .replace source payload r =>
    some (.replace (env.bodyRequest intent source .replace intent.logicalPath
      "S3 File searchable-text projection replaced" payload)
      (r.headRevisionId.map RevisionId.text) (some intent.fileId), .finish .replaced)
  | .delete r =>
    some (.delete (env.request intent .delete r.currentPath "S3 File no longer has a searchable text projection")
      (r.headRevisionId.map RevisionId.text) (some intent.fileId) true, .finish .deleted)
  | _ => none

end Akb.FileProjection
