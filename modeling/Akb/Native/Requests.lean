import Akb.Native.Repository
import Akb.Library.Json

/-! Native mutation requests: their input checks, the prepared payload and the
fingerprints that identify a request. -/
namespace Akb.Native
open Akb.Library

/-- What the service takes from its libraries. -/
structure Runtime where
  /-- `uuid.UUID(text)`, none where it raises. -/
  parseUuid : String → Option Uuid
  /-- `hashlib.sha256(bytes).hexdigest()`. -/
  sha256 : ByteArray → String
  /-- The image references of a Markdown body, none where its front matter does not parse. -/
  imageIds : ByteArray → Option (List Uuid)

/-- What one call draws or observes outside the ledger. -/
structure Draws where
  candidates : Fin 3 → RevisionId
  resourceId : Uuid
  manifestId : Uuid
  aliasId : Uuid
  payloadId : Uuid
  occurredAt : Int
  /-- The attachments of the vault that can be claimed. -/
  available : List Uuid
  /-- The image references of the locked head's body, none where it cannot be read. -/
  headImageIds : Option (List Uuid)

inductive Payload where
  | text (s : String)
  | bytes (b : ByteArray)
  deriving DecidableEq

def Payload.canonical : Payload → ByteArray
  | .text s => s.toUTF8
  | .bytes b => b

def maxTextBytes : Nat := 10 * 1024 * 1024

structure PreparedPayload where
  payloadId : Uuid
  namespaceId : Uuid
  contentProfile : String
  digest : String
  byteSize : Nat
  encoding : String
  selectedPlacement : String
  verificationProfile : String
  deriving DecidableEq

/-- The arguments every mutation takes. -/
structure Request where
  namespaceId : Uuid
  surface : Surface
  path : String
  actor : String
  mutationId : Uuid
  message : Option String
  subject : Option String
  summary : Option String
  deriving DecidableEq

/-- The arguments of a mutation that brings a body. -/
structure BodyRequest extends Request where
  payload : Payload
  expectedDigest : Option String
  expectedSize : Option Int
  deriving DecidableEq

inductive NativeCall where
  | create (request : BodyRequest) (resourceId : Option Uuid) (allowUnavailableAssetRefs : Bool)
  | replace (request : BodyRequest) (expectedRevisionId : Option String) (expectedResourceId : Option Uuid)
  | restore (request : BodyRequest) (expectedRevisionId : String) (expectedResourceId : Uuid)
  | move (request : Request) (pathTo : String) (expectedRevisionId : Option String) (expectedResourceId : Option Uuid)
  | delete (request : Request) (expectedRevisionId : Option String) (expectedResourceId : Option Uuid)
      (retainDocumentAssets : Bool)
  deriving DecidableEq

def NativeCall.request : NativeCall → Request
  | .create r .. => r.toRequest
  | .replace r .. => r.toRequest
  | .restore r .. => r.toRequest
  | .move r .. => r
  | .delete r .. => r

/-- `not text.strip()`. -/
def isBlank (text : String) : Bool := text.toList.all PyText.isSpace

def validateCommon (r : Request) : Except NativeError Unit := do
  refuse (isBlank r.path) (.validation "Native Resource path must be non-empty")
  refuse (isBlank r.actor) (.validation "Native mutation actor must be non-empty")

def validateExpectedRevision (expectedRevisionId : Option String) : Except NativeError Unit :=
  refuse (¬ expectedRevisionId.all isRevisionId)
    (.validation "Expected native Revision ID must be exactly 40 lowercase hex")

/-- `_verified_bytes` of the reference payload store. -/
def verifiedBytes (rt : Runtime) (r : BodyRequest) : Except NativeError (ByteArray × String) := do
  let canonical := r.payload.canonical
  refuse (maxTextBytes < canonical.size) (.validation
    "Reference text payload exceeds the 10 MiB limit; store larger content as a File, not a Document body")
  refuse (¬ canonical.validateUTF8) (.validation "Reference text payload must be valid UTF-8")
  refuse (canonical.data.contains 0) (.validation "Reference text payload must not contain NUL bytes")
  refuse (r.expectedDigest.any (fun digest => digest ≠ rt.sha256 canonical))
    (.validation "Reference payload digest does not match expected digest")
  refuse (r.expectedSize.any (fun size => size ≠ (canonical.size : Int)))
    (.validation "Reference payload size does not match expected size")
  return (canonical, rt.sha256 canonical)

def prepareText (rt : Runtime) (payloadId : Uuid) (r : BodyRequest) : Except NativeError PreparedPayload := do
  let (canonical, digest) ← verifiedBytes rt r
  return {
    payloadId := payloadId
    namespaceId := r.namespaceId
    contentProfile := "text"
    digest := digest
    byteSize := canonical.size
    encoding := "utf-8"
    selectedPlacement := "m1-reference-payload-v1"
    verificationProfile := "sha256-size-utf8-v1" }

/-- Only a Document body is scanned for images. -/
def bodyImageIds (rt : Runtime) (r : BodyRequest) : Except NativeError (List Uuid) :=
  match r.surface with
  | .file => .ok []
  | .document => found (rt.imageIds r.payload.canonical) .unreadablePayload

def optional (text : Option String) : Json.Scalar := text.elim .null .str

/-- The fields of `_fingerprint`, as the source lists them. -/
def bodyFields (action : Action) (r : Request) (digest : String) (byteSize : Nat)
    (expectedRevisionId : Option String) (requestedResourceId expectedResourceId : Option Uuid)
    (allowUnavailableAssetRefs : Bool) : List Json.Field :=
  [("action", .str action.text),
    ("namespace_id", .str r.namespaceId.str),
    ("surface", .str r.surface.text),
    ("path", .str r.path),
    ("payload_digest", .str digest),
    ("payload_size", .num byteSize),
    ("expected_revision_id", optional expectedRevisionId),
    ("actor", .str r.actor),
    ("message", optional r.message),
    ("subject", optional r.subject),
    ("summary", optional r.summary),
    ("requested_resource_id", optional (requestedResourceId.map Uuid.str)),
    ("expected_resource_id", optional (expectedResourceId.map Uuid.str))] ++
  if allowUnavailableAssetRefs then [("allow_unavailable_asset_refs", .bool true)] else []

/-- The fields of `_lifecycle_fingerprint`. -/
def lifecycleFields (action : Action) (r : Request) (pathTo expectedRevisionId : Option String)
    (expectedResourceId : Option Uuid) (retainDocumentAssets : Bool) : List Json.Field :=
  [("action", .str action.text),
    ("namespace_id", .str r.namespaceId.str),
    ("surface", .str r.surface.text),
    ("path", .str r.path),
    ("path_to", optional pathTo),
    ("expected_revision_id", optional expectedRevisionId),
    ("actor", .str r.actor),
    ("message", optional r.message),
    ("subject", optional r.subject),
    ("summary", optional r.summary),
    ("expected_resource_id", optional (expectedResourceId.map Uuid.str))] ++
  if retainDocumentAssets then [] else [("retain_document_assets", .bool false)]

def fingerprint (rt : Runtime) (fields : List Json.Field) : String := rt.sha256 (Json.dumps fields).toUTF8

/-- The fields a call is identified by; restoration writes those of a replacement. -/
def NativeCall.fields (rt : Runtime) : NativeCall → List Json.Field
  | .create r resourceId allow =>
    bodyFields .create r.toRequest (rt.sha256 r.payload.canonical) r.payload.canonical.size none resourceId none allow
  | .replace r expectedRevisionId expectedResourceId =>
    bodyFields .replace r.toRequest (rt.sha256 r.payload.canonical) r.payload.canonical.size expectedRevisionId none
      expectedResourceId false
  | .restore r expectedRevisionId expectedResourceId =>
    bodyFields .replace r.toRequest (rt.sha256 r.payload.canonical) r.payload.canonical.size (some expectedRevisionId)
      none (some expectedResourceId) false
  | .move r pathTo expectedRevisionId expectedResourceId =>
    lifecycleFields .move r (some pathTo) expectedRevisionId expectedResourceId true
  | .delete r expectedRevisionId expectedResourceId retain =>
    lifecycleFields .delete r none expectedRevisionId expectedResourceId retain

/-- The checks a call makes before it opens its transaction. -/
def NativeCall.check (rt : Runtime) : NativeCall → Except NativeError Unit
  | .create r _ _ => do
    validateCommon r.toRequest
    let _ ← verifiedBytes rt r
    let _ ← bodyImageIds rt r
  | .replace r expectedRevisionId _ => do
    validateCommon r.toRequest
    validateExpectedRevision expectedRevisionId
    let _ ← verifiedBytes rt r
    let _ ← bodyImageIds rt r
  | .restore r expectedRevisionId _ => do
    validateCommon r.toRequest
    validateExpectedRevision (some expectedRevisionId)
    let _ ← verifiedBytes rt r
    let _ ← bodyImageIds rt r
  | .move r pathTo expectedRevisionId _ => do
    validateCommon r
    refuse (isBlank pathTo) (.validation "Native Resource destination path must be non-empty")
    refuse (pathTo = r.path) (.validation "Native Resource move is a no-op")
    validateExpectedRevision expectedRevisionId
  | .delete r expectedRevisionId _ _ => do
    validateCommon r
    validateExpectedRevision expectedRevisionId

end Akb.Native
