import Akb.Native.Requests

/-! The five native mutations. Each publishes one Resource mutation in one
transaction; a call that raises leaves the ledger as it was. -/
namespace Akb.Native
open Akb.Library

structure NativeMutationResult where
  resourceId : Uuid
  revisionId : RevisionId
  parentRevisionId : Option RevisionId
  action : Action
  path : String
  payloadManifestId : Option Uuid
  occurredAt : Int
  idempotentReplay : Bool
  deriving DecidableEq

def fromRow (row : Revision) (replay : Bool) : NativeMutationResult :=
  ⟨row.resourceId, row.revisionId, row.parentRevisionId, row.action, row.pathAtRevision, row.payloadManifestId,
    row.occurredAt, replay⟩

/-- Three tokens are tried before the call gives up. -/
def allocateRevisionId (l : Ledger) (d : Draws) : Except NativeError RevisionId :=
  found ((List.ofFn d.candidates).find? (fun candidate => (l.revisions.get? candidate).isNone))
    (.conflict "Unable to allocate a unique native Revision ID after collisions")

def keyReused : NativeError := .conflict "Native idempotency key was reused with different input"

/-- The opening every mutation shares: a recorded mutation id answers the call. -/
def inMutation (l : Ledger) (d : Draws) (r : Request) (fp : String)
    (publish : RevisionId → Except NativeError (NativeMutationResult × Ledger)) :
    Except NativeError (NativeMutationResult × Ledger) := do
  let revisionId ← allocateRevisionId l d
  match findMutation l r.namespaceId r.mutationId with
  | some prior =>
    refuse (prior.requestFingerprint ≠ fp) keyReused
    return (fromRow prior true, l)
  | none => publish revisionId

/-- Resolve and lock the live Resource a reference names. -/
def lockLiveReference (rt : Runtime) (l : Ledger) (r : Request) (expectedResourceId : Option Uuid) :
    Except NativeError Resource := do
  let resolved ← found (← resolveLiveReference rt.parseUuid l r.namespaceId r.surface r.path) (.notFound r.path)
  refuse (expectedResourceId.any (fun id => resolved.resourceId ≠ id)) (.conflict
    ("Native Resource conflict: expected " ++ (expectedResourceId.map Uuid.str).getD "" ++
      ", reference now resolves to " ++ resolved.resourceId.str))
  let resource ← found (lockResource l resolved.resourceId) (.notFound r.path)
  refuse (¬ resource.Live) (.notFound r.path)
  let confirmed ← found (← resolveLiveReference rt.parseUuid l r.namespaceId r.surface r.path) (.notFound r.path)
  refuse (confirmed.resourceId ≠ resource.resourceId)
    (.conflict ("Native Resource conflict: reference changed while mutation waited: " ++ r.path))
  return resource

def checkHead (resource : Resource) (expectedRevisionId : Option String) : Except NativeError Unit :=
  refuse (expectedRevisionId.any (fun id => resource.headRevisionId.map RevisionId.text ≠ some id)) (.conflict
    ("Native Revision conflict: expected " ++ expectedRevisionId.getD "" ++ ", current Head is " ++
      (resource.headRevisionId.map RevisionId.text).getD "None"))

def pathTaken (path : String) : NativeError := .conflict ("Native Resource already exists at path: " ++ path)

/-- A constraint the caller knows becomes a conflict on the path. -/
def conflictOn (constraints : List String) (path : String) (x : Except NativeError (NativeMutationResult × Ledger)) :
    Except NativeError (NativeMutationResult × Ledger) :=
  match x with
  | .ok out => .ok out
  | .error (.uniqueViolation c) => .error (if constraints.contains c then pathTaken path else .uniqueViolation c)
  | .error e => .error e

/-- New image references of a Document must be claimable. -/
def publishAssets (d : Draws) (surface : Surface) (required : List Uuid) : Except NativeError Unit :=
  refuse (surface = .document ∧ ¬ required.all (fun id => d.available.contains id)) (.validation
    "Document contains an unavailable image reference; upload the image to this vault first")

/-- The image references of a locked Document head. -/
def lockedHeadImageIds (d : Draws) (surface : Surface) : Except NativeError (List Uuid) :=
  match surface, d.headImageIds with
  | .file, _ => .ok []
  | .document, some ids => .ok ids
  | .document, none => .error .unreadablePayload

/-- What a deletion keeps for the retention period. -/
def retainedImageIds (d : Draws) (surface : Surface) (retainDocumentAssets : Bool) :
    Except NativeError (List Uuid) :=
  if retainDocumentAssets then lockedHeadImageIds d surface else .ok []

def manifestOf (d : Draws) (resourceId : Uuid) (p : PreparedPayload) : Manifest where
  payloadManifestId := d.manifestId
  namespaceId := p.namespaceId
  resourceId := resourceId
  contentProfile := p.contentProfile
  digest := p.digest
  byteSize := p.byteSize
  encoding := p.encoding
  selectedPlacement := p.selectedPlacement
  privateLocator := p.payloadId
  verificationProfile := p.verificationProfile
  createdAt := d.occurredAt

/-- A Revision row with the request's provenance. -/
def revisionOf (d : Draws) (r : Request) (fp : String) (revisionId : RevisionId) (resourceId : Uuid)
    (parent : Option RevisionId) (action : Action) (path : String) (pathFrom pathTo : Option String)
    (manifestId : Option Uuid) : Revision where
  revisionId := revisionId
  namespaceId := r.namespaceId
  resourceId := resourceId
  parentRevisionId := parent
  action := action
  pathAtRevision := path
  pathFrom := pathFrom
  pathTo := pathTo
  payloadManifestId := manifestId
  mutationId := r.mutationId
  requestFingerprint := fp
  message := r.message
  subject := r.subject
  summary := r.summary
  actor := r.actor
  occurredAt := d.occurredAt

/-- A path a mutation takes over loses its live alias. -/
def retireReused (l : Ledger) (reusedAlias : Option PathAlias) (namespaceId : Uuid) (path : String)
    (revisionId : RevisionId) (occurredAt : Int) : Ledger :=
  if reusedAlias.isSome then retireLiveAlias l namespaceId path revisionId occurredAt else l

/-- The alias a moved Resource leaves behind. -/
def aliasOf (d : Draws) (r : Request) (revisionId : RevisionId) (resource : Resource) : PathAlias where
  aliasId := d.aliasId
  namespaceId := r.namespaceId
  surface := r.surface
  oldPath := resource.currentPath
  resourceId := resource.resourceId
  createdRevisionId := revisionId
  retiredRevisionId := none
  createdAt := d.occurredAt
  retiredAt := none

def publishCreate (l : Ledger) (d : Draws) (r : Request) (requestedResourceId : Option Uuid)
    (prepared : PreparedPayload) (fp : String) (assetIds : List Uuid) (allowUnavailableAssetRefs : Bool) :
    Except NativeError (NativeMutationResult × Ledger) :=
  let resourceId := requestedResourceId.getD d.resourceId
  conflictOn ["uq_native_resources_live_path"] r.path <| inMutation l d r fp fun revisionId => do
    refuse (findLivePath l r.namespaceId r.path).isSome (pathTaken r.path)
    let reusedAlias := findLiveAlias l r.namespaceId r.path
    let resource : Resource := {
      resourceId := resourceId, namespaceId := r.namespaceId, surface := r.surface, contentProfile := "text"
      currentPath := r.path, lifecycle := .live, headRevisionId := none
      createdAt := d.occurredAt, updatedAt := d.occurredAt }
    let l ← insertResource l resource
    let l ← insertManifest l (manifestOf d resourceId prepared)
    let row := revisionOf d r fp revisionId resourceId none .create r.path none (some r.path) (some d.manifestId)
    let l ← insertRevision l row
    let l ← setHead l resource revisionId r.path .live d.occurredAt
    publishAssets d r.surface (if allowUnavailableAssetRefs then [] else assetIds)
    return (fromRow row false, retireReused l reusedAlias r.namespaceId r.path revisionId d.occurredAt)

def publishReplace (rt : Runtime) (l : Ledger) (d : Draws) (r : Request) (expectedRevisionId : Option String)
    (expectedResourceId : Option Uuid) (prepared : PreparedPayload) (fp : String) (assetIds : List Uuid) :
    Except NativeError (NativeMutationResult × Ledger) :=
  inMutation l d r fp fun revisionId => do
    let resource ← lockLiveReference rt l r expectedResourceId
    checkHead resource expectedRevisionId
    let previousIds ← lockedHeadImageIds d r.surface
    let l ← insertManifest l (manifestOf d resource.resourceId prepared)
    let row := revisionOf d r fp revisionId resource.resourceId resource.headRevisionId .replace resource.currentPath
      none none (some d.manifestId)
    let l ← insertRevision l row
    let l ← setHead l resource revisionId resource.currentPath .live d.occurredAt
    publishAssets d r.surface (assetIds.filter (fun id => !previousIds.contains id))
    return (fromRow row false, l)

def publishRestore (l : Ledger) (d : Draws) (r : Request) (expectedRevisionId : String) (expectedResourceId : Uuid)
    (prepared : PreparedPayload) (fp : String) (assetIds : List Uuid) :
    Except NativeError (NativeMutationResult × Ledger) :=
  conflictOn ["uq_native_resources_live_path"] r.path <| inMutation l d r fp fun revisionId => do
    let resource ← found (lockResource l expectedResourceId) (.notFound expectedResourceId.str)
    refuse (resource.namespaceId ≠ r.namespaceId ∨ resource.surface ≠ r.surface) (.notFound expectedResourceId.str)
    refuse (resource.lifecycle ≠ .deleted) (.conflict "Native Resource is not deleted")
    refuse (resource.currentPath ≠ r.path)
      (.conflict "Native restore path must match the tombstoned Resource path")
    checkHead resource (some expectedRevisionId)
    refuse (findLivePath l r.namespaceId r.path).isSome (pathTaken r.path)
    let reusedAlias := findLiveAlias l r.namespaceId r.path
    let l ← insertManifest l (manifestOf d expectedResourceId prepared)
    let row := revisionOf d r fp revisionId expectedResourceId resource.headRevisionId .replace r.path none none
      (some d.manifestId)
    let l ← insertRevision l row
    let l ← setHead l resource revisionId r.path .live d.occurredAt
    publishAssets d r.surface assetIds
    return (fromRow row false, retireReused l reusedAlias r.namespaceId r.path revisionId d.occurredAt)

/-- The moved body brings no new image reference, so none has to be claimable. -/
def publishMove (rt : Runtime) (l : Ledger) (d : Draws) (r : Request) (pathTo : String)
    (expectedRevisionId : Option String) (expectedResourceId : Option Uuid) (fp : String) :
    Except NativeError (NativeMutationResult × Ledger) :=
  conflictOn ["uq_native_resources_live_path", "uq_native_resource_path_aliases_live"] pathTo <|
    inMutation l d r fp fun revisionId => do
      let resource ← lockLiveReference rt l r expectedResourceId
      checkHead resource expectedRevisionId
      refuse (pathTo = resource.currentPath) (.validation "Native Resource move is a no-op")
      refuse ((findLivePath l r.namespaceId pathTo).any (fun owner => owner.resourceId ≠ resource.resourceId))
        (pathTaken pathTo)
      let destinationAlias := findLiveAlias l r.namespaceId pathTo
      refuse (destinationAlias.any (fun a => a.resourceId ≠ resource.resourceId))
        (.conflict ("Native Resource alias already owns path: " ++ pathTo))
      let head ← found (headManifest l resource.resourceId)
        (.payloadIntegrity "Live native Head does not pin a payload manifest")
      let _ ← lockedHeadImageIds d r.surface
      let l ← copyManifest l head.payloadManifestId d.manifestId resource.resourceId d.occurredAt
      let row := revisionOf d r fp revisionId resource.resourceId resource.headRevisionId .move pathTo
        (some resource.currentPath) (some pathTo) (some d.manifestId)
      let l ← insertRevision l row
      let l ← setHead l resource revisionId pathTo .live d.occurredAt
      let l ← insertPathAlias (retireReused l destinationAlias r.namespaceId pathTo revisionId d.occurredAt)
        (aliasOf d r revisionId resource)
      return (fromRow row false, l)

def publishDelete (rt : Runtime) (l : Ledger) (d : Draws) (r : Request) (expectedRevisionId : Option String)
    (expectedResourceId : Option Uuid) (fp : String) (retainDocumentAssets : Bool) :
    Except NativeError (NativeMutationResult × Ledger) :=
  inMutation l d r fp fun revisionId => do
    let resource ← lockLiveReference rt l r expectedResourceId
    checkHead resource expectedRevisionId
    let row := revisionOf d r fp revisionId resource.resourceId resource.headRevisionId .delete resource.currentPath
      none none none
    let l ← insertRevision l row
    let _ ← retainedImageIds d r.surface retainDocumentAssets
    let l ← setHead l resource revisionId resource.currentPath .deleted d.occurredAt
    return (fromRow row false,
      retireResourceAliases l r.namespaceId r.surface resource.resourceId revisionId d.occurredAt)

def createText (rt : Runtime) (l : Ledger) (d : Draws) (r : BodyRequest) (resourceId : Option Uuid)
    (allowUnavailableAssetRefs : Bool) : Except NativeError (NativeMutationResult × Ledger) := do
  validateCommon r.toRequest
  let prepared ← prepareText rt d.payloadId r
  let assetIds ← bodyImageIds rt r
  let fp := fingerprint rt (bodyFields .create r.toRequest prepared.digest prepared.byteSize none resourceId none
    allowUnavailableAssetRefs)
  publishCreate l d r.toRequest resourceId prepared fp assetIds allowUnavailableAssetRefs

def replaceText (rt : Runtime) (l : Ledger) (d : Draws) (r : BodyRequest) (expectedRevisionId : Option String)
    (expectedResourceId : Option Uuid) : Except NativeError (NativeMutationResult × Ledger) := do
  validateCommon r.toRequest
  validateExpectedRevision expectedRevisionId
  let prepared ← prepareText rt d.payloadId r
  let assetIds ← bodyImageIds rt r
  let fp := fingerprint rt (bodyFields .replace r.toRequest prepared.digest prepared.byteSize expectedRevisionId none
    expectedResourceId false)
  publishReplace rt l d r.toRequest expectedRevisionId expectedResourceId prepared fp assetIds

/-- Restoration is a `replace` Revision on the tombstoned path. -/
def restoreText (rt : Runtime) (l : Ledger) (d : Draws) (r : BodyRequest) (expectedRevisionId : String)
    (expectedResourceId : Uuid) : Except NativeError (NativeMutationResult × Ledger) := do
  validateCommon r.toRequest
  validateExpectedRevision (some expectedRevisionId)
  let prepared ← prepareText rt d.payloadId r
  let assetIds ← bodyImageIds rt r
  let fp := fingerprint rt
    (bodyFields .replace r.toRequest prepared.digest prepared.byteSize (some expectedRevisionId) none
      (some expectedResourceId) false)
  publishRestore l d r.toRequest expectedRevisionId expectedResourceId prepared fp assetIds

def moveText (rt : Runtime) (l : Ledger) (d : Draws) (r : Request) (pathTo : String)
    (expectedRevisionId : Option String) (expectedResourceId : Option Uuid) :
    Except NativeError (NativeMutationResult × Ledger) := do
  validateCommon r
  refuse (isBlank pathTo) (.validation "Native Resource destination path must be non-empty")
  refuse (pathTo = r.path) (.validation "Native Resource move is a no-op")
  validateExpectedRevision expectedRevisionId
  let fp := fingerprint rt (lifecycleFields .move r (some pathTo) expectedRevisionId expectedResourceId true)
  publishMove rt l d r pathTo expectedRevisionId expectedResourceId fp

def deleteResource (rt : Runtime) (l : Ledger) (d : Draws) (r : Request) (expectedRevisionId : Option String)
    (expectedResourceId : Option Uuid) (retainDocumentAssets : Bool) :
    Except NativeError (NativeMutationResult × Ledger) := do
  validateCommon r
  validateExpectedRevision expectedRevisionId
  let fp := fingerprint rt
    (lifecycleFields .delete r none expectedRevisionId expectedResourceId retainDocumentAssets)
  publishDelete rt l d r expectedRevisionId expectedResourceId fp retainDocumentAssets

def NativeCall.run (rt : Runtime) (l : Ledger) (d : Draws) :
    NativeCall → Except NativeError (NativeMutationResult × Ledger)
  | .create r resourceId allowUnavailableAssetRefs => createText rt l d r resourceId allowUnavailableAssetRefs
  | .replace r expectedRevisionId expectedResourceId => replaceText rt l d r expectedRevisionId expectedResourceId
  | .restore r expectedRevisionId expectedResourceId => restoreText rt l d r expectedRevisionId expectedResourceId
  | .move r pathTo expectedRevisionId expectedResourceId =>
    moveText rt l d r pathTo expectedRevisionId expectedResourceId
  | .delete r expectedRevisionId expectedResourceId retainDocumentAssets =>
    deleteResource rt l d r expectedRevisionId expectedResourceId retainDocumentAssets

/-- A call that raises rolls its transaction back. -/
def perform (rt : Runtime) (l : Ledger) (step : Draws × NativeCall) : Ledger :=
  match step.2.run rt l step.1 with
  | .ok out => out.2
  | .error _ => l

def performAll (rt : Runtime) (l : Ledger) (steps : List (Draws × NativeCall)) : Ledger := steps.foldl (perform rt) l

/-! ### A short run: create, replace, delete -/

theorem sampleId_zero : isRevisionId (String.ofList (List.replicate 40 '0')) := by decide

theorem sampleId_one : isRevisionId (String.ofList (List.replicate 40 '1')) := by decide

theorem sampleId_two : isRevisionId (String.ofList (List.replicate 40 '2')) := by decide

theorem sampleId_three : isRevisionId (String.ofList (List.replicate 40 '3')) := by decide

def sampleRevisionId (c : Char) (h : isRevisionId (String.ofList (List.replicate 40 c))) : RevisionId := ⟨_, h⟩

def sampleDraws (revisionId : RevisionId) (n : Uuid) (occurredAt : Int) : Draws :=
  ⟨fun _ => revisionId, 0x10, n, n, n, occurredAt, [], none⟩

def sampleRequest (mutationId : Uuid) : Request := ⟨1, .file, "notes.txt", "ann", mutationId, none, none, none⟩

def sampleCreate : NativeCall := .create ⟨sampleRequest 1, .text "x", none, none⟩ none false

def sampleReplace : NativeCall :=
  .replace ⟨sampleRequest 2, .text "y", none, none⟩ (some (sampleRevisionId '0' sampleId_zero).text) (some 0x10)

def sampleDelete (mutationId : Uuid) : NativeCall := .delete (sampleRequest mutationId) none none true

/-- The digests of the two bodies and of the three requests. -/
def sampleDigests : List (ByteArray × String) :=
  let x := "2d711642b726b04401627ca9fbac32f5c8530fb1903cc4db02258717921a4881"
  let y := "a1fce4363854ff888cff4b8e7875d600c2682390412a8cf79b37d0b11148b0fa"
  [("x".toUTF8, x), ("y".toUTF8, y),
    ((Json.dumps (bodyFields .create (sampleRequest 1) x 1 none none none false)).toUTF8,
      "cb9b0fad2b1f23329432979a8881a0d0df118f6ccec75ffcb6b86e9f1c397d59"),
    ((Json.dumps (bodyFields .replace (sampleRequest 2) y 1 (some (sampleRevisionId '0' sampleId_zero).text)
      none (some 0x10) false)).toUTF8, "311554b8d6fc71e872930c38f63d40552e5f527db52da1a8e27b872e0d72ab34"),
    ((Json.dumps (lifecycleFields .delete (sampleRequest 2) none none none true)).toUTF8,
      "d23810b1264dfa5528008ba9d0b31b23ad8857ba1f30cf8c59f5692f9163aa7b")]

def sampleRuntime : Runtime where
  parseUuid _ := none
  sha256 bytes := (sampleDigests.find? (fun entry => entry.1 = bytes)).elim "" Prod.snd
  imageIds _ := some []

def sampleSteps : List (Draws × NativeCall) :=
  [(sampleDraws (sampleRevisionId '0' sampleId_zero) 0x20 1, sampleCreate),
    (sampleDraws (sampleRevisionId '1' sampleId_one) 0x21 2, sampleReplace),
    (sampleDraws (sampleRevisionId '2' sampleId_two) 0x22 3, sampleDelete 3)]

end Akb.Native
