import Akb.Assets.References
import Akb.Library.Run

/-! Document writes, uploads, discards and collector passes over one database, each transaction with the rows it locks. -/
namespace Akb.Assets
open Akb.Library
variable {B : Type*}

/-- What a document write asks for. `put` may allow references to unavailable images, as an import does. -/
inductive Request (B : Type*) where
  | put (path : Text) (body : B) (allowUnavailable : Bool)
  | replace (body : B)
  | move (path : Text)
  | delete
  | restore (body : B)
  deriving DecidableEq, Repr

/-- An open document write: the attachments that its claim found, locked until it ends. -/
structure Write (B : Type*) where
  owner : DocumentAssetOwner
  vault : Id
  started : Time
  request : Request B
  found : List Id
  deriving DecidableEq, Repr

/-- An open transaction of the collector: the expired references and the candidates that it locked. -/
structure Pass where
  worker : Id
  started : Time
  expired : List (Id × Text × Text × Id)
  picked : List Id
  deriving DecidableEq, Repr

/-- A body that was published at a path: the attachments its write found, and when it was superseded, moved or deleted. -/
structure Shown (B : Type*) where
  owner : DocumentAssetOwner
  vault : Id
  path : Text
  commit : Text
  body : B
  available : List Id
  supersededAt : Option Time
  deriving DecidableEq, Repr

structure State (B : Type*) where
  now : Time
  tables : Tables B
  writes : Table (Write B) Write.owner
  passes : Table Pass Pass.worker
  shown : List (Shown B)

def State.empty : State B := ⟨0, ⟨Table.empty, Table.empty, Table.empty, Table.empty, []⟩, Table.empty, Table.empty, []⟩

structure Settings where
  unclaimedTtl : Time
  revisionRetention : Time
  pendingUploadTtl : Time

section Requests
variable (images : B → List Id)

/-- The attachments that a write claims, for the document it starts from. -/
def Request.wanted (owner : DocumentAssetOwner) (parent : Option (Document B)) : Request B → List Id
  | .put _ body _ => images body
  | .restore body => images body
  | .replace body => match owner with
    | .git _ => images body
    | .native _ => images body ++ parent.elim [] fun d => images d.body
  | .move _ | .delete => match owner with
    | .git _ => []
    | .native _ => parent.elim [] fun d => images d.body

/-- The attachments that a write may not go without. -/
def Request.required (parent : Option (Document B)) : Request B → List Id
  | .put _ body allowUnavailable => if allowUnavailable then [] else images body
  | .restore body => images body
  | .replace body => (images body).filter fun a => a ∉ parent.elim [] fun d => images d.body
  | .move _ | .delete => []

/-- The document that a request can be applied to. -/
def Request.Applies (owner : DocumentAssetOwner) (parent : Option (Document B)) : Request B → Prop
  | .put _ _ _ => parent = none
  | .replace _ | .move _ | .delete => ∃ d ∈ parent, d.live = true
  | .restore _ => owner.isNative ∧ ∃ d ∈ parent, d.live = false

instance (owner : DocumentAssetOwner) (parent : Option (Document B)) :
    (request : Request B) → Decidable (request.Applies owner parent)
  | .put _ _ _ => inferInstanceAs (Decidable (parent = none))
  | .replace _ | .move _ | .delete => inferInstanceAs (Decidable (∃ d ∈ parent, d.live = true))
  | .restore _ => inferInstanceAs (Decidable (_ ∧ _))

def Tables.write (t : Tables B) (d : Document B) : Tables B := { t with documents := t.documents.upsert d }

def Tables.claim (t : Tables B) (w : Write B) : Tables B :=
  { t with files := claimReferences t.files w.vault w.found w.started }

def Tables.sync (t : Tables B) (d : Document B) (ids : List Id) (retainUntil : Time) (previous : Option (Document B)) : Tables B :=
  (t.syncReferences d.owner d.vault d.path d.commit ids retainUntil (previous.map fun p => (p.commit, p.path))).write d

/-- The writes of `document_service` and `delete_with_publications`; deleting the row takes its references with it. -/
def publishGit (t : Tables B) (w : Write B) (commit : Text) (retainUntil : Time) (parent : Option (Document B)) :
    Option (Tables B) :=
  match w.request, parent with
  | .put path body _, none => some ((t.claim w).sync ⟨w.owner, w.vault, path, commit, body, true⟩ w.found retainUntil none)
  | .replace body, some p => some ((t.claim w).sync { p with commit := commit, body := body } w.found retainUntil (some p))
  | .move path, some p =>
    some (t.sync { p with commit := commit, path := path } (liveAssetIds t.live p.owner p.vault) retainUntil (some p))
  | .delete, some p => some
    { t with
      revisions := retainCurrentDocumentAssets t.revisions t.live p.owner p.vault p.path p.commit retainUntil
      live := t.live.deleteWhere fun l => l.owner = p.owner ∧ l.vault = p.vault
      documents := t.documents.deleteWhere fun d => d.owner = p.owner }
  | _, _ => none

/-- `native_document_assets.publish` for a document that succeeds `previous`. -/
def Tables.publishNative (t : Tables B) (w : Write B) (d : Document B) (retainUntil : Time) (previous : Option (Document B)) :
    Tables B :=
  let retained : Tables B := match previous with
    | none => t.claim w
    | some p =>
      { t.claim w with
        revisions := retainDocumentAssetIds t.revisions p.vault p.path p.commit
          (w.found.filter fun a => a ∈ images p.body) retainUntil }
  retained.sync d (w.found.filter fun a => a ∈ images d.body) retainUntil none

/-- The writes of `native_revision_service`; a trigger drops the live references of a document that is not live. -/
def publishNativeWrite (t : Tables B) (w : Write B) (commit : Text) (retainUntil : Time) (parent : Option (Document B)) :
    Option (Tables B) :=
  match w.request, parent with
  | .put path body _, none => some (t.publishNative images w ⟨w.owner, w.vault, path, commit, body, true⟩ retainUntil none)
  | .replace body, some p => some (t.publishNative images w { p with commit := commit, body := body } retainUntil (some p))
  | .move path, some p => some (t.publishNative images w { p with commit := commit, path := path } retainUntil (some p))
  | .restore body, some p =>
    some (t.publishNative images w { p with commit := commit, body := body, live := true } retainUntil none)
  | .delete, some p => some <| Tables.write
    { t.claim w with
      revisions := retainDocumentAssetIds t.revisions p.vault p.path p.commit w.found retainUntil
      live := t.live.deleteWhere fun l => l.owner = p.owner ∧ l.vault = p.vault }
    { p with commit := commit, live := false }
  | _, _ => none

/-- What a write does up to its commit. -/
def publish (t : Tables B) (w : Write B) (commit : Text) (retainUntil : Time) : Option (Tables B) :=
  match w.owner with
  | .git _ => publishGit t w commit retainUntil (t.documents.get? w.owner)
  | .native _ => publishNativeWrite images t w commit retainUntil (t.documents.get? w.owner)

/-- The bodies of a document that are current no more. -/
def supersede (owner : DocumentAssetOwner) (now : Time) (shown : List (Shown B)) : List (Shown B) :=
  shown.map fun r => if r.owner = owner ∧ r.supersededAt = none then { r with supersededAt := some now } else r

/-- The bodies that a write shows. A move shows the same body elsewhere. -/
def written (shown : List (Shown B)) (w : Write B) (commit : Text) (parent : Option (Document B)) : List (Shown B) :=
  let body (path : Text) (body : B) : Shown B :=
    ⟨w.owner, w.vault, path, commit, body, w.found.filter fun a => a ∈ images body, none⟩
  match w.request with
  | .put path text _ => [body path text]
  | .replace text | .restore text => [body (parent.elim [] Document.path) text]
  | .move path => (shown.filter fun r => r.owner = w.owner ∧ r.supersededAt = none).map
      fun r => { r with path := path, commit := commit }
  | .delete => []

def record (now : Time) (shown : List (Shown B)) (w : Write B) (commit : Text) (parent : Option (Document B)) : List (Shown B) :=
  supersede w.owner now shown ++ written images shown w commit parent

end Requests

section Collector
variable (cfg : Settings)

/-- The condition of the collector's candidates, in a transaction that began at `started`. -/
def Candidate (t : Tables B) (started : Time) (f : FileRow) : Prop :=
  (f.kind = .attachment ∧
    (∀ l ∈ t.live.rows, ¬ (l.asset = f.id ∧ l.vault = f.vault)) ∧
    (∀ r ∈ t.revisions.rows, ¬ (r.asset = f.id ∧ r.vault = f.vault ∧ started < r.retainUntil)) ∧
    ((f.attachmentClaimedAt = none ∧ f.createdAt + cfg.unclaimedTtl < started) ∨
      (f.attachmentClaimedAt ≠ none ∧ f.updatedAt + cfg.revisionRetention < started))) ∨
  (f.kind = .file ∧ f.uploadState = .pending ∧ f.updatedAt + cfg.pendingUploadTtl < started)

instance (t : Tables B) (started : Time) (f : FileRow) : Decidable (Candidate cfg t started f) :=
  inferInstanceAs (Decidable (_ ∨ _))

/-- The second deletion of an object whose upload may still be under way. -/
def pendingUploadDeleteRecheck : Time := 24 * 60 * 60

/-- `enqueue_delete` or `enqueue_pending_upload_delete`. -/
def enqueue (started : Time) (f : FileRow) : List OutboxRow :=
  match f.uploadState with
  | .pending => [⟨f.s3Key, started⟩, ⟨f.s3Key, started + pendingUploadDeleteRecheck⟩]
  | .confirmed => [⟨f.s3Key, started⟩]

/-- Deleted rows of `vault_files` take the references to them along. -/
def Tables.deleteFiles (t : Tables B) (ids : List Id) : Tables B :=
  { t with
    files := t.files.deleteWhere fun f => f.id ∈ ids
    live := t.live.deleteWhere fun l => l.asset ∈ ids
    revisions := t.revisions.deleteWhere fun r => r.asset ∈ ids }

/-- The commit of `collect_once`. -/
def Tables.collect (t : Tables B) (p : Pass) : Tables B :=
  let unexpired := { t with revisions := t.revisions.deleteWhere fun r => r.key ∈ p.expired }
  { unexpired.deleteFiles p.picked with
    outbox := t.outbox ++ (t.files.rows.filter fun f => f.id ∈ p.picked).flatMap (enqueue p.started) }

end Collector

inductive Action (B : Type*) where
  | tick (elapsed : Time)
  | upload (id vault : Id) (kind : FileKind) (s3Key : Text) (createdBy : Id)
  | finalize (id : Id)
  | removeUpload (uploadState : UploadState) (id vault createdBy : Id)
  | begin (owner : DocumentAssetOwner) (vault : Id) (started : Time) (request : Request B)
  | abort (owner : DocumentAssetOwner)
  | publish (owner : DocumentAssetOwner) (commit : Text)
  | expire (worker : Id) (started : Time) (keys : List (Id × Text × Text × Id))
  | pick (worker : Id) (ids : List Id)
  | rollback (worker : Id)
  | collect (worker : Id)
  deriving DecidableEq, Repr

/-- The rows of `vault_files` that open transactions have locked. -/
def State.locked (s : State B) : List Id := s.writes.rows.flatMap Write.found ++ s.passes.rows.flatMap Pass.picked

/-- An upload that `delete_unclaimed_attachment` or `delete_failed_pending_attachment` removes. -/
def FileRow.Removable (f : FileRow) (uploadState : UploadState) (vault createdBy : Id) : Prop :=
  f.kind = .attachment ∧ f.uploadState = uploadState ∧ f.attachmentClaimedAt = none ∧ f.vault = vault ∧ f.createdBy = createdBy

instance (f : FileRow) (uploadState : UploadState) (vault createdBy : Id) : Decidable (f.Removable uploadState vault createdBy) :=
  inferInstanceAs (Decidable (_ ∧ _))

def batchSize : Nat := 50

def revisionExpireBatchSize : Nat := 1000

section Next
variable (cfg : Settings) (images : B → List Id) (s : State B)

def State.finalize (id : Id) : Option (State B) :=
  if (∃ f ∈ s.tables.files.get? id, f.hashVerifiedAt = none) ∧ id ∉ s.locked then
    some { s with tables.files := finalizeFile s.tables.files id s.now }
  else none

/-- A discard by the uploader, or the clean-up of a failed upload. -/
def State.removeUpload (uploadState : UploadState) (id vault createdBy : Id) : Option (State B) :=
  (s.tables.files.get? id).bind fun f =>
    if f.Removable uploadState vault createdBy ∧ id ∉ s.locked then
      some { s with tables := { s.tables.deleteFiles [id] with outbox := s.tables.outbox ++ [⟨f.s3Key, s.now⟩] } }
    else none

/-- A write takes the document's lock, reads the document and claims its attachments. -/
def State.begin (owner : DocumentAssetOwner) (vault : Id) (started : Time) (request : Request B) : Option (State B) :=
  let parent := s.tables.documents.get? owner
  let found := claimable s.tables.files vault (request.wanted images owner parent)
  if request.Applies owner parent ∧ (∀ d ∈ parent, d.vault = vault) ∧ started ≤ s.now ∧
      (∀ a ∈ request.required images parent, a ∈ found) ∧ (∀ a ∈ found, a ∉ s.locked) then
    (s.writes.insert? ⟨owner, vault, started, request, found⟩).map fun writes => { s with writes := writes }
  else none

/-- The rest of a write and its commit; it waits for a collector that has locked a row it upserts. -/
def State.publish (owner : DocumentAssetOwner) (commit : Text) : Option (State B) :=
  (s.writes.get? owner).bind fun w =>
    (Assets.publish images s.tables w commit (s.now + cfg.revisionRetention)).bind fun t =>
      if commit ≠ [] ∧ ∀ p ∈ s.passes.rows, ∀ k ∈ p.expired, t.revisions.get? k = s.tables.revisions.get? k then
        some { s with
          tables := t
          writes := s.writes.deleteWhere fun w => w.owner = owner
          shown := record images s.now s.shown w commit (s.tables.documents.get? owner) }
      else none

def State.expire (worker : Id) (started : Time) (keys : List (Id × Text × Text × Id)) : Option (State B) :=
  if started ≤ s.now ∧ keys.length ≤ revisionExpireBatchSize ∧
      ∀ k ∈ keys, (∃ r ∈ s.tables.revisions.get? k, r.retainUntil ≤ started) ∧ ∀ p ∈ s.passes.rows, k ∉ p.expired then
    (s.passes.insert? ⟨worker, started, keys, []⟩).map fun passes => { s with passes := passes }
  else none

def State.pick (worker : Id) (ids : List Id) : Option (State B) :=
  (s.passes.get? worker).bind fun p =>
    if p.picked = [] ∧ ids.length ≤ batchSize ∧
        ∀ id ∈ ids, (∃ f ∈ s.tables.files.get? id, Candidate cfg s.tables p.started f) ∧ id ∉ s.locked then
      some { s with passes := s.passes.upsert { p with picked := ids } }
    else none

def State.collect (worker : Id) : Option (State B) :=
  (s.passes.get? worker).map fun p =>
    { s with tables := s.tables.collect p, passes := s.passes.deleteWhere fun p => p.worker = worker }

def next : Action B → Option (State B)
  | .tick elapsed => some { s with now := s.now + elapsed }
  | .upload id vault kind s3Key createdBy =>
    (s.tables.files.insert? ⟨id, vault, kind, .pending, none, s3Key, createdBy, none, s.now, s.now⟩).map
      fun files => { s with tables.files := files }
  | .finalize id => s.finalize id
  | .removeUpload uploadState id vault createdBy => s.removeUpload uploadState id vault createdBy
  | .begin owner vault started request => s.begin images owner vault started request
  | .abort owner => some { s with writes := s.writes.deleteWhere fun w => w.owner = owner }
  | .publish owner commit => s.publish cfg images owner commit
  | .expire worker started keys => s.expire worker started keys
  | .pick worker ids => s.pick cfg worker ids
  | .rollback worker => some { s with passes := s.passes.deleteWhere fun p => p.worker = worker }
  | .collect worker => s.collect worker

end Next

def Step (cfg : Settings) (images : B → List Id) (s : State B) (a : Action B) (t : State B) : Prop :=
  next cfg images s a = some t

end Akb.Assets
