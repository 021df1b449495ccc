import Akb.Library.Table
import Akb.Uri.Grammar

/-! What a vault holds under its collections, and the deletion of one document, file or table with what
refers to it. -/
namespace Akb.Collections
open Akb.Library Akb.Uri

abbrev Id := Text

structure Collection where
  id : Id
  path : Text
  deriving DecidableEq, Repr

/-- A row of the legacy catalogue. -/
structure DocumentRow where
  id : Id
  path : Text
  collectionId : Option Id
  currentCommit : Text
  deriving DecidableEq, Repr

structure Revision where
  id : Id
  parent : Option Id
  action : String
  path : Text
  deriving DecidableEq, Repr

/-- A document of the native ledger with its Revisions, newest first. -/
structure NativeDocument where
  resourceId : Id
  currentPath : Text
  live : Bool
  revisions : List Revision
  deriving DecidableEq, Repr

/-- The document behind a delete Revision. -/
def NativeDocument.deleted (r : NativeDocument) (revisionId : Id) : NativeDocument :=
  { r with
    live := false
    revisions := ⟨revisionId, r.revisions.head?.map Revision.id, "delete", r.currentPath⟩ :: r.revisions }

theorem NativeDocument.deleted_resourceId (r : NativeDocument) (revisionId : Id) :
    (r.deleted revisionId).resourceId = r.resourceId := rfl

inductive FileKind where
  | file
  | attachment
  deriving DecidableEq, Repr

structure FileRow where
  id : Id
  name : Text
  kind : FileKind
  collectionId : Option Id
  storageDriver : Option Text
  nativeIds : Option (Id × Id)
  s3Key : Text
  deriving DecidableEq, Repr

/-- A table's registry row and the tables that its foreign keys refer to. -/
structure TableRow where
  id : Id
  name : Text
  collectionId : Option Id
  references : List Id
  deriving DecidableEq, Repr

structure Edge where
  sourceUri : Text
  targetUri : Text
  relationType : Text
  sourceResourceId : Option Id
  targetResourceId : Option Id
  deriving DecidableEq, Repr

structure Publication where
  slug : Text
  resourceUri : Option Text
  documentId : Option Id
  nativeDocumentId : Option Id
  deriving DecidableEq, Repr

inductive SourceType where
  | document
  | nativeDocument
  | table
  | file
  deriving DecidableEq, Repr

structure Chunk where
  sourceType : SourceType
  sourceId : Id
  content : Text
  deriving DecidableEq, Repr

/-- `native` names the authority for documents; `fenced` refuses each write of the legacy catalogue. -/
structure Vault where
  name : Text
  native : Bool
  fenced : Bool
  collections : Table Collection Collection.id
  documents : Table DocumentRow DocumentRow.id
  natives : Table NativeDocument NativeDocument.resourceId
  files : Table FileRow FileRow.id
  tables : Table TableRow TableRow.id
  edges : List Edge
  publications : List Publication
  chunks : List Chunk

/-- `path LIKE 'P/%'` with `P` escaped. -/
def Below (p path : Text) : Prop := p ++ ['/'] <+: path

def AtOrBelow (p path : Text) : Prop := path = p ∨ Below p path

instance (p path : Text) : Decidable (Below p path) := inferInstanceAs (Decidable (_ <+: _))

instance (p path : Text) : Decidable (AtOrBelow p path) := inferInstanceAs (Decidable (_ ∨ _))

inductive Failure where
  | reservedSystemPath
  | notFound
  | notEmpty (docs files subs tables : Nat)
  | forbidden
  | referencedTable (name : Text)
  | unsupportedDriver (driver : Text)
  | nativeTextUnavailable
  | legacyWritesFenced
  | statementFailed
  deriving DecidableEq, Repr

namespace Vault
variable (v : Vault)

/-- The path of the collection that a file or table lives in. -/
def collectionPath (collectionId : Option Id) : Option Text :=
  collectionId.bind fun c => (v.collections.get? c).map Collection.path

/-- The collection is at or below a path. -/
def InCollection (p : Text) (collectionId : Option Id) : Prop := ∃ c ∈ v.collectionPath collectionId, AtOrBelow p c

instance (p : Text) (collectionId : Option Id) : Decidable (v.InCollection p collectionId) :=
  inferInstanceAs (Decidable (∃ c ∈ v.collectionPath collectionId, AtOrBelow p c))

def docUri (path : Text) : Text := Uri.docUri v.name path

def fileUri (f : FileRow) : Text := Uri.fileUri v.name f.id (v.collectionPath f.collectionId)

def tableUri (t : TableRow) : Text := Uri.tableUri v.name t.name (v.collectionPath t.collectionId)

/-! ### Contents under a path -/

def target (p : Text) : Option Collection := v.collections.rows.find? (fun c => c.path = p)

def subRows (p : Text) : List Collection := v.collections.rows.filter (fun c => Below p c.path)

/-- `list_docs_under` -/
def listDocsUnder (p : Text) : List DocumentRow := v.documents.rows.filter (fun d => Below p d.path)

/-- `_native_docs_under`, on native authority -/
def nativeDocsUnder (p : Text) : List NativeDocument :=
  if v.native then v.natives.rows.filter (fun r => r.live ∧ AtOrBelow p r.currentPath) else []

/-- `list_files_under` -/
def listFilesUnder (p : Text) : List FileRow :=
  v.files.rows.filter (fun f => f.kind = .file ∧ v.InCollection p f.collectionId)

/-- `list_tables_under` -/
def listTablesUnder (p : Text) : List TableRow := v.tables.rows.filter (fun t => v.InCollection p t.collectionId)

/-! ### Deleting one resource -/

def dropChunks (sourceType : SourceType) (id : Id) : Vault :=
  { v with chunks := v.chunks.filter (fun c => ¬ (c.sourceType = sourceType ∧ c.sourceId = id)) }

/-- `delete_resource_edges` -/
def dropEdges (uri : Text) : Vault :=
  { v with edges := v.edges.filter (fun e => ¬ (e.sourceUri = uri ∨ e.targetUri = uri)) }

def dropPublications (uri : Text) : Vault :=
  { v with publications := v.publications.filter (fun p => p.resourceUri ≠ some uri) }

/-- `delete_with_publications`: the foreign key takes along what is bound to the row; a fenced catalogue
refuses the deletion. -/
def deleteWithPublications (docId : Id) : Except Failure Vault :=
  match v.documents.get? docId with
  | none => .ok v
  | some row =>
    if v.fenced then .error .legacyWritesFenced
    else
      let cleaned := v.dropPublications (v.docUri row.path)
      .ok { cleaned with
        documents := v.documents.deleteWhere (fun d => d.id = docId)
        publications := cleaned.publications.filter (fun p => p.documentId ≠ some docId) }

/-- The clean-up of one row that `list_docs_under` found. -/
def deleteLegacy (d : DocumentRow) : Except Failure Vault :=
  ((v.dropChunks .document d.id).dropEdges (v.docUri d.path)).deleteWithPublications d.id

/-- `_publish_delete`, with the trigger that drops the publications bound to the resource. -/
def publishDelete (resourceId revisionId : Id) : Vault :=
  { v with
    natives := v.natives.updateWhere (fun r => r.resourceId = resourceId) (fun r => r.deleted revisionId)
      (fun r => r.deleted_resourceId revisionId)
    publications := v.publications.filter (fun p => p.nativeDocumentId ≠ some resourceId) }

variable {v} in
theorem mem_publishDelete {resourceId revisionId : Id} {r : NativeDocument} :
    r ∈ (v.publishDelete resourceId revisionId).natives ↔
      (∃ s ∈ v.natives, s.resourceId = resourceId ∧ r = s.deleted revisionId) ∨ (r ∈ v.natives ∧ r.resourceId ≠ resourceId) := by
  change r ∈ Table.updateWhere v.natives _ _ (fun r => r.deleted_resourceId revisionId) ↔ _
  simp only [Table.mem_updateWhere, decide_eq_true_eq, decide_eq_false_iff_not, ne_eq]

/-- Nobody owns the path, neither in the ledger nor in the catalogue. -/
def Unclaimed (path : Text) : Prop :=
  (∀ r ∈ v.natives.rows, ¬ (r.live ∧ r.currentPath = path)) ∧ ∀ d ∈ v.documents.rows, d.path ≠ path

instance (path : Text) : Decidable (v.Unclaimed path) := inferInstanceAs (Decidable (_ ∧ _))

/-- `delete_native_document_edges` -/
def dropNativeEdges (resourceId path : Text) : Vault :=
  let owned := v.edges.filter (fun e => ¬ (e.sourceResourceId = some resourceId ∨ e.targetResourceId = some resourceId))
  let uri := v.docUri path
  { v with
    edges := if v.Unclaimed path then
        owned.filter (fun e => ¬ ((e.sourceUri = uri ∧ e.sourceResourceId = none) ∨
          (e.targetUri = uri ∧ e.targetResourceId = none)))
      else owned }

/-- What the outer transaction adds to the deletion of a native document. -/
def cleanNative (r : NativeDocument) : Vault := (v.dropChunks .document r.resourceId).dropNativeEdges r.resourceId r.currentPath

/-- The clean-up of one file; `nativeText` tells whether the deleter of native text is registered. -/
def deleteFile (nativeText : Bool) (f : FileRow) : Except Failure Vault :=
  let cleaned := (((v.dropEdges (v.fileUri f)).dropPublications (v.fileUri f)).dropChunks .file f.id)
  let left : Vault := { cleaned with files := v.files.deleteWhere (fun g => g.id = f.id) }
  match f.storageDriver with
  | none => .ok left
  | some driver =>
    if driver = "native_text".toList then
      if nativeText ∧ f.nativeIds.isSome then .ok left else .error .nativeTextUnavailable
    else if driver = "fscas".toList ∨ driver = "s3cas".toList then .ok left
    else .error (.unsupportedDriver driver)

/-- The clean-up of one table; another table's foreign key keeps it from being dropped. -/
def deleteTable (t : TableRow) : Except Failure Vault :=
  if ∃ u ∈ v.tables.rows, u.id ≠ t.id ∧ t.id ∈ u.references then .error (.referencedTable t.name)
  else
    let cleaned := (v.dropChunks .table t.id).dropEdges (v.tableUri t)
    .ok { cleaned with tables := v.tables.deleteWhere (fun u => u.id = t.id) }

/-- `ON DELETE SET NULL` -/
def unlinked (ids : List Id) (collectionId : Option Id) : Option Id := if ∃ c ∈ collectionId, c ∈ ids then none else collectionId

/-- Delete collection rows; the foreign keys of what refers to them become null, which the fence refuses
for a row of the catalogue. -/
def deleteCollections (ids : List Id) : Except Failure Vault :=
  if v.fenced ∧ ∃ d ∈ v.documents.rows, ∃ c ∈ d.collectionId, c ∈ ids then .error .legacyWritesFenced
  else .ok { v with
    collections := v.collections.deleteWhere (fun c => c.id ∈ ids)
    documents := v.documents.updateWhere (fun _ => true) (fun d => { d with collectionId := unlinked ids d.collectionId }) (fun _ => rfl)
    files := v.files.updateWhere (fun _ => true) (fun f => { f with collectionId := unlinked ids f.collectionId }) (fun _ => rfl)
    tables := v.tables.updateWhere (fun _ => true) (fun t => { t with collectionId := unlinked ids t.collectionId }) (fun _ => rfl) }

end Vault
end Akb.Collections
