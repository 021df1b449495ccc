import Akb.Library.Run
import Akb.Uri.RoundTrip
import Akb.Collections.AllOrNothing

/-! The states that document, file, table and collection operations reach, before and after the cutover
to the native ledger, and what holds in all of them. -/
namespace Akb.Collections
open Akb.Library Akb.Library.OuterTransaction Akb.Uri

/-- A vault without contents, on the legacy authority or as a fresh native installation. -/
def emptyVault (name : Text) (native : Bool) : Vault :=
  ⟨name, native, false, .empty, .empty, .empty, .empty, .empty, [], [], []⟩

inductive Op where
  | createCollection (id : Id) (path : Text)
  | putDocument (id : Id) (path : Text) (newCollectionId : Id) (commit : Text)
  | updateDocument (id : Id) (commit : Text)
  | moveDocument (id : Id) (path : Text) (newCollectionId : Id) (commit : Text)
  | deleteDocument (id : Id)
  | createFile (row : FileRow) (collection : Option Text) (newCollectionId : Id)
  /-- A repeated upload of the same object takes over the row and its collection. -/
  | adoptFile (id : Id) (collection : Option Text) (newCollectionId : Id)
  | deleteFile (id : Id) (nativeText : Bool)
  | createTable (row : TableRow) (collection : Option Text) (newCollectionId : Id)
  | alterTable (id : Id) (references : List Id)
  | dropTable (id : Id)
  | publishDocument (slug : Text) (id : Id)
  | publishUnbound (slug : Text) (resourceUri : Option Text)
  | unpublish (slug : Text)
  /-- Links and derived data are written by many operations; any edges and chunks may follow. -/
  | rewrite (edges : List Edge) (chunks : List Chunk)
  | deleteCollection (q : Request)
  /-- The rows of the catalogue stay; the documents named get their publications bound to the ledger. -/
  | cutover (rebound : List Id) (revisionId : Id → Id)
  | nativeCreate (resourceId : Id) (path : Text) (revisionId : Id)
  | nativeReplace (resourceId revisionId : Id)
  | nativeMove (resourceId : Id) (path : Text) (revisionId : Id)
  | nativeDelete (resourceId revisionId : Id)

/-! ### The reserved collection -/

/-- The one document that the reserved collection holds. -/
def vaultSkillPath : Text := "overview/vault-skill.md".toList

/-- `is_reserved_collection` -/
def ReservedCollection (collection : Option Text) : Prop := ∃ c ∈ collection, AtOrBelow skillCollection c

/-- `is_reserved_path` -/
def ReservedPath (path : Text) : Prop := Below skillCollection path

instance (collection : Option Text) : Decidable (ReservedCollection collection) :=
  inferInstanceAs (Decidable (∃ c ∈ collection, AtOrBelow skillCollection c))

instance (path : Text) : Decidable (ReservedPath path) := inferInstanceAs (Decidable (Below _ _))

namespace Vault
variable (v : Vault)

/-- `get_or_create` of the collection row at a path. -/
def getOrCreate (path : Text) (newId : Id) : Option (Vault × Id) :=
  match v.target path with
  | some c => some (v, c.id)
  | none => (v.collections.insert? ⟨newId, path⟩).map fun collections => ({ v with collections }, newId)

def getOrCreate? (newId : Id) : Option Text → Option (Vault × Option Id)
  | none => some (v, none)
  | some path => (v.getOrCreate path newId).map fun r => (r.1, some r.2)

/-- The collection that a document path names. -/
def directory (path : Text) : Option Text := if '/' ∈ path then some (rsplit path).1 else none

/-- No row of the catalogue holds the path. -/
def FreePath (path : Text) : Prop := ∀ d ∈ v.documents.rows, d.path ≠ path

instance (path : Text) : Decidable (v.FreePath path) := inferInstanceAs (Decidable (∀ d ∈ _, _))

/-- No live document of the ledger holds the path. -/
def FreeNativePath (path : Text) : Prop := ∀ r ∈ v.natives.rows, r.live = true → r.currentPath ≠ path

instance (path : Text) : Decidable (v.FreeNativePath path) := inferInstanceAs (Decidable (∀ r ∈ _, _))

/-- `check_put`: only the seed writes to the reserved collection. -/
def putDocument (id : Id) (path : Text) (newCollectionId : Id) (commit : Text) : Option Vault :=
  if v.native = false ∧ v.FreePath path ∧ (ReservedPath path → path = vaultSkillPath) then
    (v.getOrCreate? newCollectionId (directory path)).bind fun w =>
      (w.1.documents.insert? ⟨id, path, w.2, commit⟩).map fun documents => { w.1 with documents }
  else none

/-- `UPDATE publications SET resource_uri` -/
def rebase (oldUri newUri : Text) (p : Publication) : Publication :=
  if p.resourceUri = some oldUri then { p with resourceUri := some newUri } else p

def moveDocument (id : Id) (path : Text) (newCollectionId : Id) (commit : Text) : Option Vault :=
  match v.documents.get? id with
  | none => none
  | some row =>
    if v.native = false ∧ v.FreePath path ∧ ¬ ReservedPath row.path ∧ ¬ ReservedPath path then
      (v.getOrCreate? newCollectionId (directory path)).map fun w =>
        { w.1 with
          documents := w.1.documents.upsert { row with path, collectionId := w.2, currentCommit := commit }
          publications := w.1.publications.map (rebase (v.docUri row.path) (v.docUri path)) }
    else none

def publishDocument (slug : Text) (id : Id) : Option Vault :=
  if v.native then
    ((v.natives.get? id).filter NativeDocument.live).map fun r =>
      { v with publications := ⟨slug, some (v.docUri r.currentPath), none, some id⟩ :: v.publications }
  else
    (v.documents.get? id).map fun d =>
      { v with publications := ⟨slug, some (v.docUri d.path), some id, none⟩ :: v.publications }

/-- The document of the ledger that the cutover makes of a row. -/
def adopted (revisionId : Id → Id) (d : DocumentRow) : NativeDocument :=
  ⟨d.id, d.path, true, [⟨revisionId d.id, none, "create", d.path⟩]⟩

/-- `rebind_verified_native_publications` -/
def rebind (rebound : List Id) (p : Publication) : Publication :=
  match p.documentId with
  | some d => if d ∈ rebound then { p with documentId := none, nativeDocumentId := some d } else p
  | none => p

def cutover (rebound : List Id) (revisionId : Id → Id) : Option Vault :=
  if v.native then none
  else some { v with
    native := true
    fenced := true
    natives := ⟨v.documents.rows.map (adopted revisionId), by
      rw [List.map_map]
      exact v.documents.unique⟩
    publications := v.publications.map (rebind rebound) }

def nativeCreate (resourceId path revisionId : Text) : Option Vault :=
  if v.native ∧ v.FreeNativePath path ∧ (ReservedPath path → path = vaultSkillPath) then
    (v.natives.insert? ⟨resourceId, path, true, [⟨revisionId, none, "create", path⟩]⟩).map fun natives => { v with natives }
  else none

/-- The document behind one more Revision, at `path`. -/
def NativeDocument.revised (r : NativeDocument) (action : String) (path : Text) (revisionId : Id) : NativeDocument :=
  { r with currentPath := path, revisions := ⟨revisionId, r.revisions.head?.map Revision.id, action, path⟩ :: r.revisions }

def nativeReplace (resourceId revisionId : Id) : Option Vault :=
  match v.natives.get? resourceId with
  | none => none
  | some r =>
    if r.live then some { v with natives := v.natives.upsert (NativeDocument.revised r "replace" r.currentPath revisionId) }
    else none

/-- `_publish_move`, with the trigger that renames the publications bound to the resource. -/
def nativeMove (resourceId path revisionId : Text) : Option Vault :=
  match v.natives.get? resourceId with
  | none => none
  | some r =>
    if r.live ∧ v.FreeNativePath path ∧ ¬ ReservedPath r.currentPath ∧ ¬ ReservedPath path then
      some { v with
        natives := v.natives.upsert (NativeDocument.revised r "move" path revisionId)
        publications := v.publications.map fun p =>
          if p.nativeDocumentId = some resourceId then { p with resourceUri := some (v.docUri path) } else p }
    else none

/-- The vault behind an operation; `none` where a check or a constraint refuses it. -/
def perform : Op → Option Vault
  | .createCollection id path =>
    if (v.target path).isSome ∨ ReservedCollection (some path) then none
    else (v.collections.insert? ⟨id, path⟩).map fun collections => { v with collections }
  | .putDocument id path newCollectionId commit => v.putDocument id path newCollectionId commit
  | .updateDocument id commit =>
    if v.native then none
    else some { v with
      documents := v.documents.updateWhere (fun d => d.id = id) (fun d => { d with currentCommit := commit }) (fun _ => rfl) }
  | .moveDocument id path newCollectionId commit => v.moveDocument id path newCollectionId commit
  | .deleteDocument id =>
    if v.native then none
    else (v.documents.get? id).bind fun d => if ReservedPath d.path then none else (v.deleteLegacy d).toOption
  | .createFile row collection newCollectionId =>
    if ReservedCollection collection ∨ '/' ∈ row.id ∨ (row.kind = .attachment ∧ collection.isSome) then none
    else (v.getOrCreate? newCollectionId collection).bind fun w =>
      (w.1.files.insert? { row with collectionId := w.2 }).map fun files => { w.1 with files }
  | .adoptFile id collection newCollectionId =>
    if ReservedCollection collection then none
    else (v.getOrCreate? newCollectionId collection).map fun w =>
      { w.1 with
        files := w.1.files.updateWhere (fun f => f.id = id ∧ f.kind = .file) (fun f => { f with collectionId := w.2 })
          (fun _ => rfl) }
  | .deleteFile id nativeText => (v.files.get? id).bind fun f => (v.deleteFile nativeText f).toOption
  | .createTable row collection newCollectionId =>
    if ReservedCollection collection ∨ '/' ∈ row.name ∨ (∃ t ∈ v.tables.rows, t.name = row.name) then none
    else (v.getOrCreate? newCollectionId collection).bind fun w =>
      (w.1.tables.insert? { row with collectionId := w.2 }).map fun tables => { w.1 with tables }
  | .alterTable id references =>
    some { v with
      tables := v.tables.updateWhere (fun t => t.id = id) (fun t => { t with references }) (fun _ => rfl) }
  | .dropTable id => (v.tables.get? id).bind fun t => (v.deleteTable t).toOption
  | .publishDocument slug id => v.publishDocument slug id
  | .publishUnbound slug resourceUri => some { v with publications := ⟨slug, resourceUri, none, none⟩ :: v.publications }
  | .unpublish slug => some { v with publications := v.publications.filter (fun p => p.slug ≠ slug) }
  | .rewrite edges chunks => some { v with edges, chunks }
  | .deleteCollection q =>
    match delete q v with
    | .ok w => some w
    | .error r => some r.kept
  | .cutover rebound revisionId => v.cutover rebound revisionId
  | .nativeCreate resourceId path revisionId => v.nativeCreate resourceId path revisionId
  | .nativeReplace resourceId revisionId => v.nativeReplace resourceId revisionId
  | .nativeMove resourceId path revisionId => v.nativeMove resourceId path revisionId
  | .nativeDelete resourceId revisionId =>
    ((v.natives.get? resourceId).filter NativeDocument.live).bind fun r =>
      if ReservedPath r.currentPath then none else some (v.publishDelete resourceId revisionId)

def next (op : Op) : Vault := (v.perform op).getD v

end Vault

/-- A state that operations reach from an empty vault. -/
def Reachable (v : Vault) : Prop := ∃ name native ops, v = List.foldl Vault.next (emptyVault name native) ops

end Akb.Collections
