import Akb.Browse.Cursor
import Akb.Library.Table
import Mathlib.Data.Prod.Lex
import Akb.Library.Fallible
import Akb.Library.KeysetPages

/-! The rows of a vault that a browse lists, and the query that selects its identities. -/
namespace Akb.Browse
open Akb.Library

/-- A `TEXT` value: PostgreSQL keeps no NUL in one. -/
abbrev PgText := {text : Text // '\x00' ∉ text}

structure VaultRow where
  id : Uuid
  name : PgText

structure CollectionRow where
  id : Uuid
  vaultId : Uuid
  path : PgText

structure DocumentRow where
  id : Uuid
  vaultId : Uuid
  path : PgText

/-- A row of `vault_tables`. -/
structure TableRow where
  id : Uuid
  vaultId : Uuid
  collectionId : Option Uuid
  name : PgText

/-- A row of `vault_files`. -/
structure FileRow where
  id : Uuid
  vaultId : Uuid
  collectionId : Option Uuid
  kind : String
  uploadState : String
  name : PgText

structure Catalog where
  vaults : Table VaultRow VaultRow.name
  collections : Table CollectionRow CollectionRow.id
  documents : Table DocumentRow DocumentRow.id
  tables : Table TableRow TableRow.id
  files : Table FileRow FileRow.id
  native : Native.Ledger
  native_path : ∀ r ∈ native.resources, '\x00' ∉ r.currentPath.toList

inductive ContentType where
  | all
  | collections
  | resources
  | documents
  | tables
  | files
  deriving DecidableEq

def ContentType.text : ContentType → String
  | .all => "all"
  | .collections => "collections"
  | .resources => "resources"
  | .documents => "documents"
  | .tables => "tables"
  | .files => "files"

inductive ArchiveScope where
  | unarchived
  | archived
  | all
  deriving DecidableEq

def ArchiveScope.text : ArchiveScope → String
  | .unarchived => "unarchived"
  | .archived => "archived"
  | .all => "all"

/-- What the cursors of one traversal share. -/
structure Scope where
  vaultId : Uuid
  native : Bool
  collectionPath : Text
  depth : Int
  contentType : ContentType
  archiveScope : ArchiveScope
  deriving DecidableEq

/-- `like_escape`. -/
def likeEscape (s : Text) : Text :=
  let replace (c : Char) (s : Text) := s.flatMap (fun d => if d = c then ['\\', c] else [d])
  replace '_' (replace '%' (replace '\\' s))

/-- `text LIKE pattern ESCAPE '\'`. -/
def like : Text → Text → Bool
  | [], s => s = []
  | ['\\'], _ => false
  | '\\' :: c :: pattern, s =>
    match s with
    | [] => false
    | d :: s => c == d && like pattern s
  | '%' :: pattern, s => s.tails.any (like pattern)
  | c :: pattern, s =>
    match s with
    | [] => false
    | d :: s => (c == '_' || c == d) && like pattern s

section
variable (c : Catalog) (s : Scope)

/-- `COALESCE(c.path || '/', '') || r.name`. -/
def childPath (collectionId : Option Uuid) (name : PgText) : Text :=
  match collectionId.bind c.collections.get? with
  | some collection => collection.path.1 ++ '/' :: name.1
  | none => name.1

def collectionArm : List Position :=
  (c.collections.rows.filter (fun r => r.vaultId = s.vaultId)).map (fun r => ⟨.collection, r.path.1, r.id⟩)

def documentArm : List Position :=
  if s.native then
    (c.native.resources.rows.filter (fun r => r.namespaceId = s.vaultId ∧ r.surface = .document ∧ r.lifecycle = .live)).map
      (fun r => ⟨.document, r.currentPath.toList, r.resourceId⟩)
  else (c.documents.rows.filter (fun r => r.vaultId = s.vaultId)).map (fun r => ⟨.document, r.path.1, r.id⟩)

def tableArm : List Position :=
  (c.tables.rows.filter (fun r => r.vaultId = s.vaultId)).map (fun r => ⟨.table, childPath c r.collectionId r.name, r.id⟩)

def fileArm : List Position :=
  (c.files.rows.filter (fun r => r.vaultId = s.vaultId ∧ r.kind = "file" ∧ r.uploadState = "confirmed")).map
    (fun r => ⟨.file, childPath c r.collectionId r.name, r.id⟩)

/-- The arms of the union, as the content type and the archive scope ask for them. -/
def arms : List Position :=
  (if s.contentType ∈ [.all, .documents, .collections] then collectionArm c s else []) ++
    (if s.contentType ∈ [.all, .documents, .resources] then documentArm c s else []) ++
    (if s.archiveScope ≠ .archived ∧ s.contentType ∈ [.all, .resources, .tables] then tableArm c s else []) ++
    (if s.archiveScope ≠ .archived ∧ s.contentType ∈ [.all, .resources, .files] then fileArm c s else [])

/-- The clauses on the path: under the prefix, and not too deep. -/
def clauses (path : Text) : Bool :=
  (s.collectionPath == [] || like (likeEscape s.collectionPath ++ ['/', '%']) path) &&
    (s.depth < 0 || path.length - (path.filter (· ≠ '/')).length ≤
      s.depth + if s.collectionPath = [] then 0 else s.collectionPath.count '/' + 1)

def entries : List Position := (arms c s).filter (fun e => clauses s e.path)

/-- The payload size of a Native document, where its head leads to a manifest. -/
def byteSize (id : Uuid) : Option Nat := do
  let resource ← c.native.resources.get? id
  let head ← if resource.namespaceId = s.vaultId then resource.headRevisionId else none
  let revision ← c.native.revisions.get? head
  let payloadManifestId ← if revision.resourceId = id then revision.payloadManifestId else none
  (c.native.manifests.get? payloadManifestId).map Native.Manifest.byteSize

/-- `row["body_bytes"] or 0`. -/
def bodyBytes (e : Position) : Nat := if s.native ∧ e.kind = .document then (byteSize c s e.id).getD 0 else 0

end

/-- The order of `kind, path COLLATE "C", id`. -/
def Position.key (e : Position) : Nat ×ₗ (List Nat ×ₗ Nat) :=
  toLex (e.kind.code, toLex ((utf8 e.path).map UInt8.toNat, e.id.toNat))

end Akb.Browse

/-! One page of a browse, without a name query. -/
namespace Akb.Browse
open Akb.Library

def maxPageSize : Int := 200

def maxPageBodyBytes : Nat := 16 * 1024 * 1024

structure BrowseRequest where
  vault : PgText
  native : Bool
  collection : Option Text
  depth : Int
  contentType : String
  includeArchived : Bool
  archiveScope : Option String
  pageSize : Int
  cursor : Option Text

/-- The identities behind a `BrowseResponse`, and its paging fields. -/
structure BrowsePage where
  selected : List Position
  scanned : Nat
  complete : Bool
  nextCursor : Option Text

def contentTypeOf (text : String) : Option ContentType :=
  [ContentType.all, .collections, .resources, .documents, .tables, .files].find? (fun t => text = t.text)

def resolveArchiveScope (scope : Option String) (includeArchived : Bool) : Except BrowseError ArchiveScope :=
  match scope with
  | none => .ok (if includeArchived then .all else .unarchived)
  | some text =>
    found ([ArchiveScope.unarchived, .archived, .all].find? (fun s => text = s.text)) (.validation "Invalid archive scope")

def normalizePrefix : Option Text → Except BrowseError Text
  | none => .ok []
  | some collection => (Uri.normalizeCollectionPath (some collection) true).mapError .collectionPath

/-- What a cursor is bound to. -/
def binding (py : Python) (s : Scope) : Text :=
  let value := Json.Value.list [.str s.vaultId.str, .bool s.native, .str (String.ofList s.collectionPath), .int s.depth,
    .str s.contentType.text, .str s.archiveScope.text]
  hexdigest (py.sha256 (utf8 ((value.render 0).getD [])))

/-- The checks of a request, in their order, and the scope it asks for. -/
def scopeOf (c : Catalog) (r : BrowseRequest) : Except BrowseError Scope := do
  refuse (r.pageSize < 1 ∨ maxPageSize < r.pageSize) (.validation "page_size must be between 1 and 200")
  refuse (r.depth < -1 ∨ 2 ^ 31 - 1 < r.depth) (.validation "depth must be -1 or a non-negative integer")
  let contentType ← found (contentTypeOf r.contentType) (.validation "Unsupported browse content_type")
  let archiveScope ← resolveArchiveScope r.archiveScope r.includeArchived
  let collectionPath ← normalizePrefix r.collection
  let vault ← found (c.vaults.get? r.vault) (.vaultNotFound r.vault.1)
  return ⟨vault.id, r.native, collectionPath, r.depth, contentType, archiveScope⟩

/-- The rows that fit the byte budget, and whether it cut any off; the first row always fits. -/
def withinBudget (size : Position → Nat) : Bool → Nat → List Position → Except BrowseError (List Position × Bool)
  | _, _, [] => .ok ([], false)
  | isFirst, bodyBytes, row :: rows =>
    if maxPageBodyBytes < size row then
      .error (.validation "A Native Document exceeds the browse body budget; retrieve it by its document URI instead")
    else if ¬ isFirst ∧ maxPageBodyBytes < bodyBytes + size row then .ok ([], true)
    else (withinBudget size false (bodyBytes + size row) rows).map (fun (selected, cut) => (row :: selected, cut))

def browsePage (py : Python) (c : Catalog) (r : BrowseRequest) : Except BrowseError BrowsePage := do
  let s ← scopeOf c r
  let after ← decodeCursor py r.cursor (binding py s)
  let pageSize := r.pageSize.toNat
  let rows := batchBehind Position.key (entries c s) (after.map Position.key) (pageSize + 1)
  let (selected, cut) ← withinBudget (bodyBytes c s) true 0 (rows.take pageSize)
  let more := pageSize < rows.length || cut
  return {
    selected
    scanned := selected.length
    complete := !more
    nextCursor := if more then selected.getLast?.map (encodeCursor (binding py s)) else none }

end Akb.Browse
