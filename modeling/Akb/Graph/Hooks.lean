import Akb.Graph.Edges
import Akb.Library.Run

/-! The hooks that follow the commits of native documents: a document's edges are found by its
identity and led to its current path, or deleted. -/
namespace Akb.Graph
open Akb.Library Akb.Uri

/-! ### The columns of an edge -/

/-- The two ends of a row; the maintenance statements take one of them as a parameter. -/
inductive Column where
  | source
  | target
  deriving DecidableEq

namespace Column

def other : Column → Column
  | source => target
  | target => source

end Column

namespace Edge

def uri (e : Edge) : Column → Text
  | .source => e.sourceUri
  | .target => e.targetUri

def resourceId (e : Edge) : Column → Option Uuid
  | .source => e.sourceResourceId
  | .target => e.targetResourceId

def type (e : Edge) : Column → Kind
  | .source => e.sourceType
  | .target => e.targetType

def withUri (e : Edge) (uri : Text) : Column → Edge
  | .source => { e with sourceUri := uri }
  | .target => { e with targetUri := uri }

def withResourceId (e : Edge) (id : Option Uuid) : Column → Edge
  | .source => { e with sourceResourceId := id }
  | .target => { e with targetResourceId := id }

end Edge

/-! ### The statements -/

/-- The row that already stands where the `UPDATE` would put `e`. -/
def blocks (vaultId : Uuid) (column : Column) (newUri : Text) (e x : Edge) : Bool :=
  x.vaultId = vaultId && x.uri column = newUri && x.uri column.other = e.uri column.other && x.relationType = e.relationType

/-- The rows that the `UPDATE` selects. -/
def repoints (vaultId : Uuid) (column : Column) (resourceId : Uuid) (newUri : Text) (rows : List Edge) (e : Edge) : Bool :=
  e.vaultId = vaultId && e.resourceId column = some resourceId && !decide (e.uri column = newUri) &&
    !rows.any (blocks vaultId column newUri e)

/-- `_repoint_edge_column`: none where the `UPDATE` violates the unique key. -/
def repointEdgeColumn (vaultId : Uuid) (column : Column) (resourceId : Uuid) (newUri : Text) (edges : Edges) :
    Option Edges :=
  let rows := edges.rows.map (fun e => if repoints vaultId column resourceId newUri edges.rows e then e.withUri newUri column else e)
  if h : (rows.map Edge.key).Nodup then
    some (Table.deleteWhere ⟨rows, h⟩ (fun e =>
      e.vaultId = vaultId && e.resourceId column = some resourceId && !decide (e.uri column = newUri)))
  else none

/-- Nobody else can own unstamped rows at this path. -/
def Catalog.unclaimed (c : Catalog) (path : Text) : Bool :=
  !c.natives.any (fun d => d.currentPath = path) && !c.documents.any (fun d => d.path = path)

def adoptColumn (vaultId : Uuid) (column : Column) (resourceId : Uuid) (uri : Text) (edges : Edges) : Edges :=
  edges.updateWhere
    (fun e => e.vaultId = vaultId && e.uri column = uri && e.type column = .doc && e.resourceId column = none)
    (fun e => e.withResourceId (some resourceId) column)
    (by intro e; cases column <;> rfl)

def adoptNativeDocumentEdges (c : Catalog) (resourceId : Uuid) (path : Text) (edges : Edges) : Edges :=
  if c.unclaimed path then
    adoptColumn c.vaultId .target resourceId (docUri c.vaultName path)
      (adoptColumn c.vaultId .source resourceId (docUri c.vaultName path) edges)
  else edges

def syncNativeDocumentEdgeUris (c : Catalog) (resourceId : Uuid) (path : Text) (adoptPath : Option Text) (edges : Edges) :
    Option Edges :=
  let adopted := match adoptPath with
    | some old => if old ≠ path then adoptNativeDocumentEdges c resourceId old edges else edges
    | none => edges
  (repointEdgeColumn c.vaultId .source resourceId (docUri c.vaultName path) adopted).bind
    (repointEdgeColumn c.vaultId .target resourceId (docUri c.vaultName path))

def deleteNativeDocumentEdges (c : Catalog) (resourceId : Uuid) (path : Text) (edges : Edges) : Edges :=
  let left := edges.deleteWhere (fun e => e.vaultId = c.vaultId &&
    (e.sourceResourceId = some resourceId || e.targetResourceId = some resourceId))
  if c.unclaimed path then
    left.deleteWhere (fun e => e.vaultId = c.vaultId &&
      ((e.sourceUri = docUri c.vaultName path && e.sourceResourceId = none) ||
        (e.targetUri = docUri c.vaultName path && e.targetResourceId = none)))
  else left

/-! ### The ledger and its hooks -/

/-- The native documents of a vault: no two live ones share an identity or a path, and an
identity is never used again. -/
structure Ledger where
  live : List NativeDocument
  known : List Uuid
  ids : (live.map NativeDocument.resourceId).Nodup
  paths : (live.map NativeDocument.currentPath).Nodup
  used : ∀ d ∈ live, d.resourceId ∈ known

namespace Ledger

def empty : Ledger := ⟨[], [], List.nodup_nil, List.nodup_nil, by simp⟩

def head? (l : Ledger) (resourceId : Uuid) : Option Text :=
  (l.live.find? (fun d => d.resourceId = resourceId)).map NativeDocument.currentPath

def IsLive (l : Ledger) (resourceId : Uuid) : Prop := ∃ d ∈ l.live, d.resourceId = resourceId

instance (l : Ledger) (resourceId : Uuid) : Decidable (l.IsLive resourceId) :=
  List.decidableBEx (fun d : NativeDocument => d.resourceId = resourceId) l.live

def delete (l : Ledger) (resourceId : Uuid) : Ledger where
  live := l.live.filter (fun d => !decide (d.resourceId = resourceId))
  known := l.known
  ids := l.ids.sublist (List.filter_sublist.map _)
  paths := l.paths.sublist (List.filter_sublist.map _)
  used := fun d hd => l.used d (List.mem_filter.mp hd).1

theorem mem_delete {l : Ledger} {resourceId : Uuid} {d : NativeDocument} :
    d ∈ (l.delete resourceId).live ↔ d ∈ l.live ∧ d.resourceId ≠ resourceId := by
  simp [delete]

/-- Put a document at a path that no other document has. -/
def place (l : Ledger) (resourceId : Uuid) (path : Text) (hid : ∀ d ∈ l.live, d.resourceId ≠ resourceId)
    (hpath : ∀ d ∈ l.live, d.currentPath ≠ path) : Ledger where
  live := ⟨resourceId, path⟩ :: l.live
  known := resourceId :: l.known
  ids := List.nodup_cons.mpr ⟨fun h => by
    obtain ⟨d, hd, heq⟩ := List.mem_map.mp h
    exact hid d hd heq, l.ids⟩
  paths := List.nodup_cons.mpr ⟨fun h => by
    obtain ⟨d, hd, heq⟩ := List.mem_map.mp h
    exact hpath d hd heq, l.paths⟩
  used := by
    intro d hd
    rcases List.mem_cons.mp hd with rfl | hd
    · exact List.mem_cons_self
    · exact List.mem_cons_of_mem _ (l.used d hd)

/-- A new identity at a free path. -/
def create? (l : Ledger) (resourceId : Uuid) (path : Text) : Option Ledger :=
  if h : resourceId ∉ l.known ∧ ∀ d ∈ l.live, d.currentPath ≠ path then
    some (l.place resourceId path (fun d hd heq => h.1 (heq ▸ l.used d hd)) h.2)
  else none

/-- A live document goes to a free path. -/
def move? (l : Ledger) (resourceId : Uuid) (path : Text) : Option Ledger :=
  if h : l.IsLive resourceId ∧ ∀ d ∈ l.live, d.currentPath ≠ path then
    some ((l.delete resourceId).place resourceId path (fun _ hd => (mem_delete.mp hd).2)
      (fun d hd => h.2 d (mem_delete.mp hd).1))
  else none

end Ledger

/-- The work that a commit leaves behind. -/
inductive Hook where
  | sync (resourceId : Uuid) (adoptPath : Option Text)
  | delete (resourceId : Uuid) (path : Text)
  deriving DecidableEq

inductive NativeOp where
  | create (resourceId : Uuid) (path : Text)
  | move (resourceId : Uuid) (path : Text) (adopt : Bool)
  | remove (resourceId : Uuid)
  | hook (h : Hook)
  | link (sourceUri targetUri : Text) (relationType : String) (createdBy metadata : Option String)
  | unlink (sourceUri targetUri : Text) (relationType : Option String)

/-- A vault with what does not change in these histories: its legacy documents, tables and files. -/
structure Vault where
  base : Catalog
  tables : ∀ n ∈ base.tables, '/' ∉ n

structure NativeState where
  ledger : Ledger
  edges : Edges
  /-- The identities that were linked and not unlinked since. -/
  linked : List (Uuid × Uuid × String)
  issued : List Hook
  /-- The hooks that have not run since their commit. -/
  due : List Hook

def NativeState.start : NativeState := ⟨Ledger.empty, Table.empty, [], [], []⟩

variable (v : Vault)

def Vault.catalog (l : Ledger) : Catalog := { v.base with natives := l.live }

/-- The identity that a URI stands for. -/
def Catalog.identityAt (c : Catalog) (uri : Text) : Option Uuid :=
  ((c.natives.find? (fun d => docUri c.vaultName d.currentPath = uri)).bind
    (fun d => c.resolveDocumentEndpoint d.currentPath)).bind DocumentEndpoint.resourceId

def NativeState.commit (s : NativeState) (hook : Hook) : Option Ledger → NativeState
  | some l => { s with ledger := l, issued := hook :: s.issued, due := hook :: s.due }
  | none => s

/-- A hook reads the head when it runs; where a statement fails, the hook has not run. -/
def NativeState.runHook (s : NativeState) (hook : Hook) : NativeState :=
  match hook with
  | .sync r adoptPath =>
    match s.ledger.head? r with
    | none => { s with due := s.due.erase hook }
    | some path =>
      match syncNativeDocumentEdgeUris (v.catalog s.ledger) r path adoptPath s.edges with
      | some edges => { s with edges := edges, due := s.due.erase hook }
      | none => s
  | .delete r path =>
    { s with edges := deleteNativeDocumentEdges (v.catalog s.ledger) r path s.edges, due := s.due.erase hook }

/-- The pair of identities that an accepted link joins. -/
def joinedPair (ends : Except GraphError (Endpoint × Endpoint)) (relationType : String) : Option (Uuid × Uuid × String) :=
  match ends with
  | .ok ends => ends.1.resourceId.bind (fun a => ends.2.resourceId.map (fun b => (a, b, relationType)))
  | .error _ => none

/-- The links between the resources that the two URIs stand for. -/
def Catalog.denotes (c : Catalog) (ends : Text × Text) (relationType : Option String) (k : Uuid × Uuid × String) : Bool :=
  c.identityAt ends.1 = some k.1 && c.identityAt ends.2 = some k.2.1 && matchesRelation relationType k.2.2

def NativeState.step (s : NativeState) : NativeOp → NativeState
  | .create r path => s.commit (.sync r none) (s.ledger.create? r path)
  | .move r path adopt =>
    match s.ledger.head? r with
    | some old => s.commit (.sync r (if adopt then some old else none)) (s.ledger.move? r path)
    | none => s
  | .remove r =>
    match s.ledger.head? r with
    | some path => s.commit (.delete r path) (some (s.ledger.delete r))
    | none => s
  | .hook h => if h ∈ s.issued then s.runHook v h else s
  | .link sourceUri targetUri relationType createdBy metadata =>
    let c := v.catalog s.ledger
    match linkResources c s.edges c.vaultName sourceUri targetUri relationType createdBy metadata with
    | .ok r =>
      { s with
        edges := r.1
        linked := (joinedPair (linkEnds c c.vaultName sourceUri targetUri) relationType).toList ++ s.linked }
    | .error _ => s
  | .unlink sourceUri targetUri relationType =>
    let c := v.catalog s.ledger
    match unlinkResources c s.edges sourceUri targetUri relationType with
    | .ok r =>
      { s with
        edges := r.1
        linked := s.linked.filter (fun k => !c.denotes (r.2.source, r.2.target) relationType k) }
    | .error _ => s

end Akb.Graph
