import Akb.Collections.WellFormed

/-! The live resources of a vault with what belongs to each: chunks, edges and publications. -/
namespace Akb.Collections
open Akb.Library Akb.Uri

inductive Resource where
  | legacy (d : DocumentRow)
  | native (r : NativeDocument)
  | file (f : FileRow)
  | table (t : TableRow)

namespace Resource
variable (v : Vault) (p : Text)

/-- The vault holds the resource, with the authority that its kind takes. -/
def LiveIn : Resource → Prop
  | .legacy d => v.native = false ∧ d ∈ v.documents
  | .native r => v.native = true ∧ r ∈ v.natives ∧ r.live = true
  | .file f => f ∈ v.files
  | .table t => t ∈ v.tables

/-- The path, or the path of the collection, is at or below `p`. -/
def AtOrUnder : Resource → Prop
  | .legacy d => AtOrBelow p d.path
  | .native r => AtOrBelow p r.currentPath
  | .file f => v.InCollection p f.collectionId
  | .table t => v.InCollection p t.collectionId

/-- The resource lies in the collection `p` or in one below it. -/
def Under : Resource → Prop
  | .legacy d => Below p d.path
  | .native r => Below p r.currentPath
  | .file f => v.InCollection p f.collectionId
  | .table t => v.InCollection p t.collectionId

def uri : Resource → Text
  | .legacy d => v.docUri d.path
  | .native r => v.docUri r.currentPath
  | .file f => v.fileUri f
  | .table t => v.tableUri t

/-- The collection of a row; a document of the ledger has its path only. -/
def collectionId : Resource → Option Id
  | .legacy d => d.collectionId
  | .native _ => none
  | .file f => f.collectionId
  | .table t => t.collectionId

def HasChunk (c : Chunk) : Resource → Prop
  | .legacy d => c.sourceType = .document ∧ c.sourceId = d.id
  | .native r => (c.sourceType = .document ∨ c.sourceType = .nativeDocument) ∧ c.sourceId = r.resourceId
  | .file f => c.sourceType = .file ∧ c.sourceId = f.id
  | .table t => c.sourceType = .table ∧ c.sourceId = t.id

/-- Bound to the document. -/
def Binds (q : Publication) : Resource → Prop
  | .legacy d => q.documentId = some d.id
  | .native r => q.nativeDocumentId = some r.resourceId
  | _ => False

def HasPublication (q : Publication) (s : Resource) : Prop := q.resourceUri = some (s.uri v) ∨ Binds q s

/-- An end of the edge names the document of the ledger by its id. -/
def Names (e : Edge) : Resource → Prop
  | .native r => e.sourceResourceId = some r.resourceId ∨ e.targetResourceId = some r.resourceId
  | _ => False

def HasEdge (e : Edge) (s : Resource) : Prop := (e.sourceUri = s.uri v ∨ e.targetUri = s.uri v) ∨ Names e s

def marker : Resource → String
  | .legacy _ => "doc"
  | .native _ => "doc"
  | .file _ => "file"
  | .table _ => "table"

def documentPath : Resource → Option Text
  | .legacy d => some d.path
  | .native r => some r.currentPath
  | _ => none

end Resource

open Resource
variable {v : Vault} {p : Text}

theorem uri_shape (h : WellFormed v) {s : Resource} (hs : s.LiveIn v) :
    ∃ dir i, '/' ∉ i ∧ s.uri v = uriFront v.name dir ++ '/' :: (s.marker.toList ++ '/' :: i) := by
  cases s with
  | legacy d =>
    obtain ⟨dir, base, hbase, huri, -⟩ := docUri_shape v.name d.path
    exact ⟨dir, base, hbase, huri⟩
  | native r =>
    obtain ⟨dir, base, hbase, huri, -⟩ := docUri_shape v.name r.currentPath
    exact ⟨dir, base, hbase, huri⟩
  | file f =>
    obtain ⟨dir, huri⟩ := leafUri_shape "file" v.name f.id (v.collectionPath f.collectionId)
    exact ⟨dir, f.id, h.leaves.fileId f hs, huri⟩
  | table t =>
    obtain ⟨dir, huri⟩ := leafUri_shape "table" v.name t.name (v.collectionPath t.collectionId)
    exact ⟨dir, t.name, h.leaves.tableName t hs, huri⟩

theorem slash_notMem_marker (s : Resource) : '/' ∉ s.marker.toList := by
  cases s
  all_goals
    rw [marker]
    decide

theorem marker_eq_of_uri (h : WellFormed v) {s s' : Resource} (hs : s.LiveIn v) (hs' : s'.LiveIn v)
    (he : s.uri v = s'.uri v) : s.marker = s'.marker := by
  apply String.toList_injective
  obtain ⟨dir, i, hi, huri⟩ := uri_shape h hs
  obtain ⟨dir', i', hi', huri'⟩ := uri_shape h hs'
  rw [huri, huri'] at he
  exact (tail_inj (slash_notMem_marker s) (slash_notMem_marker s') hi hi' he).2.1

theorem fileUri_inj (h : WellFormed v) {f f' : FileRow} (hf : f ∈ v.files) (hf' : f' ∈ v.files)
    (he : v.fileUri f = v.fileUri f') : f = f' := by
  obtain ⟨dir, huri⟩ := leafUri_shape "file" v.name f.id (v.collectionPath f.collectionId)
  obtain ⟨dir', huri'⟩ := leafUri_shape "file" v.name f'.id (v.collectionPath f'.collectionId)
  have hids := (tail_inj (by decide) (by decide) (h.leaves.fileId f hf) (h.leaves.fileId f' hf')
    (huri.symm.trans (he.trans huri'))).2.2
  exact Table.eq_of_key hf hf' hids

theorem tableUri_inj (h : WellFormed v) {t t' : TableRow} (ht : t ∈ v.tables) (ht' : t' ∈ v.tables)
    (he : v.tableUri t = v.tableUri t') : t = t' := by
  obtain ⟨dir, huri⟩ := leafUri_shape "table" v.name t.name (v.collectionPath t.collectionId)
  obtain ⟨dir', huri'⟩ := leafUri_shape "table" v.name t'.name (v.collectionPath t'.collectionId)
  have hnames := (tail_inj (by decide) (by decide) (h.leaves.tableName t ht) (h.leaves.tableName t' ht')
    (huri.symm.trans (he.trans huri'))).2.2
  exact h.leaves.oneTable t ht t' ht' hnames

theorem atOrUnder_of_documentPath {s : Resource} {path : Text} (hs : s.documentPath = some path) :
    s.AtOrUnder v p ↔ AtOrBelow p path := by
  cases s with
  | legacy d =>
    cases hs
    rfl
  | native r =>
    cases hs
    rfl
  | file f => cases hs
  | table t => cases hs

theorem document_of_marker {s : Resource} (h : s.marker = "doc") :
    ∃ path, s.documentPath = some path ∧ s.uri v = v.docUri path := by
  cases s with
  | legacy d => exact ⟨_, rfl, rfl⟩
  | native r => exact ⟨_, rfl, rfl⟩
  | file f => exact absurd (show "file" = "doc" from h) (by decide)
  | table t => exact absurd (show "table" = "doc" from h) (by decide)

theorem file_of_marker {s : Resource} (h : s.marker = "file") : ∃ f, s = .file f := by
  cases s with
  | legacy d => exact absurd (show "doc" = "file" from h) (by decide)
  | native r => exact absurd (show "doc" = "file" from h) (by decide)
  | file f => exact ⟨f, rfl⟩
  | table t => exact absurd (show "table" = "file" from h) (by decide)

theorem table_of_marker {s : Resource} (h : s.marker = "table") : ∃ t, s = .table t := by
  cases s with
  | legacy d => exact absurd (show "doc" = "table" from h) (by decide)
  | native r => exact absurd (show "doc" = "table" from h) (by decide)
  | file f => exact absurd (show "file" = "table" from h) (by decide)
  | table t => exact ⟨t, rfl⟩

theorem document_atOrUnder_of_uri {s s' : Resource} (hs : s.marker = "doc") (hs' : s'.marker = "doc")
    (he : s.uri v = s'.uri v) (hunder : s.AtOrUnder v p) : s'.AtOrUnder v p := by
  obtain ⟨path, hpath, huri⟩ := document_of_marker (v := v) hs
  obtain ⟨path', hpath', huri'⟩ := document_of_marker (v := v) hs'
  rw [huri, huri'] at he
  rw [atOrUnder_of_documentPath hpath'] 
  rw [atOrUnder_of_documentPath hpath, docUri_inj he] at hunder
  exact hunder

/-- A URI tells whether its resource lies at or under a path. -/
theorem atOrUnder_of_uri (h : WellFormed v) {s s' : Resource} (hs : s.LiveIn v) (hs' : s'.LiveIn v)
    (he : s.uri v = s'.uri v) (hunder : s.AtOrUnder v p) : s'.AtOrUnder v p := by
  have hmarker := marker_eq_of_uri h hs hs' he
  cases s with
  | legacy d => exact document_atOrUnder_of_uri rfl hmarker.symm he hunder
  | native r => exact document_atOrUnder_of_uri rfl hmarker.symm he hunder
  | file f =>
    obtain ⟨f', rfl⟩ := file_of_marker hmarker.symm
    exact fileUri_inj h hs hs' he ▸ hunder
  | table t =>
    obtain ⟨t', rfl⟩ := table_of_marker hmarker.symm
    exact tableUri_inj h hs hs' he ▸ hunder

/-- A publication bound to a live document is under its URI. -/
theorem resourceUri_of_binds (h : WellFormed v) {q : Publication} (hq : q ∈ v.publications) {s : Resource} (hs : s.LiveIn v)
    (hb : Binds q s) : q.resourceUri = some (s.uri v) := by
  cases s with
  | legacy d =>
    obtain ⟨a, ha, hid, huri⟩ := h.bound q hq d.id hb
    rw [huri, Table.eq_of_key ha hs.2 hid]
    rfl
  | native r =>
    obtain ⟨a, ha, hid, -, huri⟩ := h.nativeBound q hq r.resourceId hb
    rw [huri, Table.eq_of_key ha hs.2.1 hid]
    rfl
  | file f => exact hb.elim
  | table t => exact hb.elim

end Akb.Collections
