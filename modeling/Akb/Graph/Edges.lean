import Akb.Graph.References
import Akb.Library.Fallible
import Akb.Library.Table

/-! The edges of one vault's graph: what a document write extracts, and the explicit link and
unlink. Both kinds share one row for each source, target and relation. -/
namespace Akb.Graph
open Akb.Library Akb.Uri

inductive EdgeKind where
  | implicit
  | explicit
  deriving DecidableEq

structure Edge where
  vaultId : Uuid
  sourceUri : Text
  targetUri : Text
  relationType : String
  sourceType : Kind
  targetType : Kind
  metadata : String
  createdBy : Option String
  kind : EdgeKind
  sourceResourceId : Option Uuid
  targetResourceId : Option Uuid
  deriving DecidableEq

/-- A source, a target and a relation. -/
abbrev Triple := Text × Text × String

def Edge.key (e : Edge) : Triple := (e.sourceUri, e.targetUri, e.relationType)

/-- The table `edges`, unique in (source_uri, target_uri, relation_type). -/
abbrev Edges := Table Edge Edge.key

def Edge.stamped (e : Edge) (source target : Option Uuid) : Edge :=
  { e with sourceResourceId := source, targetResourceId := target }

@[simp] theorem Edge.key_stamped (e : Edge) (source target : Option Uuid) : (e.stamped source target).key = e.key := rfl

/-! ### What a write extracts -/

/-- `_store_edge`, with whether an edge was stored. -/
def storeEdge (c : Catalog) (edges : Edges) (sourceUri : Text) (sourceResourceId : Option Uuid) (targetRef : Text)
    (relationType : String) : Bool × Edges :=
  match resolveTarget c c.vaultName targetRef with
  | none => (false, edges)
  | some target =>
    if sourceUri = target.uri then (false, edges)
    else (true, edges.insertOr
      ⟨c.vaultId, sourceUri, target.uri, relationType, .doc, target.type, "\x7b\x7d", none, .implicit, sourceResourceId,
        target.resourceId⟩
      (fun old => old.stamped sourceResourceId target.resourceId))

/-- What a version of a document says about its relations. -/
structure Version where
  dependsOn : List Text
  relatedTo : List Text
  implements : List Text
  bodyContent : Text
  deriving DecidableEq

/-- The references of a version with their relations, in the order in which they are stored. -/
def Version.references (markdown : Markdown) (version : Version) : List (Text × String) :=
  version.dependsOn.map (·, "depends_on") ++ version.relatedTo.map (·, "related_to") ++
    version.implements.map (·, "implements") ++ (extractMarkdownLinks markdown version.bodyContent).map (·, "links_to")

/-- The implicit rows that a rewrite drops first. -/
def ownedImplicit (c : Catalog) (sourceUri : Text) (sourceResourceId : Option Uuid) (e : Edge) : Bool :=
  match sourceResourceId with
  | some r => e.vaultId = c.vaultId && e.kind = .implicit &&
      (e.sourceResourceId = some r || (e.sourceResourceId = none && e.sourceUri = sourceUri))
  | none => e.sourceUri = sourceUri && e.kind = .implicit

def storeReferences (c : Catalog) (sourceUri : Text) (sourceResourceId : Option Uuid) (count : Nat) (edges : Edges) :
    List (Text × String) → Nat × Edges
  | [] => (count, edges)
  | (targetRef, relationType) :: rest =>
    let stored := storeEdge c edges sourceUri sourceResourceId targetRef relationType
    storeReferences c sourceUri sourceResourceId (if stored.1 then count + 1 else count) stored.2 rest

def storeDocumentRelations (markdown : Markdown) (c : Catalog) (edges : Edges) (docPath : Text) (version : Version)
    (sourceResourceId : Option Uuid) : Nat × Edges :=
  let source := docUri c.vaultName docPath
  storeReferences c source sourceResourceId 0 (edges.deleteWhere (ownedImplicit c source sourceResourceId))
    (version.references markdown)

/-! ### Link and unlink -/

structure GraphError where
  message : Text
  code : String
  deriving DecidableEq

def Kind.name : Kind → Text
  | .vault => "vault".toList
  | .coll => "coll".toList
  | .doc => "doc".toList
  | .table => "table".toList
  | .file => "file".toList

/-- The canonical form of a URI that may be linked. -/
def canonicalizeResourceUri (parsed : ParsedUri) : Option Text :=
  let i := parsed.identifier.getD []
  match parsed.kind with
  | .doc => some (docUri parsed.vault i)
  | .table => some (tableUri parsed.vault i parsed.collPath)
  | .file => some (fileUri parsed.vault i parsed.collPath)
  | _ => none

def invalidUri (side : String) (uri : Text) : GraphError :=
  ⟨("Invalid " ++ side ++ " URI: ").toList ++ uri, "invalid_uri"⟩

def parseEnd (side : String) (uri : Text) : Except GraphError ParsedUri :=
  found (parseUri uri) (invalidUri side uri)

/-- The end of an explicit edge, refused where no such resource is. -/
def resolveEnd (c : Catalog) (side : String) (parsed : ParsedUri) (uri i : Text) : Except GraphError (Option Uuid) :=
  found
    (if parsed.kind = .doc then (c.resolveDocumentEndpoint i).map DocumentEndpoint.resourceId
      else if c.resourceExists parsed.kind i then some none else none)
    ⟨(side ++ " resource not found: ").toList ++ uri, "not_found"⟩

structure LinkReply where
  source : Text
  target : Text
  relation : String
  deriving DecidableEq

def unlinkable (action : String) (kind : Kind) (uri : Text) : GraphError :=
  ⟨("Cannot " ++ action ++ " a ").toList ++ Kind.name kind ++ " URI (".toList ++ uri ++
    "). Linkable kinds: ('doc', 'table', 'file').".toList, "invalid_argument"⟩

def identifiers (source target : ParsedUri) : Except GraphError (Text × Text) :=
  match source.identifier, target.identifier with
  | some s, some t => .ok (s, t)
  | _, _ => .error ⟨"Source or target URI is missing an identifier.".toList, "invalid_uri"⟩

/-- The ends of a link as they will be stored. -/
def linkEnds (c : Catalog) (vaultName sourceUri targetUri : Text) : Except GraphError (Endpoint × Endpoint) := do
  let source ← parseEnd "source" sourceUri
  let target ← parseEnd "target" targetUri
  refuse (source.kind ∉ linkableResourceTypes) (unlinkable "link from" source.kind sourceUri)
  refuse (target.kind ∉ linkableResourceTypes) (unlinkable "link to" target.kind targetUri)
  refuse (¬ (source.vault = target.vault ∧ target.vault = vaultName))
    ⟨"source and target must belong to the requested vault".toList, "invalid_argument"⟩
  let ids ← identifiers source target
  let sourceUri := (canonicalizeResourceUri source).getD sourceUri
  let targetUri := (canonicalizeResourceUri target).getD targetUri
  refuse (sourceUri = targetUri) ⟨"Cannot link a resource to itself".toList, "self_link"⟩
  refuse (vaultName ≠ c.vaultName) ⟨"Vault not found: ".toList ++ vaultName, "not_found"⟩
  let sourceId ← resolveEnd c "Source" source sourceUri ids.1
  let targetId ← resolveEnd c "Target" target targetUri ids.2
  return (⟨sourceUri, source.kind, sourceId⟩, ⟨targetUri, target.kind, targetId⟩)

def explicitEdge (c : Catalog) (source target : Endpoint) (relationType : String) (createdBy : Option String)
    (metadata : String) : Edge :=
  ⟨c.vaultId, source.uri, target.uri, relationType, source.type, target.type, metadata, createdBy, .explicit,
    source.resourceId, target.resourceId⟩

/-- The conflict clause of `link_resources`. -/
def Edge.relinked (new old : Edge) : Edge :=
  { old.stamped new.sourceResourceId new.targetResourceId with
    metadata := new.metadata, createdBy := new.createdBy, kind := .explicit }

def linkResources (c : Catalog) (edges : Edges) (vaultName sourceUri targetUri : Text) (relationType : String)
    (createdBy : Option String) (metadata : Option String) : Except GraphError (Edges × LinkReply) := do
  let ends ← linkEnds c vaultName sourceUri targetUri
  let new := explicitEdge c ends.1 ends.2 relationType createdBy (metadata.getD "\x7b\x7d")
  return (edges.insertOr new (Edge.relinked new), ⟨ends.1.uri, ends.2.uri, relationType⟩)

structure UnlinkReply where
  unlinked : Nat
  source : Text
  target : Text
  deriving DecidableEq

def canonicalEnd (action : String) (parsed : ParsedUri) (uri : Text) : Except GraphError Text :=
  found (canonicalizeResourceUri parsed) (unlinkable action parsed.kind uri)

def unlinkEnds (c : Catalog) (sourceUri targetUri : Text) : Except GraphError (Text × Text) := do
  let source ← parseEnd "source" sourceUri
  let target ← parseEnd "target" targetUri
  refuse (source.vault ≠ target.vault)
    ⟨"source and target must belong to the same vault".toList, "invalid_argument"⟩
  let sourceUri ← canonicalEnd "unlink from" source sourceUri
  let targetUri ← canonicalEnd "unlink to" target targetUri
  refuse (c.vaultName ≠ source.vault)
    ⟨"source and target must belong to the authorized vault".toList, "invalid_argument"⟩
  return (sourceUri, targetUri)

/-- An omitted relation, or an empty one, matches every relation. -/
def matchesRelation (relationType : Option String) (relation : String) : Bool :=
  match relationType with
  | some r => r = "" || relation = r
  | none => true

/-- What an unlink deletes: the explicit rows between its ends. -/
def unlinks (c : Catalog) (sourceUri targetUri : Text) (relationType : Option String) (e : Edge) : Bool :=
  e.sourceUri = sourceUri && e.targetUri = targetUri && e.kind = .explicit && matchesRelation relationType e.relationType &&
    e.vaultId = c.vaultId

def unlinkResources (c : Catalog) (edges : Edges) (sourceUri targetUri : Text) (relationType : Option String) :
    Except GraphError (Edges × UnlinkReply) := do
  let ends ← unlinkEnds c sourceUri targetUri
  let deleted := edges.rows.countP (unlinks c ends.1 ends.2 relationType)
  return (edges.deleteWhere (unlinks c ends.1 ends.2 relationType), ⟨deleted, ends.1, ends.2⟩)

/-! ### What links, unlinks and stored references do to the rows -/

variable {c : Catalog} {edges edges' : Edges}

/-- What may stand at an end of an explicit edge: a document under the identity its path resolves to,
or a table or a file. -/
def Catalog.Ends (c : Catalog) (e : Endpoint) : Prop :=
  (e.type = .doc ∧ ∃ path, e.uri = docUri c.vaultName path ∧ c.resolveDocumentEndpoint path = some ⟨path, e.resourceId⟩) ∨
    (e.resourceId = none ∧ ∃ i coll, (e.type = .table ∧ i ∈ c.tables ∧ e.uri = tableUri c.vaultName i coll) ∨
      (e.type = .file ∧ (∃ f ∈ c.files, uuidText f = i) ∧ e.uri = fileUri c.vaultName i coll))

theorem Catalog.Ends.stamps {e : Endpoint} (h : c.Ends e) : c.Stamps e.uri e.resourceId := by
  rcases h with ⟨-, path, huri, hpath⟩ | ⟨hid, -⟩
  · rw [huri]
    exact (resolveDocumentEndpoint_some hpath).2
  · rw [hid]
    rintro r ⟨⟩

theorem resolveEnd_ok {side : String} {parsed : ParsedUri} {uri i : Text} {id : Option Uuid}
    (h : resolveEnd c side parsed uri i = .ok id) (hi : parsed.identifier = some i) (hv : parsed.vault = c.vaultName)
    (huri : uri = (canonicalizeResourceUri parsed).getD uri) (hkind : parsed.kind ∈ linkableResourceTypes) :
    c.Ends ⟨uri, parsed.kind, id⟩ := by
  have hfound := found_eq_ok.mp h
  split at hfound
  · rename_i hdoc
    obtain ⟨e, he, rfl⟩ := Option.map_eq_some_iff.mp hfound
    obtain ⟨hpath, -⟩ := resolveDocumentEndpoint_some he
    refine .inl ⟨hdoc, i, ?_, ?_⟩
    · rw [huri]
      simp only [canonicalizeResourceUri, hdoc, hi, hv, Option.getD_some]
    · rw [he, ← hpath]
  · rename_i hdoc
    split at hfound
    · rename_i hexists
      cases hfound
      refine .inr ⟨rfl, i, parsed.collPath, ?_⟩
      simp only [linkableResourceTypes, List.mem_cons, List.not_mem_nil, or_false] at hkind
      rcases hkind with hk | hk | hk
      · exact absurd hk hdoc
      · rw [hk] at hexists
        refine .inl ⟨hk, by simpa [Catalog.resourceExists] using hexists, ?_⟩
        rw [huri]
        simp only [canonicalizeResourceUri, hk, hi, hv, Option.getD_some]
      · rw [hk] at hexists
        refine .inr ⟨hk, by simpa [Catalog.resourceExists] using hexists, ?_⟩
        rw [huri]
        simp only [canonicalizeResourceUri, hk, hi, hv, Option.getD_some]
    · cases hfound

/-- The ends of a link are apart, and each is a resource of the catalogue. -/
theorem linkEnds_ok {vaultName sourceUri targetUri : Text} {ends : Endpoint × Endpoint}
    (h : linkEnds c vaultName sourceUri targetUri = .ok ends) :
    ends.1.uri ≠ ends.2.uri ∧ c.Ends ends.1 ∧ c.Ends ends.2 := by
  obtain ⟨source, -, h⟩ := bind_eq_ok.mp h
  obtain ⟨target, -, h⟩ := bind_eq_ok.mp h
  obtain ⟨_, hskind, h⟩ := bind_eq_ok.mp h
  obtain ⟨_, htkind, h⟩ := bind_eq_ok.mp h
  obtain ⟨_, hvaults, h⟩ := bind_eq_ok.mp h
  obtain ⟨ids, hids, h⟩ := bind_eq_ok.mp h
  obtain ⟨_, hself, h⟩ := bind_eq_ok.mp h
  obtain ⟨_, hname, h⟩ := bind_eq_ok.mp h
  obtain ⟨sourceId, hsource, h⟩ := bind_eq_ok.mp h
  obtain ⟨targetId, htarget, h⟩ := bind_eq_ok.mp h
  cases h
  obtain ⟨hst, htv⟩ := not_not.mp (refuse_eq_ok.mp hvaults)
  have hv := not_not.mp (refuse_eq_ok.mp hname)
  obtain ⟨hs, ht⟩ : source.identifier = some ids.1 ∧ target.identifier = some ids.2 := by
    unfold identifiers at hids
    split at hids
    · rename_i hs ht
      cases hids
      exact ⟨hs, ht⟩
    · cases hids
  have hcanonical (p : ParsedUri) (u : Text) :
      (canonicalizeResourceUri p).getD u = (canonicalizeResourceUri p).getD ((canonicalizeResourceUri p).getD u) := by
    cases canonicalizeResourceUri p <;> rfl
  refine ⟨refuse_eq_ok.mp hself, ?_, ?_⟩
  · exact resolveEnd_ok hsource hs (hst.trans (htv.trans hv)) (hcanonical source sourceUri) (not_not.mp (refuse_eq_ok.mp hskind))
  · exact resolveEnd_ok htarget ht (htv.trans hv) (hcanonical target targetUri) (not_not.mp (refuse_eq_ok.mp htkind))

theorem linkResources_ok {vaultName sourceUri targetUri : Text} {relationType : String} {createdBy metadata : Option String}
    {r : Edges × LinkReply} (h : linkResources c edges vaultName sourceUri targetUri relationType createdBy metadata = .ok r) :
    ∃ ends, linkEnds c vaultName sourceUri targetUri = .ok ends ∧
      r.2 = ⟨ends.1.uri, ends.2.uri, relationType⟩ ∧
      r.1 = edges.insertOr (explicitEdge c ends.1 ends.2 relationType createdBy (metadata.getD "\x7b\x7d"))
        (Edge.relinked (explicitEdge c ends.1 ends.2 relationType createdBy (metadata.getD "\x7b\x7d"))) := by
  obtain ⟨ends, hends, h⟩ := bind_eq_ok.mp h
  cases h
  exact ⟨ends, hends, rfl, rfl⟩

theorem unlinkResources_ok {sourceUri targetUri : Text} {relationType : Option String} {r : Edges × UnlinkReply}
    (h : unlinkResources c edges sourceUri targetUri relationType = .ok r) :
    ∃ ends, unlinkEnds c sourceUri targetUri = .ok ends ∧ (r.2.source, r.2.target) = ends ∧
      r.1 = edges.deleteWhere (unlinks c ends.1 ends.2 relationType) := by
  obtain ⟨ends, hends, h⟩ := bind_eq_ok.mp h
  cases h
  exact ⟨ends, hends, rfl, rfl⟩

@[simp] theorem Edge.key_relinked (new old : Edge) : (Edge.relinked new old).key = old.key := rfl

/-- A link leaves one explicit row under its triple, with the identities it found. -/
theorem mem_link (new : Edge) {e : Edge} (hnew : new.kind = .explicit) (h : e ∈ edges.insertOr new (Edge.relinked new)) :
    (e ∈ edges ∧ e.key ≠ new.key) ∨ (e.key = new.key ∧ e.kind = .explicit ∧
      e.sourceResourceId = new.sourceResourceId ∧ e.targetResourceId = new.targetResourceId ∧
      (e.vaultId = new.vaultId ∨ ∃ old ∈ edges, e.vaultId = old.vaultId)) := by
  rcases (Table.mem_insertOr (Edge.key_relinked new)).mp h with ⟨old, hold, hkey, rfl⟩ | ⟨-, rfl⟩ | he
  · exact .inr ⟨hkey, rfl, rfl, rfl, .inr ⟨old, hold, rfl⟩⟩
  · exact .inr ⟨rfl, hnew, rfl, rfl, .inl rfl⟩
  · exact .inl he

theorem link_keeps {new e : Edge} (he : e ∈ edges) (hkey : e.key ≠ new.key) :
    e ∈ edges.insertOr new (Edge.relinked new) :=
  (Table.mem_insertOr (Edge.key_relinked new)).mpr (.inr (.inr ⟨he, hkey⟩))

theorem link_row (edges : Edges) (new : Edge) (hnew : new.kind = .explicit) :
    ∃ e ∈ edges.insertOr new (Edge.relinked new), e.key = new.key ∧ e.kind = .explicit ∧
      e.sourceResourceId = new.sourceResourceId ∧ e.targetResourceId = new.targetResourceId := by
  by_cases hold : ∃ old ∈ edges, old.key = new.key
  · obtain ⟨old, hold, hkey⟩ := hold
    exact ⟨Edge.relinked new old,
      (Table.mem_insertOr (Edge.key_relinked new)).mpr (.inl ⟨old, hold, hkey, rfl⟩), hkey, rfl, rfl, rfl⟩
  · refine ⟨new, (Table.mem_insertOr (Edge.key_relinked new)).mpr (.inr (.inl ⟨?_, rfl⟩)), rfl, hnew, rfl, rfl⟩
    exact fun old hin hkey => hold ⟨old, hin, hkey⟩

/-- Storing an edge stamps the row of its triple; a new row is implicit, an old one keeps its kind. -/
theorem mem_storeEdge {source : Text} {rid : Option Uuid} {targetRef : Text} {relationType : String} {target : Endpoint}
    (ht : resolveTarget c c.vaultName targetRef = some target) (hne : source ≠ target.uri) {e : Edge} :
    e ∈ (storeEdge c edges source rid targetRef relationType).2 ↔
      (∃ old ∈ edges, old.key = (source, target.uri, relationType) ∧ e = old.stamped rid target.resourceId) ∨
      ((∀ old ∈ edges, old.key ≠ (source, target.uri, relationType)) ∧
        e = ⟨c.vaultId, source, target.uri, relationType, .doc, target.type, "\x7b\x7d", none, .implicit, rid,
          target.resourceId⟩) ∨
      (e ∈ edges ∧ e.key ≠ (source, target.uri, relationType)) := by
  simp only [storeEdge, ht, if_neg hne]
  exact Table.mem_insertOr fun old => Edge.key_stamped old rid target.resourceId

theorem storeEdge_unresolved {source : Text} {rid : Option Uuid} {targetRef : Text} {relationType : String}
    (h : ∀ target, resolveTarget c c.vaultName targetRef = some target → source = target.uri) :
    (storeEdge c edges source rid targetRef relationType).2 = edges := by
  unfold storeEdge
  split
  · rfl
  · rename_i target ht
    rw [if_pos (h target ht)]

end Akb.Graph
