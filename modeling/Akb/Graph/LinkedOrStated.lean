import Akb.Graph.Edges
import Akb.Library.Run

/-! What the graph of a vault should hold: the explicit links not unlinked since, and what the
last version of each document says. The rows are compared with it along every run of links,
unlinks and writes. -/
namespace Akb.Graph
open Akb.Library Akb.Uri

/-- The links in force and the relations extracted from the last version of each source. -/
structure Intent where
  linked : List Triple
  extracted : List Triple
  deriving DecidableEq

namespace Intent

def link (i : Intent) (k : Triple) : Intent := { i with linked := k :: i.linked }

/-- The links that an unlink names. -/
def named (ends : Text × Text) (relationType : Option String) (k : Triple) : Bool :=
  k.1 = ends.1 && k.2.1 = ends.2 && matchesRelation relationType k.2.2

def unlink (i : Intent) (ends : Text × Text) (relationType : Option String) : Intent :=
  { i with linked := i.linked.filter (fun k => !named ends relationType k) }

def write (i : Intent) (source : Text) (relations : List Triple) : Intent :=
  { i with extracted := i.extracted.filter (fun k => !decide (k.1 = source)) ++ relations }

end Intent

/-- The relation that one reference of a version states. -/
def statedRelation (c : Catalog) (source : Text) (reference : Text × String) : Option Triple :=
  match resolveTarget c c.vaultName reference.1 with
  | none => none
  | some target => if source = target.uri then none else some (source, target.uri, reference.2)

def statedRelations (markdown : Markdown) (c : Catalog) (docPath : Text) (version : Version) : List Triple :=
  (version.references markdown).filterMap (statedRelation c (docUri c.vaultName docPath))

/-- A command, with the catalogue it finds. -/
inductive GraphOp where
  | link (c : Catalog) (vaultName sourceUri targetUri : Text) (relationType : String) (createdBy metadata : Option String)
  | unlink (c : Catalog) (sourceUri targetUri : Text) (relationType : Option String)
  | write (c : Catalog) (docPath : Text) (version : Version) (sourceResourceId : Option Uuid)

structure GraphState where
  edges : Edges
  intent : Intent

def emptyGraph : GraphState := ⟨Table.empty, ⟨[], []⟩⟩

def GraphState.step (markdown : Markdown) (s : GraphState) : GraphOp → GraphState
  | .link c vaultName sourceUri targetUri relationType createdBy metadata =>
    match linkResources c s.edges vaultName sourceUri targetUri relationType createdBy metadata with
    | .ok r => ⟨r.1, s.intent.link (r.2.source, r.2.target, r.2.relation)⟩
    | .error _ => s
  | .unlink c sourceUri targetUri relationType =>
    match unlinkResources c s.edges sourceUri targetUri relationType with
    | .ok r => ⟨r.1, s.intent.unlink (r.2.source, r.2.target) relationType⟩
    | .error _ => s
  | .write c docPath version sourceResourceId =>
    ⟨(storeDocumentRelations markdown c s.edges docPath version sourceResourceId).2,
      s.intent.write (docUri c.vaultName docPath) (statedRelations markdown c docPath version)⟩

/-- The rows are the links in force together with the stated relations. -/
def GraphState.Agrees (s : GraphState) : Prop :=
  ∀ k, (∃ e ∈ s.edges, e.key = k) ↔ k ∈ s.intent.linked ∨ k ∈ s.intent.extracted

/-- The links that an accepted unlink takes away are stated by no document. -/
def Intent.Unstated (i : Intent) (relationType : Option String) : Except GraphError (Text × Text) → Prop
  | .ok ends => ∀ k ∈ i.linked, named ends relationType k → k ∉ i.extracted
  | .error _ => True

instance Intent.decidableUnstated (i : Intent) (relationType : Option String) :
    (ends : Except GraphError (Text × Text)) → Decidable (i.Unstated relationType ends)
  | .ok ends => List.decidableBAll (fun k => named ends relationType k → k ∉ i.extracted) i.linked
  | .error _ => .isTrue trivial

/-- No link that the command takes away is also stated by its source. -/
def GraphState.Spares (s : GraphState) : GraphOp → Prop
  | .unlink c sourceUri targetUri relationType => s.intent.Unstated relationType (unlinkEnds c sourceUri targetUri)
  | _ => True

instance GraphState.decidableSpares (s : GraphState) : (op : GraphOp) → Decidable (s.Spares op)
  | .unlink c sourceUri targetUri relationType =>
    s.intent.decidableUnstated relationType (unlinkEnds c sourceUri targetUri)
  | .link _ _ _ _ _ _ _ => .isTrue trivial
  | .write _ _ _ _ => .isTrue trivial

/-- One vault, whose documents stay where they are: the native identity of each path. -/
structure Premises where
  vaultId : Uuid
  vaultName : Text
  owner : Text → Option Uuid
  unshared : ∀ p q r, owner p = some r → owner q = some r → p = q

/-- A catalogue of the vault in which no document lives anywhere but at its place. -/
structure Premises.Holds (w : Premises) (c : Catalog) : Prop where
  vaultId : c.vaultId = w.vaultId
  vaultName : c.vaultName = w.vaultName
  natives : ∀ d ∈ c.natives, w.owner d.currentPath = some d.resourceId

def Premises.Regular (w : Premises) : GraphOp → Prop
  | .link c _ _ _ _ _ _ => w.Holds c
  | .unlink c _ _ _ => w.Holds c
  | .write c docPath _ sourceResourceId => w.Holds c ∧ (sourceResourceId = none ∨ sourceResourceId = w.owner docPath)

/-! ### What the rows always keep -/

variable {w : Premises} {c : Catalog} {edges : Edges} {i : Intent}

structure Kept (w : Premises) (edges : Edges) (i : Intent) : Prop where
  explicit : ∀ k, k ∈ i.linked ↔ ∃ e ∈ edges, e.key = k ∧ e.kind = .explicit
  implicit : ∀ e ∈ edges, e.kind = .implicit → e.key ∈ i.extracted
  stamp : ∀ e ∈ edges, ∀ r, e.sourceResourceId = some r → ∃ path, w.owner path = some r ∧ docUri w.vaultName path = e.sourceUri
  vault : ∀ e ∈ edges, e.vaultId = w.vaultId

/-- Each stated relation has a row. -/
def Complete (edges : Edges) (i : Intent) : Prop := ∀ k ∈ i.extracted, ∃ e ∈ edges, e.key = k

theorem Kept.agrees_iff {s : GraphState} (h : Kept w s.edges s.intent) : s.Agrees ↔ Complete s.edges s.intent := by
  constructor
  · intro hagrees k hk
    exact (hagrees k).mpr (.inr hk)
  · intro hcomplete k
    constructor
    · rintro ⟨e, he, rfl⟩
      cases hkind : e.kind with
      | implicit => exact .inr (h.implicit e he hkind)
      | explicit => exact .inl ((h.explicit e.key).mpr ⟨e, he, rfl, hkind⟩)
    · rintro (hk | hk)
      · obtain ⟨e, he, hkey, -⟩ := (h.explicit k).mp hk
        exact ⟨e, he, hkey⟩
      · exact hcomplete k hk

theorem kept_empty (w : Premises) : Kept w Table.empty ⟨[], []⟩ where
  explicit := by simp
  implicit := by simp
  stamp := by simp
  vault := by simp

theorem Premises.Holds.stamp (h : w.Holds c) {uri : Text} {id : Option Uuid} (hs : c.Stamps uri id) :
    ∀ r, id = some r → ∃ path, w.owner path = some r ∧ docUri w.vaultName path = uri := by
  intro r hr
  obtain ⟨d, hd, rfl, huri⟩ := hs r hr
  exact ⟨d.currentPath, h.natives d hd, h.vaultName ▸ huri⟩

end Akb.Graph

/-! The rows are the links in force and the stated relations, in every state of a run, exactly
when no unlink takes away a link that its source also states. -/
namespace Akb.Graph
open Akb.Library Akb.Uri
variable {w : Premises} {c : Catalog} {edges : Edges} {i : Intent}

/-! ### Links and unlinks -/

theorem Kept.link (h : Kept w edges i) (hc : w.Holds c) {source target : Endpoint} {relation : String}
    {createdBy : Option String} {metadata : String} (hs : c.Stamps source.uri source.resourceId) :
    Kept w (edges.insertOr (explicitEdge c source target relation createdBy metadata)
      (Edge.relinked (explicitEdge c source target relation createdBy metadata)))
      (i.link (source.uri, target.uri, relation)) := by
  have hmem {e : Edge} := @mem_link edges (explicitEdge c source target relation createdBy metadata) e rfl
  refine ⟨fun k => ⟨fun hk => ?_, ?_⟩, fun e he hkind => ?_, fun e he r hr => ?_, fun e he => ?_⟩
  · rcases List.mem_cons.mp hk with rfl | hk
    · obtain ⟨e, he, hkey, hkind, -⟩ := link_row edges (explicitEdge c source target relation createdBy metadata) rfl
      exact ⟨e, he, hkey, hkind⟩
    · obtain ⟨e, he, rfl, hkind⟩ := (h.explicit k).mp hk
      by_cases hkey : e.key = (explicitEdge c source target relation createdBy metadata).key
      · obtain ⟨e', he', hkey', hkind', -⟩ :=
          link_row edges (explicitEdge c source target relation createdBy metadata) rfl
        exact ⟨e', he', hkey'.trans hkey.symm, hkind'⟩
      · exact ⟨e, link_keeps he hkey, rfl, hkind⟩
  · rintro ⟨e, he, rfl, hkind⟩
    rcases hmem he with ⟨he, -⟩ | ⟨hkey, -⟩
    · exact List.mem_cons_of_mem _ ((h.explicit e.key).mpr ⟨e, he, rfl, hkind⟩)
    · rw [hkey]
      exact List.mem_cons_self
  · rcases hmem he with ⟨he, -⟩ | ⟨-, hexplicit, -⟩
    · exact h.implicit e he hkind
    · rw [hkind] at hexplicit
      cases hexplicit
  · rcases hmem he with ⟨he, -⟩ | ⟨hkey, -, hsource, -⟩
    · exact h.stamp e he r hr
    · have hstamp := hc.stamp hs r (hsource.symm.trans hr)
      rwa [show e.sourceUri = source.uri from congrArg Prod.fst hkey]
  · rcases hmem he with ⟨he, -⟩ | ⟨-, -, -, -, hv | ⟨old, hold, hv⟩⟩
    · exact h.vault e he
    · exact hv.trans hc.vaultId
    · exact hv.trans (h.vault old hold)

theorem Complete.link (h : Complete edges i) {new : Edge} (hnew : new.kind = .explicit) :
    Complete (edges.insertOr new (Edge.relinked new)) (i.link new.key) := by
  intro k hk
  obtain ⟨e, he, rfl⟩ := h k hk
  by_cases hkey : e.key = new.key
  · obtain ⟨e', he', hkey', -⟩ := link_row edges new hnew
    exact ⟨e', he', hkey'.trans hkey.symm⟩
  · exact ⟨e, link_keeps he hkey, rfl⟩

theorem named_iff {ends : Text × Text} {relation : Option String} {k : Triple} :
    Intent.named ends relation k = true ↔ (k.1 = ends.1 ∧ k.2.1 = ends.2) ∧ matchesRelation relation k.2.2 = true := by
  simp only [Intent.named, Bool.and_eq_true, decide_eq_true_eq]

theorem mem_unlink {ends : Text × Text} {relation : Option String} {k : Triple} :
    k ∈ (i.unlink ends relation).linked ↔ k ∈ i.linked ∧ Intent.named ends relation k = false := by
  simp only [Intent.unlink, List.mem_filter, Bool.not_eq_true']

theorem mem_write {source : Text} {relations : List Triple} {k : Triple} :
    k ∈ (i.write source relations).extracted ↔ (k ∈ i.extracted ∧ k.1 ≠ source) ∨ k ∈ relations := by
  simp [Intent.write]

/-- An unlink deletes the explicit rows that it names. -/
theorem unlinks_iff (hc : w.Holds c) (h : Kept w edges i) {ends : Text × Text} {relation : Option String} {e : Edge}
    (he : e ∈ edges) :
    unlinks c ends.1 ends.2 relation e = true ↔ e.kind = .explicit ∧ Intent.named ends relation e.key = true := by
  have hv : e.vaultId = c.vaultId := (h.vault e he).trans hc.vaultId.symm
  rw [named_iff]
  simp only [unlinks, hv, Bool.and_eq_true, decide_eq_true_eq]
  constructor
  · rintro ⟨⟨⟨huri, hkind⟩, hrel⟩, -⟩
    exact ⟨hkind, huri, hrel⟩
  · rintro ⟨hkind, huri, hrel⟩
    exact ⟨⟨⟨huri, hkind⟩, hrel⟩, trivial⟩

theorem Kept.unlink (h : Kept w edges i) (hc : w.Holds c) (ends : Text × Text) (relation : Option String) :
    Kept w (edges.deleteWhere (unlinks c ends.1 ends.2 relation)) (i.unlink ends relation) := by
  refine ⟨fun k => ?_, fun e he hkind => ?_, fun e he => ?_, fun e he => ?_⟩
  · simp only [mem_unlink, h.explicit k, Table.mem_deleteWhere]
    constructor
    · rintro ⟨⟨e, he, rfl, hkind⟩, hnamed⟩
      refine ⟨e, ⟨he, Bool.eq_false_iff.mpr fun hdel => ?_⟩, rfl, hkind⟩
      rw [((unlinks_iff hc h he).mp hdel).2] at hnamed
      cases hnamed
    · rintro ⟨e, ⟨he, hdel⟩, rfl, hkind⟩
      refine ⟨⟨e, he, rfl, hkind⟩, Bool.eq_false_iff.mpr fun hnamed => ?_⟩
      rw [(unlinks_iff hc h he).mpr ⟨hkind, hnamed⟩] at hdel
      cases hdel
  · exact h.implicit e (Table.mem_deleteWhere.mp he).1 hkind
  · exact h.stamp e (Table.mem_deleteWhere.mp he).1
  · exact h.vault e (Table.mem_deleteWhere.mp he).1

/-- An unlink leaves a row for each stated relation exactly when it spares the links that are stated. -/
theorem Kept.complete_unlink_iff (h : Kept w edges i) (hc : w.Holds c) (hcomplete : Complete edges i) (ends : Text × Text)
    (relation : Option String) :
    Complete (edges.deleteWhere (unlinks c ends.1 ends.2 relation)) (i.unlink ends relation) ↔
      ∀ k ∈ i.linked, Intent.named ends relation k = true → k ∉ i.extracted := by
  constructor
  · intro hleft k hlinked hnamed hstated
    obtain ⟨e, he, hkey, hkind⟩ := (h.explicit k).mp hlinked
    obtain ⟨e', he', hkey'⟩ := hleft k hstated
    obtain ⟨hin, hdel⟩ := Table.mem_deleteWhere.mp he'
    cases Table.eq_of_key he hin (hkey.trans hkey'.symm)
    rw [(unlinks_iff hc h he).mpr ⟨hkind, hkey ▸ hnamed⟩] at hdel
    cases hdel
  · intro hspares k hstated
    obtain ⟨e, he, rfl⟩ := hcomplete k hstated
    refine ⟨e, Table.mem_deleteWhere.mpr ⟨he, Bool.eq_false_iff.mpr fun hdel => ?_⟩, rfl⟩
    obtain ⟨hkind, hnamed⟩ := (unlinks_iff hc h he).mp hdel
    exact hspares e.key ((h.explicit e.key).mpr ⟨e, he, rfl, hkind⟩) hnamed hstated

/-! ### Writes -/

/-- A rewrite first drops the implicit rows of its source, and no other row. -/
theorem ownedImplicit_iff (hc : w.Holds c) (h : Kept w edges i) {docPath : Text} {rid : Option Uuid}
    (hrid : rid = none ∨ rid = w.owner docPath) {e : Edge} (he : e ∈ edges) :
    ownedImplicit c (docUri c.vaultName docPath) rid e = true ↔
      e.kind = .implicit ∧ e.sourceUri = docUri c.vaultName docPath := by
  have hv : e.vaultId = c.vaultId := (h.vault e he).trans hc.vaultId.symm
  cases rid with
  | none =>
    simp only [ownedImplicit, Bool.and_eq_true, decide_eq_true_eq]
    tauto
  | some r =>
    have howner : w.owner docPath = some r := (hrid.resolve_left (by simp)).symm
    have hsource : e.sourceResourceId = some r ∨ (e.sourceResourceId = none ∧ e.sourceUri = docUri c.vaultName docPath) ↔
        e.sourceUri = docUri c.vaultName docPath := by
      constructor
      · rintro (hr | ⟨-, huri⟩)
        · obtain ⟨path, hpath, huri⟩ := h.stamp e he r hr
          rw [← huri, w.unshared path docPath r hpath howner, hc.vaultName]
        · exact huri
      · intro huri
        cases hid : e.sourceResourceId with
        | none => exact .inr ⟨rfl, huri⟩
        | some r' =>
          obtain ⟨path, hpath, huri'⟩ := h.stamp e he r' hid
          rw [huri, hc.vaultName] at huri'
          rw [docUri_injective w.vaultName huri', howner] at hpath
          exact .inl hpath.symm
    simp only [ownedImplicit, hv, Bool.and_eq_true, Bool.or_eq_true, decide_eq_true_eq]
    tauto

theorem Kept.dropImplicit (h : Kept w edges i) (hc : w.Holds c) {docPath : Text} {rid : Option Uuid}
    (hrid : rid = none ∨ rid = w.owner docPath) :
    Kept w (edges.deleteWhere (ownedImplicit c (docUri c.vaultName docPath) rid)) (i.write (docUri c.vaultName docPath) []) := by
  refine ⟨fun k => ?_, fun e he hkind => ?_, fun e he => ?_, fun e he => ?_⟩
  · refine (h.explicit k).trans ⟨?_, ?_⟩
    · rintro ⟨e, he, rfl, hkind⟩
      refine ⟨e, Table.mem_deleteWhere.mpr ⟨he, Bool.eq_false_iff.mpr fun hdel => ?_⟩, rfl, hkind⟩
      have himplicit := ((ownedImplicit_iff hc h hrid he).mp hdel).1
      rw [hkind] at himplicit
      cases himplicit
    · rintro ⟨e, he, hkey, hkind⟩
      exact ⟨e, (Table.mem_deleteWhere.mp he).1, hkey, hkind⟩
  · obtain ⟨he, hdel⟩ := Table.mem_deleteWhere.mp he
    refine mem_write.mpr (.inl ⟨h.implicit e he hkind, fun huri => ?_⟩)
    rw [(ownedImplicit_iff hc h hrid he).mpr ⟨hkind, huri⟩] at hdel
    cases hdel
  · exact h.stamp e (Table.mem_deleteWhere.mp he).1
  · exact h.vault e (Table.mem_deleteWhere.mp he).1

theorem Complete.dropImplicit (hcomplete : Complete edges i) (hc : w.Holds c) (h : Kept w edges i) {docPath : Text}
    {rid : Option Uuid} (hrid : rid = none ∨ rid = w.owner docPath) :
    Complete (edges.deleteWhere (ownedImplicit c (docUri c.vaultName docPath) rid))
      (i.write (docUri c.vaultName docPath) []) := by
  intro k hk
  obtain ⟨hk, hne⟩ := (mem_write.mp hk).resolve_right List.not_mem_nil
  obtain ⟨e, he, rfl⟩ := hcomplete k hk
  refine ⟨e, Table.mem_deleteWhere.mpr ⟨he, Bool.eq_false_iff.mpr fun hdel => ?_⟩, rfl⟩
  exact hne ((ownedImplicit_iff hc h hrid he).mp hdel).2

section Store
variable {source : Text} {rid : Option Uuid} {targetRef : Text} {relation : String} {target : Endpoint}

/-- Every row stays, up to its stamps. -/
theorem storeEdge_keeps (ht : resolveTarget c c.vaultName targetRef = some target) (hne : source ≠ target.uri) {e : Edge}
    (he : e ∈ edges) :
    ∃ e' ∈ (storeEdge c edges source rid targetRef relation).2, e'.key = e.key ∧ e'.kind = e.kind := by
  by_cases hkey : e.key = (source, target.uri, relation)
  · exact ⟨e.stamped rid target.resourceId, (mem_storeEdge ht hne).mpr (.inl ⟨e, he, hkey, rfl⟩), rfl, rfl⟩
  · exact ⟨e, (mem_storeEdge ht hne).mpr (.inr (.inr ⟨he, hkey⟩)), rfl, rfl⟩

theorem storeEdge_row (ht : resolveTarget c c.vaultName targetRef = some target) (hne : source ≠ target.uri) :
    ∃ e ∈ (storeEdge c edges source rid targetRef relation).2, e.key = (source, target.uri, relation) := by
  by_cases hold : ∃ old ∈ edges, old.key = (source, target.uri, relation)
  · obtain ⟨old, hin, hkey⟩ := hold
    obtain ⟨e, he, hkey', -⟩ := storeEdge_keeps ht hne hin
    exact ⟨e, he, hkey'.trans hkey⟩
  · refine ⟨_, (mem_storeEdge ht hne).mpr (.inr (.inl ⟨?_, rfl⟩)), rfl⟩
    exact fun old hin hkey => hold ⟨old, hin, hkey⟩

/-- Where a row comes from: an old row, perhaps with the stamp of the writer, or a new implicit one. -/
theorem storeEdge_from (ht : resolveTarget c c.vaultName targetRef = some target) (hne : source ≠ target.uri) {e : Edge}
    (he : e ∈ (storeEdge c edges source rid targetRef relation).2) :
    ((∃ old ∈ edges, e.key = old.key ∧ e.kind = old.kind ∧ e.vaultId = old.vaultId ∧
        e.sourceResourceId = old.sourceResourceId) ∨
      (e.sourceUri = source ∧ e.sourceResourceId = rid ∧ (e.vaultId = c.vaultId ∨ ∃ old ∈ edges, e.vaultId = old.vaultId))) ∧
    ((∃ old ∈ edges, e.key = old.key ∧ e.kind = old.kind) ∨
      (e.key = (source, target.uri, relation) ∧ e.kind = .implicit)) := by
  rcases (mem_storeEdge ht hne).mp he with ⟨old, hold, hkey, rfl⟩ | ⟨-, rfl⟩ | ⟨he, -⟩
  · exact ⟨.inr ⟨congrArg Prod.fst hkey, rfl, .inr ⟨old, hold, rfl⟩⟩, .inl ⟨old, hold, rfl, rfl⟩⟩
  · exact ⟨.inr ⟨rfl, rfl, .inl rfl⟩, .inr ⟨rfl, rfl⟩⟩
  · exact ⟨.inl ⟨e, he, rfl, rfl, rfl, rfl⟩, .inl ⟨e, he, rfl, rfl⟩⟩

/-- A reference that resolves to nothing, or to its own document, states nothing. -/
theorem store_nothing (edges : Edges) (rid : Option Uuid) {reference : Text × String}
    (h : ¬ ∃ target, resolveTarget c c.vaultName reference.1 = some target ∧ source ≠ target.uri) :
    (storeEdge c edges source rid reference.1 reference.2).2 = edges ∧ statedRelation c source reference = none := by
  have hself : ∀ target, resolveTarget c c.vaultName reference.1 = some target → source = target.uri :=
    fun target ht => Classical.not_not.mp fun hne => h ⟨target, ht, hne⟩
  refine ⟨storeEdge_unresolved hself, ?_⟩
  unfold statedRelation
  split
  · rfl
  · rename_i target ht
    rw [if_pos (hself target ht)]

end Store

/-- Storing one reference adds the relation it states. -/
theorem Kept.store (h : Kept w edges i) (hc : w.Holds c) {docPath : Text} {rid : Option Uuid}
    (hrid : rid = none ∨ rid = w.owner docPath) (reference : Text × String) :
    Kept w (storeEdge c edges (docUri c.vaultName docPath) rid reference.1 reference.2).2
      ⟨i.linked, i.extracted ++ (statedRelation c (docUri c.vaultName docPath) reference).toList⟩ := by
  by_cases hstored : ∃ target, resolveTarget c c.vaultName reference.1 = some target ∧ docUri c.vaultName docPath ≠ target.uri
  · obtain ⟨target, ht, hne⟩ := hstored
    simp only [statedRelation, ht, if_neg hne, Option.toList_some]
    refine ⟨fun k => (h.explicit k).trans ⟨?_, ?_⟩, fun e he hkind => ?_, fun e he r hr => ?_, fun e he => ?_⟩
    · rintro ⟨e, he, rfl, hkind⟩
      obtain ⟨e', he', hkey, hkind'⟩ := storeEdge_keeps ht hne he
      exact ⟨e', he', hkey, hkind'.trans hkind⟩
    · rintro ⟨e, he, rfl, hkind⟩
      rcases (storeEdge_from ht hne he).2 with ⟨old, hold, hkey, hkind'⟩ | ⟨-, himplicit⟩
      · exact ⟨old, hold, hkey.symm, hkind'.symm.trans hkind⟩
      · rw [hkind] at himplicit
        cases himplicit
    · rcases (storeEdge_from ht hne he).2 with ⟨old, hold, hkey, hkind'⟩ | ⟨hkey, -⟩
      · exact List.mem_append_left _ (hkey ▸ h.implicit old hold (hkind'.symm.trans hkind))
      · exact List.mem_append_right _ (List.mem_singleton.mpr hkey)
    · rcases (storeEdge_from ht hne he).1 with ⟨old, hold, hkey, -, -, hsource⟩ | ⟨huri, hsource, -⟩
      · obtain ⟨path, hpath, huri⟩ := h.stamp old hold r (hsource.symm.trans hr)
        exact ⟨path, hpath, huri.trans (congrArg Prod.fst hkey).symm⟩
      · have howner : rid = w.owner docPath := hrid.resolve_left (by rw [← hsource, hr]; simp)
        exact ⟨docPath, by rw [← howner, ← hsource, hr], by rw [huri, hc.vaultName]⟩
    · rcases (storeEdge_from ht hne he).1 with ⟨old, hold, -, -, hv, -⟩ | ⟨-, -, hv | ⟨old, hold, hv⟩⟩
      · exact hv.trans (h.vault old hold)
      · exact hv.trans hc.vaultId
      · exact hv.trans (h.vault old hold)
  · obtain ⟨hsame, hnone⟩ := store_nothing edges rid hstored
    rw [hsame, hnone, Option.toList_none, List.append_nil]
    exact h

theorem Complete.store (h : Complete edges i) (source : Text) (rid : Option Uuid) (reference : Text × String) :
    Complete (storeEdge c edges source rid reference.1 reference.2).2
      ⟨i.linked, i.extracted ++ (statedRelation c source reference).toList⟩ := by
  by_cases hstored : ∃ target, resolveTarget c c.vaultName reference.1 = some target ∧ source ≠ target.uri
  · obtain ⟨target, ht, hne⟩ := hstored
    simp only [statedRelation, ht, if_neg hne, Option.toList_some]
    intro k hk
    rcases List.mem_append.mp hk with hk | hk
    · obtain ⟨e, he, rfl⟩ := h k hk
      obtain ⟨e', he', hkey, -⟩ := storeEdge_keeps ht hne he
      exact ⟨e', he', hkey⟩
    · rw [List.mem_singleton.mp hk]
      exact storeEdge_row ht hne
  · obtain ⟨hsame, hnone⟩ := store_nothing edges rid hstored
    rw [hsame, hnone, Option.toList_none, List.append_nil]
    exact h

theorem filterMap_cons_toList {α β : Type} (f : α → Option β) (a : α) (l : List α) :
    (a :: l).filterMap f = (f a).toList ++ l.filterMap f := by
  cases h : f a <;> simp [h]

/-- Storing the references of a version adds the relations they state. -/
theorem Kept.storeAll (hc : w.Holds c) {docPath : Text} {rid : Option Uuid} (hrid : rid = none ∨ rid = w.owner docPath)
    (references : List (Text × String)) (h : Kept w edges i) (count : Nat) :
    Kept w (storeReferences c (docUri c.vaultName docPath) rid count edges references).2
      ⟨i.linked, i.extracted ++ references.filterMap (statedRelation c (docUri c.vaultName docPath))⟩ := by
  induction references generalizing edges i count with
  | nil =>
    rw [List.filterMap_nil, List.append_nil]
    exact h
  | cons reference rest ih =>
    rw [filterMap_cons_toList, ← List.append_assoc]
    exact ih (h.store hc hrid reference) _

theorem Complete.storeAll (source : Text) (rid : Option Uuid) (references : List (Text × String)) (h : Complete edges i)
    (count : Nat) :
    Complete (storeReferences c source rid count edges references).2
      ⟨i.linked, i.extracted ++ references.filterMap (statedRelation c source)⟩ := by
  induction references generalizing edges i count with
  | nil =>
    rw [List.filterMap_nil, List.append_nil]
    exact h
  | cons reference rest ih =>
    rw [filterMap_cons_toList, ← List.append_assoc]
    exact ih (h.store source rid reference) _

/-! ### Commands and runs -/

variable {markdown : Markdown} {s : GraphState} {op : GraphOp}

theorem Kept.step (h : Kept w s.edges s.intent) (hop : w.Regular op) :
    Kept w (s.step markdown op).edges (s.step markdown op).intent := by
  cases op with
  | link c vaultName sourceUri targetUri relation createdBy metadata =>
    simp only [GraphState.step]
    split
    · rename_i r hr
      obtain ⟨ends, hends, hreply, hedges⟩ := linkResources_ok hr
      obtain ⟨-, hs, -⟩ := linkEnds_ok hends
      simp only [hreply, hedges]
      exact h.link hop hs.stamps
    · exact h
  | unlink c sourceUri targetUri relation =>
    simp only [GraphState.step]
    split
    · rename_i r hr
      obtain ⟨ends, -, hreply, hedges⟩ := unlinkResources_ok hr
      simp only [hreply, hedges]
      exact h.unlink hop ends relation
    · exact h
  | write c docPath version rid =>
    obtain ⟨hc, hrid⟩ := hop
    have hall := (h.dropImplicit hc hrid).storeAll hc hrid (version.references markdown) 0
    simp only [Intent.write, List.append_nil] at hall
    exact hall

/-- A step leaves a row for each stated relation exactly when it spares the stated links. -/
theorem Kept.complete_step_iff (h : Kept w s.edges s.intent) (hop : w.Regular op) (hcomplete : Complete s.edges s.intent) :
    Complete (s.step markdown op).edges (s.step markdown op).intent ↔ s.Spares op := by
  cases op with
  | link c vaultName sourceUri targetUri relation createdBy metadata =>
    refine iff_of_true ?_ trivial
    simp only [GraphState.step]
    split
    · rename_i r hr
      obtain ⟨ends, -, hreply, hedges⟩ := linkResources_ok hr
      simp only [hreply, hedges]
      exact hcomplete.link rfl
    · exact hcomplete
  | unlink c sourceUri targetUri relation =>
    simp only [GraphState.step, GraphState.Spares, unlinkResources]
    cases hends : unlinkEnds c sourceUri targetUri with
    | error e => exact iff_of_true hcomplete trivial
    | ok ends => exact h.complete_unlink_iff hop hcomplete ends relation
  | write c docPath version rid =>
    obtain ⟨hc, hrid⟩ := hop
    refine iff_of_true ?_ trivial
    have hall := (hcomplete.dropImplicit hc h hrid).storeAll (c := c) (docUri c.vaultName docPath) rid
      (version.references markdown) 0
    simp only [Intent.write, List.append_nil] at hall
    exact hall

/-- In every state of a run the rows are the links in force and the stated relations, exactly when
each unlink of the run leaves alone the links that their sources also state. -/
theorem edges_are_links_iff (markdown : Markdown) (w : Premises) (ops : List GraphOp) (hops : ∀ op ∈ ops, w.Regular op) :
    (∀ pre, pre <+: ops → (pre.foldl (GraphState.step markdown) emptyGraph).Agrees) ↔
      Meets (GraphState.step markdown) GraphState.Spares emptyGraph ops := by
  have hkept : ∀ pre, pre <+: ops → Kept w (pre.foldl (GraphState.step markdown) emptyGraph).edges
      (pre.foldl (GraphState.step markdown) emptyGraph).intent := by
    intro pre hpre
    have hpremises : ∀ op ∈ pre, w.Regular op := fun op hop => hops op (hpre.subset hop)
    clear hpre
    induction pre using List.reverseRecOn with
    | nil => exact kept_empty w
    | append_singleton pre op ih =>
      rw [List.foldl_append]
      exact (ih fun op hop => hpremises op (List.mem_append_left _ hop)).step
        (hpremises op (List.mem_append_right _ List.mem_cons_self))
  refine Iff.trans ?_ (prefixes_iff_meets w.Regular (fun s => Kept w s.edges s.intent)
    (fun s => Complete s.edges s.intent) (fun s op hop hs => hs.step hop)
    (fun s op hop hs hc => hs.complete_step_iff hop hc) hops (kept_empty w) (by rintro k ⟨⟩))
  exact forall_congr' fun pre => imp_congr_right fun hpre => (hkept pre hpre).agrees_iff

/-! ### Two runs -/

def sampleA : Text := "akb://v/doc/a.md".toList

def sampleB : Text := "akb://v/doc/b.md".toList

/-- Two native documents at the root of a vault. -/
def sampleCatalog : Catalog where
  vaultId := 7
  vaultName := ['v']
  documents := []
  nativeAuthoritative := true
  natives := [⟨1, "a.md".toList⟩, ⟨2, "b.md".toList⟩]
  tables := []
  files := []

def samplePremises : Premises where
  vaultId := 7
  vaultName := ['v']
  owner := fun path => if path = "a.md".toList then some 1 else if path = "b.md".toList then some 2 else none
  unshared := by
    intro p q r hp hq
    have hne : (1 : Uuid) ≠ 2 := by decide
    split at hp <;> split at hq <;> grind

theorem sampleCatalog_holds : samplePremises.Holds sampleCatalog where
  vaultId := rfl
  vaultName := rfl
  natives := by decide

/-- The document is written with a relation, linked under it and rewritten without it. -/
def sampleRun : List GraphOp :=
  [.write sampleCatalog "a.md".toList ⟨["b.md".toList], [], [], []⟩ (some 1),
    .link sampleCatalog ['v'] sampleA sampleB "depends_on" none none,
    .write sampleCatalog "a.md".toList ⟨[], [], [], []⟩ (some 1),
    .unlink sampleCatalog sampleA sampleB none]

theorem sampleRun_agrees : (sampleRun.foldl (GraphState.step fun _ => []) emptyGraph).Agrees := by
  refine (edges_are_links_iff (fun _ => []) samplePremises sampleRun ?_).mpr (by decide) sampleRun List.prefix_rfl
  simp only [sampleRun, List.forall_mem_cons]
  exact ⟨⟨sampleCatalog_holds, .inr rfl⟩, sampleCatalog_holds, ⟨sampleCatalog_holds, .inr rfl⟩, sampleCatalog_holds,
    fun _ h => absurd h List.not_mem_nil⟩

/-- Without the rewrite the unlink takes the row away although the document still states the relation. -/
theorem unlink_loses_stated_relation : ∃ ops : List GraphOp, (∀ op ∈ ops, samplePremises.Regular op) ∧
    ¬ (ops.foldl (GraphState.step fun _ => []) emptyGraph).Agrees := by
  refine ⟨[.write sampleCatalog "a.md".toList ⟨["b.md".toList], [], [], []⟩ (some 1),
    .link sampleCatalog ['v'] sampleA sampleB "depends_on" none none, .unlink sampleCatalog sampleA sampleB none], ?_, ?_⟩
  · simp only [List.forall_mem_cons]
    exact ⟨⟨sampleCatalog_holds, .inr rfl⟩, sampleCatalog_holds, sampleCatalog_holds, fun _ h => absurd h List.not_mem_nil⟩
  · intro hagrees
    obtain ⟨e, he, -⟩ := (hagrees (sampleA, sampleB, "depends_on")).mpr (.inr (by decide))
    have hrows : ([.write sampleCatalog "a.md".toList ⟨["b.md".toList], [], [], []⟩ (some 1),
        .link sampleCatalog ['v'] sampleA sampleB "depends_on" none none,
        .unlink sampleCatalog sampleA sampleB none].foldl (GraphState.step fun _ => []) emptyGraph).edges.rows = [] := by
      decide
    rw [Table.mem_def, hrows] at he
    exact absurd he List.not_mem_nil

end Akb.Graph
