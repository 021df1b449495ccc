import Akb.Native.Ledger
import Akb.Library.Fallible

/-! The ledger's queries and writes, with the constraints the schema puts on them. -/
namespace Akb.Native
open Akb.Library

def findMutation (l : Ledger) (namespaceId mutationId : Uuid) : Option Revision :=
  l.revisions.rows.find? (fun r => r.namespaceId = namespaceId ∧ r.mutationId = mutationId)

/-- Paths are one authority namespace across both surfaces. -/
def findLivePath (l : Ledger) (namespaceId : Uuid) (path : String) : Option Resource :=
  l.resources.rows.find? (fun r => r.namespaceId = namespaceId ∧ r.currentPath = path ∧ r.Live)

def findLiveAlias (l : Ledger) (namespaceId : Uuid) (oldPath : String) : Option PathAlias :=
  l.aliases.rows.find? (fun a => a.namespaceId = namespaceId ∧ a.oldPath = oldPath ∧ a.Live)

/-- The current path wins over an old alias. -/
def resolvePath (l : Ledger) (namespaceId : Uuid) (surface : Surface) (reference : String) : Option Resource :=
  let candidates := l.resources.rows.filter (fun r => r.namespaceId = namespaceId ∧ r.surface = surface ∧ r.Live)
  (candidates.find? (fun r => r.currentPath = reference)).or
    (candidates.find? (fun r => l.aliases.rows.any (fun a => a.namespaceId = r.namespaceId ∧ a.surface = r.surface ∧
      a.resourceId = r.resourceId ∧ a.oldPath = reference ∧ a.Live)))

/-- Resolve one live Resource by id, path or live alias. -/
def resolveLiveReference (parseUuid : String → Option Uuid) (l : Ledger) (namespaceId : Uuid) (surface : Surface)
    (reference : String) : Except NativeError (Option Resource) :=
  let byId := (parseUuid reference).bind (fun id => l.resources.rows.find? (fun r =>
    r.namespaceId = namespaceId ∧ r.surface = surface ∧ r.resourceId = id ∧ r.Live))
  let byPath := resolvePath l namespaceId surface reference
  match byId, byPath with
  | some r, some s => if r.resourceId ≠ s.resourceId then .error (.referenceAmbiguous reference) else .ok (some r)
  | some r, none => .ok (some r)
  | none, found => .ok found

def lockResource (l : Ledger) (resourceId : Uuid) : Option Resource := l.resources.get? resourceId

/-- The partial unique index on live paths. -/
def livePathFree (l : Ledger) (namespaceId resourceId : Uuid) (path : String) : Bool :=
  l.resources.rows.all (fun r =>
    ¬ (r.namespaceId = namespaceId ∧ r.currentPath = path ∧ r.Live ∧ r.resourceId ≠ resourceId))

def insertResource (l : Ledger) (row : Resource) : Except NativeError Ledger :=
  match l.resources.insert? row with
  | none => .error (.uniqueViolation "native_resources_pkey")
  | some resources =>
    if livePathFree l row.namespaceId row.resourceId row.currentPath then .ok { l with resources := resources }
    else .error (.uniqueViolation "uq_native_resources_live_path")

def insertManifest (l : Ledger) (row : Manifest) : Except NativeError Ledger :=
  match l.manifests.insert? row with
  | none => .error (.uniqueViolation "native_payload_manifests_pkey")
  | some manifests => .ok { l with manifests := manifests }

/-- Pin the same verified payload facts in a new immutable manifest. -/
def copyManifest (l : Ledger) (sourceManifestId payloadManifestId resourceId : Uuid) (occurredAt : Int) :
    Except NativeError Ledger :=
  match l.manifests.get? sourceManifestId with
  | none => .error (.missingManifest sourceManifestId)
  | some source => insertManifest l { source with
      payloadManifestId := payloadManifestId, resourceId := resourceId, createdAt := occurredAt }

/-- `native_revisions_action_shape`. -/
def Revision.actionShape (r : Revision) : Bool :=
  match r.action with
  | .create => r.parentRevisionId.isNone && r.payloadManifestId.isSome && r.pathFrom.isNone &&
      decide (r.pathTo = some r.pathAtRevision)
  | .replace => r.parentRevisionId.isSome && r.payloadManifestId.isSome && r.pathFrom.isNone && r.pathTo.isNone
  | .move => r.parentRevisionId.isSome && r.payloadManifestId.isSome && r.pathFrom.isSome &&
      decide (r.pathTo = some r.pathAtRevision) && decide (r.pathFrom ≠ r.pathTo)
  | .delete => r.parentRevisionId.isSome && r.payloadManifestId.isNone && r.pathFrom.isNone && r.pathTo.isNone

def insertRevision (l : Ledger) (row : Revision) : Except NativeError Ledger :=
  if !row.actionShape then .error (.checkViolation "native_revisions_action_shape")
  else
    match l.revisions.insert? row with
    | none => .error .revisionIdCollision
    | some revisions =>
      if l.revisions.rows.any (fun r => r.namespaceId = row.namespaceId ∧ r.mutationId = row.mutationId) then
        .error (.uniqueViolation "native_revisions_namespace_mutation_key")
      else if row.payloadManifestId.isSome ∧
          l.revisions.rows.any (fun r => r.payloadManifestId = row.payloadManifestId) then
        .error (.uniqueViolation "native_revisions_manifest_key")
      else .ok { l with revisions := revisions }

def setHead (l : Ledger) (resource : Resource) (revisionId : RevisionId) (path : String) (lifecycle : Lifecycle)
    (occurredAt : Int) : Except NativeError Ledger :=
  if lifecycle = .live ∧ !livePathFree l resource.namespaceId resource.resourceId path then
    .error (.uniqueViolation "uq_native_resources_live_path")
  else .ok { l with
    resources := l.resources.updateWhere (fun r => r.resourceId = resource.resourceId)
      (fun r => { r with
        headRevisionId := some revisionId, currentPath := path, lifecycle := lifecycle, updatedAt := occurredAt })
      (fun _ => rfl) }

def insertPathAlias (l : Ledger) (row : PathAlias) : Except NativeError Ledger :=
  match l.aliases.insert? row with
  | none => .error (.uniqueViolation "native_resource_path_aliases_pkey")
  | some aliases =>
    if (findLiveAlias l row.namespaceId row.oldPath).isSome then
      .error (.uniqueViolation "uq_native_resource_path_aliases_live")
    else .ok { l with aliases := aliases }

def retireAliases (l : Ledger) (selected : PathAlias → Bool) (revisionId : RevisionId) (occurredAt : Int) : Ledger :=
  { l with
    aliases := l.aliases.updateWhere (fun a => selected a && decide a.Live)
      (fun a => { a with retiredRevisionId := some revisionId, retiredAt := some occurredAt }) (fun _ => rfl) }

def retireLiveAlias (l : Ledger) (namespaceId : Uuid) (oldPath : String) (revisionId : RevisionId)
    (occurredAt : Int) : Ledger :=
  retireAliases l (fun a => a.namespaceId = namespaceId ∧ a.oldPath = oldPath) revisionId occurredAt

def retireResourceAliases (l : Ledger) (namespaceId : Uuid) (surface : Surface) (resourceId : Uuid)
    (revisionId : RevisionId) (occurredAt : Int) : Ledger :=
  retireAliases l (fun a => a.namespaceId = namespaceId ∧ a.surface = surface ∧ a.resourceId = resourceId)
    revisionId occurredAt

/-- The manifest behind the head Revision of a Resource. -/
def headManifest (l : Ledger) (resourceId : Uuid) : Option Manifest := do
  let resource ← l.resources.get? resourceId
  let head ← resource.headRevisionId
  let revision ← l.revisions.rows.find? (fun r => r.resourceId = resourceId ∧ r.revisionId = head)
  let manifestId ← revision.payloadManifestId
  l.manifests.get? manifestId

/-- The recursive walk of `list_history`, as long as `distance + 1 < limit`. -/
def lineageFrom (l : Ledger) (resourceId : Uuid) (row : Revision) : Nat → List Revision
  | 0 => [row]
  | steps + 1 =>
    match row.parentRevisionId.bind l.revisions.get? with
    | some parent => if parent.resourceId = resourceId then row :: lineageFrom l resourceId parent steps else [row]
    | none => [row]

/-- The head's lineage, newest first. -/
def listHistory (l : Ledger) (resourceId : Uuid) (limit : Int) : List Revision :=
  match (l.resources.get? resourceId).bind (fun r => r.headRevisionId.bind l.revisions.get?) with
  | some head => if head.resourceId = resourceId then lineageFrom l resourceId head (limit - 1).toNat else []
  | none => []

/-! ### What a successful write did -/

theorem findMutation_eq_some {l : Ledger} {namespaceId mutationId : Uuid} {r : Revision}
    (h : findMutation l namespaceId mutationId = some r) :
    r ∈ l.revisions ∧ r.namespaceId = namespaceId ∧ r.mutationId = mutationId := by
  refine ⟨List.mem_of_find?_eq_some h, ?_⟩
  simpa using List.find?_some h

theorem findMutation_eq_none {l : Ledger} {namespaceId mutationId : Uuid} :
    findMutation l namespaceId mutationId = none ↔
      ∀ r ∈ l.revisions, ¬ (r.namespaceId = namespaceId ∧ r.mutationId = mutationId) := by
  simp [findMutation, Table.mem_def]

theorem findLivePath_eq_none {l : Ledger} {namespaceId : Uuid} {path : String}
    (h : findLivePath l namespaceId path = none) {r : Resource} (hr : r ∈ l.resources) (hl : r.Live)
    (hn : r.namespaceId = namespaceId) : r.currentPath ≠ path := by
  have hall := List.find?_eq_none.mp h r hr
  intro hp
  simp [hn, hp, hl] at hall

theorem findLiveAlias_eq_none {l : Ledger} {namespaceId : Uuid} {oldPath : String}
    (h : findLiveAlias l namespaceId oldPath = none) {a : PathAlias} (ha : a ∈ l.aliases) (hl : a.Live)
    (hn : a.namespaceId = namespaceId) : a.oldPath ≠ oldPath := by
  have hall := List.find?_eq_none.mp h a ha
  intro hp
  simp [hn, hp, hl] at hall

theorem findLiveAlias_eq_some {l : Ledger} {namespaceId : Uuid} {oldPath : String} {a : PathAlias}
    (h : findLiveAlias l namespaceId oldPath = some a) :
    a ∈ l.aliases ∧ a.namespaceId = namespaceId ∧ a.oldPath = oldPath ∧ a.Live := by
  refine ⟨List.mem_of_find?_eq_some h, ?_⟩
  simpa using List.find?_some h

theorem resolvePath_eq_some {l : Ledger} {namespaceId : Uuid} {surface : Surface} {reference : String} {r : Resource}
    (h : resolvePath l namespaceId surface reference = some r) :
    r ∈ l.resources ∧ r.namespaceId = namespaceId ∧ r.surface = surface ∧ r.Live := by
  have hm : r ∈ l.resources.rows.filter (fun r => r.namespaceId = namespaceId ∧ r.surface = surface ∧ r.Live) := by
    rcases Option.or_eq_some_iff.mp h with h | ⟨_, h⟩
    · exact List.mem_of_find?_eq_some h
    · exact List.mem_of_find?_eq_some h
  simpa [Table.mem_def] using hm

/-- A resolved reference is a live Resource of the asked namespace and surface. -/
theorem resolveLiveReference_eq_some {parseUuid : String → Option Uuid} {l : Ledger} {namespaceId : Uuid}
    {surface : Surface} {reference : String} {r : Resource}
    (h : resolveLiveReference parseUuid l namespaceId surface reference = .ok (some r)) :
    r ∈ l.resources ∧ r.namespaceId = namespaceId ∧ r.surface = surface ∧ r.Live := by
  have hid {s : Resource} (hs : (parseUuid reference).bind (fun id => l.resources.rows.find? (fun r =>
      r.namespaceId = namespaceId ∧ r.surface = surface ∧ r.resourceId = id ∧ r.Live)) = some s) :
      s ∈ l.resources ∧ s.namespaceId = namespaceId ∧ s.surface = surface ∧ s.Live := by
    obtain ⟨id, _, hf⟩ := Option.bind_eq_some_iff.mp hs
    have hp := List.find?_some hf
    simp only [decide_eq_true_eq] at hp
    exact ⟨List.mem_of_find?_eq_some hf, hp.1, hp.2.1, hp.2.2.2⟩
  simp only [resolveLiveReference] at h
  split at h
  · rename_i s p hs hp
    split at h
    · cases h
    · cases h
      exact hid hs
  · rename_i s hs hp
    cases h
    exact hid hs
  · exact resolvePath_eq_some (Except.ok.inj h)

theorem insertResource_ok {l l' : Ledger} {row : Resource} (h : insertResource l row = .ok l') :
    (∀ r ∈ l.resources, r.resourceId ≠ row.resourceId) ∧
      ∃ resources, l' = { l with resources := resources } ∧ ∀ r, r ∈ resources ↔ r = row ∨ r ∈ l.resources := by
  unfold insertResource at h
  split at h
  · cases h
  · rename_i resources hi
    split at h
    · cases h
      obtain ⟨hnew, hmem⟩ := Table.insert?_eq_some hi
      exact ⟨hnew, resources, rfl, hmem⟩
    · cases h

/-- Only the manifests of a ledger grew. -/
structure AddsManifest (l l' : Ledger) (row : Manifest) : Prop where
  resources : l'.resources = l.resources
  revisions : l'.revisions = l.revisions
  aliases : l'.aliases = l.aliases
  manifests : ∀ m, m ∈ l'.manifests ↔ m = row ∨ m ∈ l.manifests

theorem insertManifest_ok {l l' : Ledger} {row : Manifest} (h : insertManifest l row = .ok l') :
    AddsManifest l l' row := by
  unfold insertManifest at h
  split at h
  · cases h
  · rename_i manifests hi
    cases h
    exact ⟨rfl, rfl, rfl, (Table.insert?_eq_some hi).2⟩

theorem copyManifest_ok {l l' : Ledger} {sourceManifestId payloadManifestId resourceId : Uuid} {occurredAt : Int}
    (h : copyManifest l sourceManifestId payloadManifestId resourceId occurredAt = .ok l') :
    ∃ row : Manifest, row.payloadManifestId = payloadManifestId ∧ AddsManifest l l' row := by
  unfold copyManifest at h
  split at h
  · cases h
  · exact ⟨_, rfl, insertManifest_ok h⟩

theorem insertRevision_ok {l l' : Ledger} {row : Revision} (h : insertRevision l row = .ok l') :
    row.actionShape ∧ (∀ r ∈ l.revisions, r.revisionId ≠ row.revisionId) ∧
      (∀ r ∈ l.revisions, ¬ (r.namespaceId = row.namespaceId ∧ r.mutationId = row.mutationId)) ∧
      ∃ revisions, l' = { l with revisions := revisions } ∧ ∀ r, r ∈ revisions ↔ r = row ∨ r ∈ l.revisions := by
  unfold insertRevision at h
  split at h
  · cases h
  · rename_i hshape
    split at h
    · cases h
    · rename_i revisions hi
      split at h
      · cases h
      · rename_i hkey
        split at h
        · cases h
        · cases h
          obtain ⟨hnew, hmem⟩ := Table.insert?_eq_some hi
          refine ⟨by simpa using hshape, hnew, ?_, revisions, rfl, hmem⟩
          intro r hr hk
          exact hkey (List.any_eq_true.mpr ⟨r, hr, by simpa using hk⟩)

/-- Moving a head rewrites one row; the live path of another Resource is never taken. -/
theorem setHead_ok {l l' : Ledger} {resource : Resource} {revisionId : RevisionId} {path : String}
    {lifecycle : Lifecycle} {occurredAt : Int} (h : setHead l resource revisionId path lifecycle occurredAt = .ok l') :
    (lifecycle = .live → livePathFree l resource.namespaceId resource.resourceId path) ∧
      ∃ resources, l' = { l with resources := resources } ∧
        ∀ r, r ∈ resources ↔
          (∃ s ∈ l.resources, s.resourceId = resource.resourceId ∧ r = { s with
            headRevisionId := some revisionId, currentPath := path, lifecycle := lifecycle, updatedAt := occurredAt }) ∨
          (r ∈ l.resources ∧ r.resourceId ≠ resource.resourceId) := by
  unfold setHead at h
  split at h
  · cases h
  · rename_i hfree
    cases h
    refine ⟨fun hl => by simpa [hl] using hfree, _, rfl, fun r => ?_⟩
    simp [Table.mem_updateWhere]

theorem insertPathAlias_ok {l l' : Ledger} {row : PathAlias} (h : insertPathAlias l row = .ok l') :
    findLiveAlias l row.namespaceId row.oldPath = none ∧
      ∃ aliases, l' = { l with aliases := aliases } ∧ ∀ a, a ∈ aliases ↔ a = row ∨ a ∈ l.aliases := by
  unfold insertPathAlias at h
  split at h
  · cases h
  · rename_i aliases hi
    split at h
    · cases h
    · rename_i hfree
      cases h
      exact ⟨by simpa using hfree, aliases, rfl, (Table.insert?_eq_some hi).2⟩

/-- Retiring takes the selected rows out of the live ones and leaves the others. -/
theorem live_retireAliases {l : Ledger} {selected : PathAlias → Bool} {revisionId : RevisionId} {occurredAt : Int}
    {a : PathAlias} : (a ∈ (retireAliases l selected revisionId occurredAt).aliases ∧ a.Live) ↔
      a ∈ l.aliases ∧ a.Live ∧ selected a = false := by
  simp only [retireAliases, Table.mem_updateWhere, Bool.and_eq_true, decide_eq_true_eq, Bool.and_eq_false_iff,
    decide_eq_false_iff_not]
  constructor
  · rintro ⟨⟨b, _, _, rfl⟩ | ⟨ha, hs⟩, hl⟩
    · cases hl
    · exact ⟨ha, hl, hs.resolve_right (fun hn => hn hl)⟩
  · rintro ⟨ha, hl, hs⟩
    exact ⟨Or.inr ⟨ha, Or.inl hs⟩, hl⟩

end Akb.Native
