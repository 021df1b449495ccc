import Akb.FileProjection.Runs
import Akb.Native.History

/-! What the worker reads of a Resource, before and after a native mutation. -/
namespace Akb.FileProjection
open Akb.Library Akb.Native

theorem resourceRow_eq_some {l : Ledger} {id : Uuid} {row : ResourceRow} : resourceRow l id = some row ↔
    ∃ r ∈ l.resources, r.resourceId = id ∧ row = ⟨r.namespaceId, r.surface, r.lifecycle, r.currentPath,
      r.headRevisionId, (headManifest l id).map Manifest.digest⟩ := by
  rw [resourceRow, Option.map_eq_some_iff]
  constructor
  · rintro ⟨r, hget, rfl⟩
    exact ⟨r, (Table.mem_of_get? hget).1, (Table.mem_of_get? hget).2, rfl⟩
  · rintro ⟨r, hr, hid, rfl⟩
    exact ⟨r, Table.get?_eq_some.mpr ⟨hr, hid⟩, rfl⟩

theorem resourceRow_eq_none {l : Ledger} {id : Uuid} : resourceRow l id = none ↔ ∀ r ∈ l.resources, r.resourceId ≠ id := by
  rw [resourceRow, Option.map_eq_none_iff, Table.get?_eq_none]

/-- The head of a Resource is a recorded Revision. -/
theorem recorded_head {l : Ledger} (hl : HistoryInvariant l) {id : Uuid} {row : ResourceRow}
    (h : resourceRow l id = some row) : ∃ head ∈ l.revisions, row.headRevisionId = some head.revisionId := by
  obtain ⟨r, hr, -, rfl⟩ := resourceRow_eq_some.mp h
  obtain ⟨head, chain, hchain⟩ := hl.chains r hr
  exact ⟨head, ((hchain.complete head).mp hchain.walk.start_mem).1, hchain.head_id⟩

section Step
variable {l l' : Ledger} {resource : Resource} {rev : Revision}

/-- A Resource that is not the published one reads as before. -/
theorem resourceRow_other (hl : HistoryInvariant l) (hext : Extends l l' resource rev) {id : Uuid}
    (hid : id ≠ resource.resourceId) : resourceRow l' id = resourceRow l id := by
  have hget : l'.resources.get? id = l.resources.get? id := by
    apply Option.ext
    intro r
    rw [Table.get?_eq_some, Table.get?_eq_some, hext.resources]
    constructor
    · rintro ⟨rfl | ⟨hr, -⟩, hk⟩
      · exact absurd hk.symm hid
      · exact ⟨hr, hk⟩
    · rintro ⟨hr, hk⟩
      exact ⟨.inr ⟨hr, hk ▸ hid⟩, hk⟩
  rw [resourceRow, resourceRow, hget]
  cases hr : l.resources.get? id with
  | none => rfl
  | some r =>
    obtain ⟨hmem, rfl⟩ := Table.mem_of_get? hr
    obtain ⟨head, chain, hchain⟩ := hl.chains r hmem
    obtain ⟨hrev, hresource⟩ := (hchain.complete head).mp hchain.walk.start_mem
    have hmem' : r ∈ l'.resources := (hext.resources r).mpr (.inr ⟨hmem, hid⟩)
    have hman : head.payloadManifestId.bind l'.manifests.get? = head.payloadManifestId.bind l.manifests.get? := by
      by_cases hlive : r.Live
      · obtain ⟨m, hm, hpay⟩ := hchain.pinned hlive
        rw [hpay, Option.bind_some, Option.bind_some, Table.get?_eq_some.mpr ⟨hm, rfl⟩,
          Table.get?_eq_some.mpr ⟨hext.manifests m hm, rfl⟩]
      · -- A tombstone pins no payload.
        have hdeleted : r.lifecycle = .deleted := by
          cases hc : r.lifecycle with
          | live => exact absurd hc hlive
          | deleted => rfl
        have hshape := hl.shaped head hrev
        rw [Revision.actionShape, hchain.deleted_iff.mpr hdeleted] at hshape
        have hnone : head.payloadManifestId = none := by
          cases hp : head.payloadManifestId with
          | none => rfl
          | some m => simp [hp] at hshape
        rw [hnone, Option.bind_none, Option.bind_none]
    rw [Option.map_some, Option.map_some, headManifest_eq hmem hchain.head_id hrev hresource,
      headManifest_eq hmem' hchain.head_id ((hext.revisions head).mpr (.inr hrev)) hresource, hman]

/-- The published Resource reads as its new Revision says. -/
theorem resourceRow_published (hext : Extends l l' resource rev) {res : NativeMutationResult} {id : Uuid}
    {action : Native.Action} {path : String} {digest : Option String} (hres : res = fromRow rev false)
    (h : Leaves l' res id action path digest) :
    resourceRow l' id = some ⟨resource.namespaceId, resource.surface, resource.lifecycle, path, some rev.revisionId, digest⟩ ∧
      resource.resourceId = id ∧ (action = .delete ↔ resource.lifecycle = .deleted) := by
  subst hres
  obtain ⟨hid, haction, hpath, hdigest⟩ := h
  have hown : resource.resourceId = id := hext.same_resource.symm.trans hid
  have hmem : resource ∈ l'.resources := (hext.resources _).mpr (.inl rfl)
  have hrev : rev ∈ l'.revisions := (hext.revisions _).mpr (.inl rfl)
  refine ⟨resourceRow_eq_some.mpr ⟨resource, hmem, hown, ?_⟩, hown, ?_⟩
  · rw [← hown, headManifest_eq hmem hext.head hrev hext.same_resource, hext.head, ← hext.path, ← hdigest,
      show rev.pathAtRevision = path from hpath]
    rfl
  · rw [← haction]
    exact hext.lifecycle

end Step

/-- A native mutation of a File was committed under the mutation id `mutationId`. -/
structure Commits (l l' : Ledger) (fileId mutationId : Uuid) (now : ResourceRow) : Prop where
  frame : ∀ id, id ≠ fileId → resourceRow l' id = resourceRow l id
  row : resourceRow l' fileId = some now
  revision : ∃ rev, rev.mutationId = mutationId ∧ now.headRevisionId = some rev.revisionId ∧
    (∀ r ∈ l.revisions, r.revisionId ≠ rev.revisionId) ∧ ∀ r, r ∈ l'.revisions ↔ r = rev ∨ r ∈ l.revisions
  history : HistoryInvariant l'

theorem commits_of_leaves {l l' : Ledger} (hl : HistoryInvariant l) {r : Request} {fp : String}
    {res : NativeMutationResult} (h : Published l l' r fp res) {id : Uuid} {action : Native.Action} {path : String}
    {digest : Option String} (hleaves : Leaves l' res id action path digest) :
    ∃ now, Commits l l' id r.mutationId now ∧ now.currentPath = path ∧ now.digest = digest ∧
      (action = .delete ↔ now.lifecycle = .deleted) := by
  obtain ⟨-, resource, rev, hext, -, -, hmutation, -, hres⟩ := h
  obtain ⟨hrow, hown, hdeleted⟩ := resourceRow_published hext hres hleaves
  refine ⟨_, ⟨fun other hne => resourceRow_other hl hext (hown ▸ hne), hrow,
    ⟨rev, hmutation, rfl, hext.fresh, hext.revisions⟩, history_step hl hext⟩, rfl, rfl, hdeleted⟩

end Akb.FileProjection

/-! What the native calls of a worker do to the Resource of its File. -/
namespace Akb.FileProjection
open Akb.Library Akb.Native

def Phase.stage : Phase → Option Stage
  | .create .. => some .create
  | .restore .. => some .restore
  | .move .. => some .move
  | .replace .. => some .replace
  | .delete .. => some .delete
  | _ => none

/-- The Resource as the worker read it before its native call. -/
def Phase.resource : Phase → Option ResourceRow
  | .restore _ _ r => some r
  | .move _ _ r => some r
  | .replace _ _ r => some r
  | .delete r => some r
  | _ => none

/-- What a native call in this phase makes of the Resource, when it is not a replay. -/
inductive Effect (intent : OutboxRow) (old : Option ResourceRow) (now : ResourceRow) : Phase → Prop where
  | create {source : Source} {payload : ByteArray} (absent : old = none) (live : now.lifecycle = .live)
      (path : now.currentPath = intent.logicalPath) (digest : now.digest = some source.contentHash) :
      Effect intent old now (.create source payload)
  | restore {source : Source} {payload : ByteArray} {r o : ResourceRow} (found : old = some o)
      (head : o.headRevisionId = r.headRevisionId) (deleted : o.lifecycle = .deleted) (live : now.lifecycle = .live)
      (digest : now.digest = some source.contentHash) : Effect intent old now (.restore source payload r)
  | move {source : Source} {payload : ByteArray} {r o : ResourceRow} (found : old = some o)
      (head : o.headRevisionId = r.headRevisionId) (wasLive : o.lifecycle = .live) (live : now.lifecycle = .live)
      (path : now.currentPath = intent.logicalPath) (digest : now.digest = o.digest) :
      Effect intent old now (.move source payload r)
  | replace {source : Source} {payload : ByteArray} {r o : ResourceRow} (found : old = some o)
      (head : o.headRevisionId = r.headRevisionId) (wasLive : o.lifecycle = .live) (live : now.lifecycle = .live)
      (path : now.currentPath = o.currentPath) (digest : now.digest = some source.contentHash) :
      Effect intent old now (.replace source payload r)
  | delete {r o : ResourceRow} (found : old = some o) (head : o.headRevisionId = r.headRevisionId)
      (wasLive : o.lifecycle = .live) (deleted : now.lifecycle = .deleted) : Effect intent old now (.delete r)

theorem prepareText_expected {rt : Runtime} {payloadId : Uuid} {r : BodyRequest} {prepared : PreparedPayload}
    {digest : String} (hexpected : r.expectedDigest = some digest) (h : prepareText rt payloadId r = .ok prepared) :
    prepared.digest = digest := by
  rw [(prepareText_ok h).1]
  simp only [prepareText, verifiedBytes, bind_eq_ok, refuse_eq_ok, hexpected] at h
  obtain ⟨_, ⟨_, _, _, _, _, _, _, hdigest, _⟩, _⟩ := h
  have hsame : digest = rt.sha256 r.payload.canonical := by simpa using hdigest
  exact hsame.symm

/-- A published mutation was not recorded before. -/
private theorem not_replayed {l l' : Ledger} {r : Request} {fp : String} {res : NativeMutationResult}
    (h : Published l l' r fp res) : ¬ Replayed l l' r fp res := by
  rintro ⟨prior, hprior, -⟩
  rw [h.new] at hprior
  cases hprior

private theorem live_of_action {now : ResourceRow} {action : Native.Action} (hne : action ≠ .delete)
    (h : action = .delete ↔ now.lifecycle = .deleted) : now.lifecycle = .live := by
  cases hc : now.lifecycle with
  | live => rfl
  | deleted => exact absurd (h.mpr hc) hne

private theorem row_of_mem {l : Ledger} {id : Uuid} {x : Resource} (hx : x ∈ l.resources) (hid : x.resourceId = id) :
    resourceRow l id = some ⟨x.namespaceId, x.surface, x.lifecycle, x.currentPath, x.headRevisionId,
      (headManifest l id).map Manifest.digest⟩ :=
  resourceRow_eq_some.mpr ⟨x, hx, hid, rfl⟩

/-- A native call that returns was answered from the record, or had the effect of its phase. -/
theorem nativeCall_effect {env : Env} {l l' : Ledger} (hl : HistoryInvariant l) {x : Worker} {call : NativeCall}
    {after : Phase} {d : Draws} {res : NativeMutationResult} (hcall : x.nativeCall env = some (call, after))
    (hhead : ∀ r, x.phase.resource = some r → ∃ e, r.headRevisionId = some e)
    (hrun : call.run env.native l d = .ok (res, l')) :
    ∃ st, x.phase.stage = some st ∧
      ((l' = l ∧ ∃ prior ∈ l.revisions, prior.mutationId = env.mutationId x.intent.intentId st) ∨
        ∃ now, Commits l l' x.intent.fileId (env.mutationId x.intent.intentId st) now ∧
          Effect x.intent (resourceRow l x.intent.fileId) now x.phase) := by
  obtain ⟨intent, phase⟩ := x
  have hreplay {st : Stage} {r : Request} {fp : String} (hm : r.mutationId = env.mutationId intent.intentId st)
      (h : Replayed l l' r fp res) :
      l' = l ∧ ∃ prior ∈ l.revisions, prior.mutationId = env.mutationId intent.intentId st := by
    obtain ⟨prior, hprior, -, -, rfl⟩ := h
    obtain ⟨hmem, -, hid⟩ := findMutation_eq_some hprior
    exact ⟨rfl, prior, hmem, hid.trans hm⟩
  have hcases := run_cases hrun
  cases phase with
  | create source payload =>
    cases hcall
    refine ⟨.create, rfl, hcases.imp (hreplay rfl) (fun hpub => ?_)⟩
    simp only [NativeCall.run, createText, bind_eq_ok] at hrun
    obtain ⟨_, _, prepared, hprepared, _, _, hrun⟩ := hrun
    rw [(prepareText_ok hprepared).1, (prepareText_ok hprepared).2] at hrun
    obtain ⟨hfree, hleaves⟩ := (publishCreate_leaves hrun).resolve_left (not_replayed hpub)
    obtain ⟨now, hcommits, hpath, hdigest, hdeleted⟩ := commits_of_leaves hl hpub hleaves
    exact ⟨now, hcommits, .create (resourceRow_eq_none.mpr hfree) (live_of_action (by rintro ⟨⟩) hdeleted) hpath
      (by rw [hdigest, prepareText_expected rfl hprepared])⟩
  | restore source payload r =>
    obtain ⟨e, he⟩ := hhead r rfl
    simp only [Worker.nativeCall, he] at hcall
    cases hcall
    refine ⟨.restore, rfl, hcases.imp (hreplay rfl) (fun hpub => ?_)⟩
    simp only [NativeCall.run, restoreText, bind_eq_ok] at hrun
    obtain ⟨_, _, _, _, prepared, hprepared, _, _, hrun⟩ := hrun
    rw [(prepareText_ok hprepared).1, (prepareText_ok hprepared).2] at hrun
    obtain ⟨o, ho, hid, hold, hohead, hleaves⟩ := (publishRestore_leaves hrun).resolve_left (not_replayed hpub)
    obtain ⟨now, hcommits, -, hdigest, hdeleted⟩ := commits_of_leaves hl hpub hleaves
    exact ⟨now, hcommits, .restore (row_of_mem ho hid) (hohead.trans he.symm) hold
      (live_of_action (by rintro ⟨⟩) hdeleted) (by rw [hdigest, prepareText_expected rfl hprepared])⟩
  | move source payload r =>
    obtain ⟨e, he⟩ := hhead r rfl
    simp only [Worker.nativeCall, he] at hcall
    cases hcall
    refine ⟨.move, rfl, hcases.imp (hreplay rfl) (fun hpub => ?_)⟩
    simp only [NativeCall.run, moveText, bind_eq_ok] at hrun
    obtain ⟨_, _, _, _, _, _, _, _, hrun⟩ := hrun
    obtain ⟨o, ho, hid, hold, hohead, hleaves⟩ := (publishMove_leaves hrun).resolve_left (not_replayed hpub)
    obtain ⟨now, hcommits, hpath, hdigest, hdeleted⟩ := commits_of_leaves hl hpub hleaves
    exact ⟨now, hcommits, .move (row_of_mem ho hid) (hohead.trans he.symm) hold
      (live_of_action (by rintro ⟨⟩) hdeleted) hpath hdigest⟩
  | replace source payload r =>
    obtain ⟨e, he⟩ := hhead r rfl
    simp only [Worker.nativeCall, he] at hcall
    cases hcall
    refine ⟨.replace, rfl, hcases.imp (hreplay rfl) (fun hpub => ?_)⟩
    simp only [NativeCall.run, replaceText, bind_eq_ok] at hrun
    obtain ⟨_, _, _, _, prepared, hprepared, _, _, hrun⟩ := hrun
    rw [(prepareText_ok hprepared).1, (prepareText_ok hprepared).2] at hrun
    obtain ⟨o, ho, hid, hold, hohead, hleaves⟩ := (publishReplace_leaves hrun).resolve_left (not_replayed hpub)
    obtain ⟨now, hcommits, hpath, hdigest, hdeleted⟩ := commits_of_leaves hl hpub hleaves
    exact ⟨now, hcommits, .replace (row_of_mem ho hid) (hohead.trans he.symm) hold
      (live_of_action (by rintro ⟨⟩) hdeleted) hpath (by rw [hdigest, prepareText_expected rfl hprepared])⟩
  | delete r =>
    obtain ⟨e, he⟩ := hhead r rfl
    simp only [Worker.nativeCall, he] at hcall
    cases hcall
    refine ⟨.delete, rfl, hcases.imp (hreplay rfl) (fun hpub => ?_)⟩
    simp only [NativeCall.run, deleteResource, bind_eq_ok] at hrun
    obtain ⟨_, _, _, _, hrun⟩ := hrun
    obtain ⟨o, ho, hid, hold, hohead, hleaves⟩ := (publishDelete_leaves hrun).resolve_left (not_replayed hpub)
    obtain ⟨now, hcommits, -, -, hdeleted⟩ := commits_of_leaves hl hpub hleaves
    exact ⟨now, hcommits, .delete (row_of_mem ho hid) (hohead.trans he.symm) hold (hdeleted.mp rfl)⟩
  | checkIntent | readResource | readSource _ _ | readPayload _ _ | checkIntentAgain _ _ _ | readSourceAgain _ _ _
  | rereadRestored _ _ | rereadMoved _ _ | finish _ | failed => cases hcall

end Akb.FileProjection
