import Akb.Native.Publication
import Akb.Library.Table

/-! The Revisions of a Resource form one chain from its head to its creation, and
the history query reads that chain. -/
namespace Akb.Native
open Akb.Library

/-- The head of a Resource and the chain behind it. -/
structure HeadChain (l : Ledger) (r : Resource) (head : Revision) (chain : List Revision) : Prop where
  head_id : r.headRevisionId = some head.revisionId
  walk : Lineage l.revisions Revision.parentRevisionId head chain
  complete : ∀ rev, rev ∈ chain ↔ rev ∈ l.revisions ∧ rev.resourceId = r.resourceId
  once : chain.Nodup
  deleted_iff : head.action = .delete ↔ r.lifecycle = .deleted
  head_path : head.pathAtRevision = r.currentPath
  pinned : r.Live → ∃ m ∈ l.manifests, head.payloadManifestId = some m.payloadManifestId

structure HistoryInvariant (l : Ledger) : Prop where
  shaped : ∀ rev ∈ l.revisions, rev.actionShape
  owned : ∀ rev ∈ l.revisions, ∃ r ∈ l.resources, r.resourceId = rev.resourceId
  chains : ∀ r ∈ l.resources, ∃ head chain, HeadChain l r head chain

theorem historyInvariant_empty : HistoryInvariant .empty := by
  constructor <;> simp [Ledger.empty]

/-- The shape constraint ties creation to the absence of a parent. -/
theorem Revision.create_iff {rev : Revision} (h : rev.actionShape) :
    rev.action = .create ↔ rev.parentRevisionId = none := by
  unfold Revision.actionShape at h
  cases ha : rev.action <;> cases hp : rev.parentRevisionId <;> simp_all

section Step
variable {l l' : Ledger} {resource : Resource} {rev : Revision}

theorem headChain_other (hext : Extends l l' resource rev) {r : Resource} (hid : r.resourceId ≠ resource.resourceId)
    {head : Revision} {chain : List Revision} (h : HeadChain l r head chain) : HeadChain l' r head chain where
  head_id := h.head_id
  walk := h.walk.mono (fun x hx => (hext.revisions x).mpr (Or.inr hx))
  complete x := by
    rw [h.complete, hext.revisions]
    constructor
    · exact fun ⟨hx, hr⟩ => ⟨Or.inr hx, hr⟩
    · rintro ⟨rfl | hx, hr⟩
      · exact absurd (hr.symm.trans hext.same_resource) hid
      · exact ⟨hx, hr⟩
  once := h.once
  deleted_iff := h.deleted_iff
  head_path := h.head_path
  pinned hl := by
    obtain ⟨m, hm, he⟩ := h.pinned hl
    exact ⟨m, hext.manifests m hm, he⟩

/-- The appended Revision heads the chain of its Resource. -/
theorem headChain_head (h : HistoryInvariant l) (hext : Extends l l' resource rev) :
    ∃ chain, HeadChain l' resource rev chain := by
  have hrev : rev ∈ l'.revisions := (hext.revisions rev).mpr (Or.inl rfl)
  have hmem (x : Revision) : x ∈ l'.revisions ∧ x.resourceId = resource.resourceId ↔
      x = rev ∨ (x ∈ l.revisions ∧ x.resourceId = resource.resourceId) := by
    rw [hext.revisions, or_and_right]
    exact or_congr_left (and_iff_left_of_imp (fun he => by rw [he]; exact hext.same_resource))
  rcases hext.parent with ⟨hcreate, hnew⟩ | ⟨_, old, hold, hid, hparent⟩
  · refine ⟨[rev], hext.head, .root hrev ((Revision.create_iff hext.shape).mp hcreate), fun x => ?_,
      List.nodup_singleton _, hext.lifecycle, hext.path, hext.payload⟩
    rw [hmem, List.mem_singleton]
    refine (or_iff_left ?_).symm
    rintro ⟨hx, hr⟩
    obtain ⟨r, hrm, hro⟩ := h.owned x hx
    exact hnew r hrm (hro.trans hr)
  · obtain ⟨head, chain, hchain⟩ := h.chains old hold
    refine ⟨rev :: chain, hext.head, .child hrev (hparent.trans hchain.head_id)
      (hchain.walk.mono (fun x hx => (hext.revisions x).mpr (Or.inr hx))), fun x => ?_, ?_, hext.lifecycle,
      hext.path, hext.payload⟩
    · rw [hmem, List.mem_cons, hchain.complete, hid]
    · refine List.nodup_cons.mpr ⟨fun hin => ?_, hchain.once⟩
      exact hext.fresh rev ((hchain.complete rev).mp hin).1 rfl

theorem history_step (h : HistoryInvariant l) (hext : Extends l l' resource rev) : HistoryInvariant l' where
  shaped x hx := by
    rcases (hext.revisions x).mp hx with rfl | hx
    · exact hext.shape
    · exact h.shaped x hx
  owned x hx := by
    rcases (hext.revisions x).mp hx with rfl | hx
    · exact ⟨resource, (hext.resources _).mpr (Or.inl rfl), hext.same_resource.symm⟩
    · obtain ⟨r, hr, hid⟩ := h.owned x hx
      by_cases he : r.resourceId = resource.resourceId
      · exact ⟨resource, (hext.resources _).mpr (Or.inl rfl), he.symm.trans hid⟩
      · exact ⟨r, (hext.resources r).mpr (Or.inr ⟨hr, he⟩), hid⟩
  chains r hr := by
    rcases (hext.resources r).mp hr with rfl | ⟨hr, hid⟩
    · obtain ⟨chain, hchain⟩ := headChain_head h hext
      exact ⟨rev, chain, hchain⟩
    · obtain ⟨head, chain, hchain⟩ := h.chains r hr
      exact ⟨head, chain, headChain_other hext hid hchain⟩

end Step

theorem historyInvariant_performAll (rt : Runtime) (steps : List (Draws × NativeCall)) :
    HistoryInvariant (performAll rt .empty steps) :=
  performAll_invariant rt (fun _ _ _ _ h hext _ => history_step h hext) steps historyInvariant_empty

/-- The recursive query follows the chain as far as its limit allows. -/
theorem lineageFrom_eq_take {l : Ledger} {resourceId : Uuid} {row : Revision} {chain : List Revision}
    (h : Lineage l.revisions Revision.parentRevisionId row chain) (hr : ∀ x ∈ chain, x.resourceId = resourceId)
    (steps : Nat) : lineageFrom l resourceId row steps = chain.take (steps + 1) := by
  induction steps generalizing row chain with
  | zero => cases h <;> rfl
  | succ steps ih =>
    cases h with
    | root hmem hp => simp [lineageFrom, hp]
    | @child _ p chain hmem hp h =>
      have hget : l.revisions.get? p.revisionId = some p := Table.get?_eq_some.mpr ⟨h.mem_table p h.start_mem, rfl⟩
      have hpr : p.resourceId = resourceId := hr p (List.mem_cons_of_mem _ h.start_mem)
      rw [lineageFrom, hp, Option.bind_some, hget]
      simp only [hpr, if_true]
      rw [ih h (fun x hx => hr x (List.mem_cons_of_mem _ hx)), List.take_succ_cons]

theorem listHistory_eq_take {l : Ledger} {r : Resource} (hr : r ∈ l.resources) {head : Revision}
    {chain : List Revision} (h : HeadChain l r head chain) (limit : Int) (hlimit : 1 ≤ limit) :
    listHistory l r.resourceId limit = chain.take limit.toNat := by
  have hres : l.resources.get? r.resourceId = some r := Table.get?_eq_some.mpr ⟨hr, rfl⟩
  obtain ⟨hmem, hid⟩ := (h.complete head).mp h.walk.start_mem
  have hhead : l.revisions.get? head.revisionId = some head := Table.get?_eq_some.mpr ⟨hmem, rfl⟩
  rw [listHistory, hres, Option.bind_some, h.head_id, Option.bind_some, hhead]
  simp only [hid, if_true]
  rw [lineageFrom_eq_take h.walk (fun x hx => ((h.complete x).mp hx).2)]
  congr 1
  omega

/-- After every sequence of mutations from the empty ledger, each Resource has a
chain that the parents visit from its head: all its Revisions, each once, down to
its one creation. The head agrees with the Resource, and the history query with
limit `n` returns the first `n` Revisions of the chain. -/
theorem linear_history (rt : Runtime) (steps : List (Draws × NativeCall)) :
    ∀ r ∈ (performAll rt .empty steps).resources, ∃ head chain,
      HeadChain (performAll rt .empty steps) r head chain ∧
      (∃ first, chain.getLast? = some first ∧ first.action = .create ∧ first.parentRevisionId = none ∧
        ∀ rev ∈ chain, rev.action = .create → rev = first) ∧
      ∀ limit : Int, 1 ≤ limit →
        listHistory (performAll rt .empty steps) r.resourceId limit = chain.take limit.toNat := by
  have hinv := historyInvariant_performAll rt steps
  intro r hr
  obtain ⟨head, chain, hchain⟩ := hinv.chains r hr
  obtain ⟨first, hlast, hroot, honly⟩ := hchain.walk.last
  have hshape (x : Revision) (hx : x ∈ chain) : x.action = .create ↔ x.parentRevisionId = none :=
    Revision.create_iff (hinv.shaped x ((hchain.complete x).mp hx).1)
  have hfirst : first ∈ chain := List.mem_of_getLast? hlast
  exact ⟨head, chain, hchain, ⟨first, hlast, (hshape first hfirst).mpr hroot, hroot,
    fun x hx hc => honly x hx ((hshape x hx).mp hc)⟩, listHistory_eq_take hr hchain⟩

/-- A created, replaced and deleted Resource keeps its three Revisions, newest first. -/
theorem linear_history_deleted : ∃ resource ∈ (performAll sampleRuntime .empty sampleSteps).resources,
    ∃ head chain, HeadChain (performAll sampleRuntime .empty sampleSteps) resource head chain ∧
      listHistory (performAll sampleRuntime .empty sampleSteps) resource.resourceId 2 = chain.take 2 ∧
      (listHistory (performAll sampleRuntime .empty sampleSteps) resource.resourceId 9).map Revision.action =
        [.delete, .replace, .create] := by
  have hex : ∃ resource ∈ (performAll sampleRuntime .empty sampleSteps).resources.rows,
      (listHistory (performAll sampleRuntime .empty sampleSteps) resource.resourceId 9).map Revision.action =
        [.delete, .replace, .create] := by decide +kernel
  obtain ⟨resource, hr, hactions⟩ := hex
  obtain ⟨head, chain, hchain, _, hlimit⟩ := linear_history sampleRuntime sampleSteps resource hr
  exact ⟨resource, hr, head, chain, hchain, hlimit 2 (by decide), hactions⟩

end Akb.Native

/-! What each mutation leaves at the head of its Resource, and which Resource it was. -/
namespace Akb.Native
open Akb.Library

/-- What the result of a mutation says of the head: whose it is, how it came about,
where it is, and the digest it pins. -/
structure Leaves (l' : Ledger) (res : NativeMutationResult) (id : Uuid) (action : Action) (path : String)
    (digest : Option String) : Prop where
  resource : res.resourceId = id
  action_eq : res.action = action
  path_eq : res.path = path
  digest_eq : (res.payloadManifestId.bind l'.manifests.get?).map Manifest.digest = digest

theorem RevisionId.text_injective : Function.Injective RevisionId.text := by
  rintro ⟨a, _⟩ ⟨b, _⟩ h
  cases h
  rfl

theorem checkHead_eq_ok {resource : Resource} {expected : RevisionId} {u : Unit}
    (h : checkHead resource (some expected.text) = .ok u) : resource.headRevisionId = some expected := by
  have hsame := refuse_eq_ok.mp h
  simp only [Option.any_some, decide_eq_true_eq, ne_eq, not_not] at hsame
  obtain ⟨head, hhead, htext⟩ := Option.map_eq_some_iff.mp hsame
  rw [hhead, RevisionId.text_injective htext]

/-- A reference that has to name one Resource finds that Resource. -/
theorem lockLiveReference_expected {rt : Runtime} {l : Ledger} {r : Request} {id : Uuid} {resource : Resource}
    (h : lockLiveReference rt l r (some id) = .ok resource) : resource.resourceId = id := by
  simp only [lockLiveReference, bind_eq_ok, pure_eq_ok, found_eq_ok, refuse_eq_ok] at h
  obtain ⟨_, _, resolved, _, _, hexpected, locked, hlock, _, _, _, _, _, _, _, _, rfl⟩ := h
  have hid : resolved.resourceId = id := by simpa using hexpected
  exact (Table.mem_of_get? hlock).2.trans hid

/-- The head manifest of a Resource is the one its head Revision names. -/
theorem headManifest_eq {l : Ledger} {r : Resource} {head : Revision} (hr : r ∈ l.resources)
    (hhead : r.headRevisionId = some head.revisionId) (hrev : head ∈ l.revisions)
    (hresource : head.resourceId = r.resourceId) :
    headManifest l r.resourceId = head.payloadManifestId.bind l.manifests.get? := by
  have hget : l.resources.get? r.resourceId = some r := Table.get?_eq_some.mpr ⟨hr, rfl⟩
  have hfind : l.revisions.rows.find? (fun x => x.resourceId = r.resourceId ∧ x.revisionId = head.revisionId) =
      some head := by
    cases hf : l.revisions.rows.find? (fun x => x.resourceId = r.resourceId ∧ x.revisionId = head.revisionId) with
    | none => exact absurd (List.find?_eq_none.mp hf head hrev) (by simp [hresource])
    | some found =>
      have hspec := List.find?_some hf
      simp only [decide_eq_true_eq] at hspec
      rw [Table.eq_of_key (List.mem_of_find?_eq_some hf) hrev hspec.2]
  simp only [headManifest, Option.bind_eq_bind, hget, Option.bind_some, hhead, hfind]

theorem headManifest_mem {l : Ledger} {id : Uuid} {m : Manifest} (h : headManifest l id = some m) :
    l.manifests.get? m.payloadManifestId = some m := by
  simp only [headManifest, Option.bind_eq_bind, Option.bind_eq_some_iff] at h
  obtain ⟨_, _, _, _, _, _, manifestId, _, hget⟩ := h
  rwa [(Table.mem_of_get? hget).2]

theorem copyManifest_digest {l l' : Ledger} {source : Manifest} {payloadManifestId resourceId : Uuid} {occurredAt : Int}
    (hsource : l.manifests.get? source.payloadManifestId = some source)
    (h : copyManifest l source.payloadManifestId payloadManifestId resourceId occurredAt = .ok l') :
    (l'.manifests.get? payloadManifestId).map Manifest.digest = some source.digest := by
  rw [copyManifest, hsource] at h
  obtain ⟨_, _, _, hman⟩ := insertManifest_ok h
  rw [Table.get?_eq_some.mpr ⟨(hman _).mpr (.inl rfl), rfl⟩]
  rfl

theorem insertManifest_digest {l l' : Ledger} {row : Manifest} (h : insertManifest l row = .ok l') :
    (l'.manifests.get? row.payloadManifestId).map Manifest.digest = some row.digest := by
  obtain ⟨_, _, _, hman⟩ := insertManifest_ok h
  rw [Table.get?_eq_some.mpr ⟨(hman _).mpr (.inl rfl), rfl⟩]
  rfl

theorem insertRevision_manifests {l l' : Ledger} {row : Revision} (h : insertRevision l row = .ok l') :
    l'.manifests = l.manifests := by
  obtain ⟨_, _, _, _, rfl, _⟩ := insertRevision_ok h
  rfl

theorem setHead_manifests {l l' : Ledger} {resource : Resource} {revisionId : RevisionId} {path : String}
    {lifecycle : Lifecycle} {occurredAt : Int} (h : setHead l resource revisionId path lifecycle occurredAt = .ok l') :
    l'.manifests = l.manifests := by
  obtain ⟨_, _, rfl, _⟩ := setHead_ok h
  rfl

theorem publishCreate_leaves {l l' : Ledger} {d : Draws} {r : Request} {id : Uuid} {prepared : PreparedPayload}
    {fp : String} {assetIds : List Uuid} {allow : Bool} {res : NativeMutationResult}
    (h : publishCreate l d r (some id) prepared fp assetIds allow = .ok (res, l')) :
    Replayed l l' r fp res ∨
      ((∀ x ∈ l.resources, x.resourceId ≠ id) ∧ Leaves l' res id .create r.path (some prepared.digest)) := by
  rw [publishCreate, conflictOn_eq_ok] at h
  refine (inMutation_cases h).imp_right ?_
  rintro ⟨_, _, h⟩
  simp only [bind_eq_ok, pure_eq_ok, Prod.mk.injEq] at h
  obtain ⟨_, _, l₁, h₁, l₂, h₂, l₃, h₃, l₄, h₄, _, _, rfl, rfl⟩ := h
  refine ⟨(insertResource_ok h₁).1, rfl, rfl, rfl, ?_⟩
  rw [(retireReused_rest _ _ _ _ _ _).2.2, setHead_manifests h₄, insertRevision_manifests h₃]
  exact insertManifest_digest h₂

theorem publishReplace_leaves {rt : Runtime} {l l' : Ledger} {d : Draws} {r : Request} {expected : RevisionId}
    {id : Uuid} {prepared : PreparedPayload} {fp : String} {assetIds : List Uuid} {res : NativeMutationResult}
    (h : publishReplace rt l d r (some expected.text) (some id) prepared fp assetIds = .ok (res, l')) :
    Replayed l l' r fp res ∨ ∃ x ∈ l.resources, x.resourceId = id ∧ x.Live ∧ x.headRevisionId = some expected ∧
      Leaves l' res id .replace x.currentPath (some prepared.digest) := by
  refine (inMutation_cases h).imp_right ?_
  rintro ⟨_, _, h⟩
  simp only [bind_eq_ok, pure_eq_ok, Prod.mk.injEq] at h
  obtain ⟨resource, hlock, _, hhead, _, _, l₁, h₁, l₂, h₂, l₃, h₃, _, _, rfl, rfl⟩ := h
  obtain ⟨hmem, _, _, hlive⟩ := lockLiveReference_eq_ok hlock
  have hid := lockLiveReference_expected hlock
  refine ⟨resource, hmem, hid, hlive, checkHead_eq_ok hhead, hid, rfl, rfl, ?_⟩
  rw [setHead_manifests h₃, insertRevision_manifests h₂]
  exact insertManifest_digest h₁

theorem publishRestore_leaves {l l' : Ledger} {d : Draws} {r : Request} {expected : RevisionId} {id : Uuid}
    {prepared : PreparedPayload} {fp : String} {assetIds : List Uuid} {res : NativeMutationResult}
    (h : publishRestore l d r expected.text id prepared fp assetIds = .ok (res, l')) :
    Replayed l l' r fp res ∨ ∃ x ∈ l.resources, x.resourceId = id ∧ x.lifecycle = .deleted ∧
      x.headRevisionId = some expected ∧ Leaves l' res id .replace r.path (some prepared.digest) := by
  rw [publishRestore, conflictOn_eq_ok] at h
  refine (inMutation_cases h).imp_right ?_
  rintro ⟨_, _, h⟩
  simp only [bind_eq_ok, pure_eq_ok, found_eq_ok, refuse_eq_ok, Prod.mk.injEq] at h
  obtain ⟨resource, hlock, _, _, _, hdeleted, _, _, _, hhead, _, _, l₁, h₁, l₂, h₂, l₃, h₃, _, _, rfl, rfl⟩ := h
  obtain ⟨hmem, hid⟩ := Table.mem_of_get? hlock
  refine ⟨resource, hmem, hid, not_not.mp hdeleted, checkHead_eq_ok hhead, rfl, rfl, rfl, ?_⟩
  rw [(retireReused_rest _ _ _ _ _ _).2.2, setHead_manifests h₃, insertRevision_manifests h₂]
  exact insertManifest_digest h₁

theorem publishMove_leaves {rt : Runtime} {l l' : Ledger} {d : Draws} {r : Request} {pathTo : String}
    {expected : RevisionId} {id : Uuid} {fp : String} {res : NativeMutationResult}
    (h : publishMove rt l d r pathTo (some expected.text) (some id) fp = .ok (res, l')) :
    Replayed l l' r fp res ∨ ∃ x ∈ l.resources, x.resourceId = id ∧ x.Live ∧ x.headRevisionId = some expected ∧
      Leaves l' res id .move pathTo ((headManifest l id).map Manifest.digest) := by
  rw [publishMove, conflictOn_eq_ok] at h
  refine (inMutation_cases h).imp_right ?_
  rintro ⟨_, revisionId, h⟩
  simp only [bind_eq_ok, pure_eq_ok, found_eq_ok, Prod.mk.injEq] at h
  obtain ⟨resource, hlock, _, hhead, _, _, _, _, _, _, head, hman, _, _, l₁, h₁, l₂, h₂, l₃, h₃, l₄, h₄, rfl, rfl⟩ := h
  obtain ⟨hmem, _, _, hlive⟩ := lockLiveReference_eq_ok hlock
  have hid := lockLiveReference_expected hlock
  refine ⟨resource, hmem, hid, hlive, checkHead_eq_ok hhead, hid, rfl, rfl, ?_⟩
  obtain ⟨_, _, rfl, _⟩ := insertPathAlias_ok h₄
  have hkept : (retireReused l₃ (findLiveAlias l r.namespaceId pathTo) r.namespaceId pathTo revisionId d.occurredAt).manifests =
      l₁.manifests := by
    rw [(retireReused_rest _ _ _ _ _ _).2.2, setHead_manifests h₃, insertRevision_manifests h₂]
  rw [← hid, hman, Option.map_some]
  exact (congrArg (fun t => (Table.get? t d.manifestId).map Manifest.digest) hkept).trans
    (copyManifest_digest (headManifest_mem hman) h₁)

theorem publishDelete_leaves {rt : Runtime} {l l' : Ledger} {d : Draws} {r : Request} {expected : RevisionId}
    {id : Uuid} {fp : String} {retain : Bool} {res : NativeMutationResult}
    (h : publishDelete rt l d r (some expected.text) (some id) fp retain = .ok (res, l')) :
    Replayed l l' r fp res ∨ ∃ x ∈ l.resources, x.resourceId = id ∧ x.Live ∧ x.headRevisionId = some expected ∧
      Leaves l' res id .delete x.currentPath none := by
  refine (inMutation_cases h).imp_right ?_
  rintro ⟨_, _, h⟩
  simp only [bind_eq_ok, pure_eq_ok, Prod.mk.injEq] at h
  obtain ⟨resource, hlock, _, hhead, l₁, h₁, _, _, l₂, h₂, rfl, rfl⟩ := h
  obtain ⟨hmem, _, _, hlive⟩ := lockLiveReference_eq_ok hlock
  have hid := lockLiveReference_expected hlock
  exact ⟨resource, hmem, hid, hlive, checkHead_eq_ok hhead, hid, rfl, rfl, rfl⟩

end Akb.Native
