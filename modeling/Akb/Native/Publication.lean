import Akb.Native.Service

/-! What a committed mutation did to the ledger, said once for all five. -/
namespace Akb.Native
open Akb.Library

/-- One Revision was appended and became the head of its Resource. -/
structure Extends (l l' : Ledger) (resource : Resource) (rev : Revision) : Prop where
  fresh : ∀ r ∈ l.revisions, r.revisionId ≠ rev.revisionId
  fresh_mutation : ∀ r ∈ l.revisions, ¬ (r.namespaceId = rev.namespaceId ∧ r.mutationId = rev.mutationId)
  shape : rev.actionShape
  revisions : ∀ r, r ∈ l'.revisions ↔ r = rev ∨ r ∈ l.revisions
  resources : ∀ r, r ∈ l'.resources ↔ r = resource ∨ (r ∈ l.resources ∧ r.resourceId ≠ resource.resourceId)
  manifests : ∀ m ∈ l.manifests, m ∈ l'.manifests
  same_resource : rev.resourceId = resource.resourceId
  head : resource.headRevisionId = some rev.revisionId
  path : rev.pathAtRevision = resource.currentPath
  lifecycle : rev.action = .delete ↔ resource.lifecycle = .deleted
  payload : resource.Live → ∃ m ∈ l'.manifests, rev.payloadManifestId = some m.payloadManifestId
  parent : (rev.action = .create ∧ ∀ r ∈ l.resources, r.resourceId ≠ resource.resourceId) ∨
    (rev.action ≠ .create ∧ ∃ old ∈ l.resources, old.resourceId = resource.resourceId ∧
      rev.parentRevisionId = old.headRevisionId)

/-- A live alias, as the queries see it. -/
def Ledger.HasLiveAlias (l : Ledger) (a : PathAlias) : Prop := a ∈ l.aliases ∧ a.Live

/-- The Resource a mutation found, at the namespace and surface it keeps. -/
def Succeeds (l : Ledger) (old resource : Resource) : Prop :=
  old ∈ l.resources ∧ old.resourceId = resource.resourceId ∧ old.namespaceId = resource.namespaceId ∧
    old.surface = resource.surface

/-- What happened to paths and live aliases. -/
inductive PathChange (l l' : Ledger) (resource : Resource) : Prop where
  /-- Creation and restoration take a path no live Resource owns. -/
  | taken (live : resource.Live)
      (free : ∀ r ∈ l.resources, r.Live → r.namespaceId = resource.namespaceId →
        r.currentPath ≠ resource.currentPath)
      (idle : ∀ r ∈ l.resources, r.Live → r.resourceId ≠ resource.resourceId)
      (aliases : ∀ a, l'.HasLiveAlias a ↔ l.HasLiveAlias a ∧
        ¬ (a.namespaceId = resource.namespaceId ∧ a.oldPath = resource.currentPath))
  /-- Replacement keeps both. -/
  | kept (live : resource.Live) (old : Resource) (succeeds : Succeeds l old resource) (oldLive : old.Live)
      (samePath : old.currentPath = resource.currentPath) (aliases : ∀ a, l'.HasLiveAlias a ↔ l.HasLiveAlias a)
  /-- A move takes a free path, and leaves an alias where the Resource was. -/
  | moved (live : resource.Live) (old : Resource) (succeeds : Succeeds l old resource) (oldLive : old.Live)
      (free : ∀ r ∈ l.resources, r.Live → r.namespaceId = resource.namespaceId →
        r.currentPath ≠ resource.currentPath)
      (left : PathAlias)
      (leftAt : left.namespaceId = resource.namespaceId ∧ left.surface = resource.surface ∧
        left.oldPath = old.currentPath ∧ left.resourceId = resource.resourceId)
      (aliases : ∀ a, l'.HasLiveAlias a ↔ a = left ∨ (l.HasLiveAlias a ∧
        ¬ (a.namespaceId = resource.namespaceId ∧ a.oldPath = resource.currentPath)))
  /-- Deletion retires the aliases of the Resource. -/
  | dropped (dead : ¬ resource.Live) (old : Resource) (succeeds : Succeeds l old resource)
      (aliases : ∀ a, l'.HasLiveAlias a ↔ l.HasLiveAlias a ∧
        ¬ (a.namespaceId = resource.namespaceId ∧ a.surface = resource.surface ∧ a.resourceId = resource.resourceId))

/-- A fresh mutation of a request, with the Revision that records it. -/
structure Published (l l' : Ledger) (r : Request) (fp : String) (res : NativeMutationResult) : Prop where
  new : findMutation l r.namespaceId r.mutationId = none
  step : ∃ resource rev, Extends l l' resource rev ∧ PathChange l l' resource ∧ rev.namespaceId = r.namespaceId ∧
    rev.mutationId = r.mutationId ∧ rev.requestFingerprint = fp ∧ res = fromRow rev false

/-- The ledger already held the mutation, recorded for the same fingerprint. -/
def Replayed (l l' : Ledger) (r : Request) (fp : String) (res : NativeMutationResult) : Prop :=
  ∃ prior, findMutation l r.namespaceId r.mutationId = some prior ∧ prior.requestFingerprint = fp ∧
    res = fromRow prior true ∧ l' = l

theorem conflictOn_eq_ok {constraints : List String} {path : String}
    {x : Except NativeError (NativeMutationResult × Ledger)} {out : NativeMutationResult × Ledger} :
    conflictOn constraints path x = .ok out ↔ x = .ok out := by
  unfold conflictOn
  split
  · exact Iff.rfl
  · exact iff_of_false (fun h => nomatch h) (fun h => nomatch h)
  · exact Iff.rfl

theorem inMutation_cases {l : Ledger} {d : Draws} {r : Request} {fp : String}
    {publish : RevisionId → Except NativeError (NativeMutationResult × Ledger)} {res : NativeMutationResult}
    {l' : Ledger} (h : inMutation l d r fp publish = .ok (res, l')) :
    Replayed l l' r fp res ∨
      (findMutation l r.namespaceId r.mutationId = none ∧ ∃ revisionId, publish revisionId = .ok (res, l')) := by
  simp only [inMutation, bind_eq_ok] at h
  obtain ⟨revisionId, _, h⟩ := h
  split at h
  · rename_i prior hprior
    simp only [bind_eq_ok, pure_eq_ok, refuse_eq_ok, Prod.mk.injEq] at h
    obtain ⟨_, hfp, rfl, rfl⟩ := h
    exact Or.inl ⟨prior, hprior, not_not.mp hfp, rfl, rfl⟩
  · rename_i hnew
    exact Or.inr ⟨hnew, revisionId, h⟩

theorem lockLiveReference_eq_ok {rt : Runtime} {l : Ledger} {r : Request} {expectedResourceId : Option Uuid}
    {resource : Resource} (h : lockLiveReference rt l r expectedResourceId = .ok resource) :
    resource ∈ l.resources ∧ resource.namespaceId = r.namespaceId ∧ resource.surface = r.surface ∧ resource.Live := by
  simp only [lockLiveReference, bind_eq_ok, pure_eq_ok, found_eq_ok] at h
  obtain ⟨resolvedRow, hresolve, resolved, hsome, _, _, locked, hlock, _, _, confirmed, _, confirmedRow, _, _, _, rfl⟩ := h
  rw [hsome] at hresolve
  obtain ⟨hmem, hspec⟩ := resolveLiveReference_eq_some hresolve
  obtain ⟨hlocked, hid⟩ := Table.mem_of_get? hlock
  rw [Table.eq_of_key hlocked hmem hid]
  exact ⟨hmem, hspec⟩

/-- The row a head update leaves, when the Resource is in the table. -/
theorem setHead_row {l l' : Ledger} {resource : Resource} {revisionId : RevisionId} {path : String}
    {lifecycle : Lifecycle} {occurredAt : Int} (hmem : resource ∈ l.resources)
    (h : setHead l resource revisionId path lifecycle occurredAt = .ok l') :
    ∃ resources, l' = { l with resources := resources } ∧ ∀ r, r ∈ resources ↔
      r = { resource with
        headRevisionId := some revisionId, currentPath := path, lifecycle := lifecycle, updatedAt := occurredAt } ∨
      (r ∈ l.resources ∧ r.resourceId ≠ resource.resourceId) := by
  obtain ⟨_, resources, rfl, hrows⟩ := setHead_ok h
  refine ⟨resources, rfl, fun r => ?_⟩
  rw [hrows]
  constructor
  · rintro (⟨s, hs, hid, rfl⟩ | hr)
    · rw [Table.eq_of_key hs hmem hid]
      exact Or.inl rfl
    · exact Or.inr hr
  · rintro (rfl | hr)
    · exact Or.inl ⟨resource, hmem, rfl, rfl⟩
    · exact Or.inr hr

/-- Whether or not an alias was found, the path has no live alias afterwards. -/
theorem live_retireReused {l l₀ : Ledger} (hl : l.aliases = l₀.aliases) {namespaceId : Uuid} {path : String}
    {revisionId : RevisionId} {occurredAt : Int} {a : PathAlias} :
    (retireReused l (findLiveAlias l₀ namespaceId path) namespaceId path revisionId occurredAt).HasLiveAlias a ↔
      l₀.HasLiveAlias a ∧ ¬ (a.namespaceId = namespaceId ∧ a.oldPath = path) := by
  unfold retireReused Ledger.HasLiveAlias
  cases hf : findLiveAlias l₀ namespaceId path with
  | some found =>
    simp only [Option.isSome_some, if_true, retireLiveAlias, live_retireAliases, hl, decide_eq_false_iff_not,
      and_assoc]
  | none =>
    simp only [Option.isSome_none, Bool.false_eq_true, if_false, hl]
    constructor
    · exact fun ⟨ha, hlive⟩ => ⟨⟨ha, hlive⟩, fun ⟨hn, hp⟩ => findLiveAlias_eq_none hf ha hlive hn hp⟩
    · exact And.left

theorem retireReused_rest (l : Ledger) (reusedAlias : Option PathAlias) (namespaceId : Uuid) (path : String)
    (revisionId : RevisionId) (occurredAt : Int) :
    (retireReused l reusedAlias namespaceId path revisionId occurredAt).resources = l.resources ∧
    (retireReused l reusedAlias namespaceId path revisionId occurredAt).revisions = l.revisions ∧
    (retireReused l reusedAlias namespaceId path revisionId occurredAt).manifests = l.manifests := by
  unfold retireReused
  split <;> exact ⟨rfl, rfl, rfl⟩

/-- The part the five mutations share: the Revision goes in under the current
head and the head moves to it. -/
theorem extends_of_append {l l₁ l₂ l₃ : Ledger} {resource : Resource} {row : Revision} {path : String}
    {lifecycle : Lifecycle} {occurredAt : Int} (hresource : resource ∈ l₁.resources)
    (hothers : ∀ r, r.resourceId ≠ resource.resourceId → (r ∈ l₁.resources ↔ r ∈ l.resources))
    (hrevisions : l₁.revisions = l.revisions) (hmanifests : ∀ m ∈ l.manifests, m ∈ l₁.manifests)
    (hpayload : lifecycle = .live → ∃ m ∈ l₁.manifests, row.payloadManifestId = some m.payloadManifestId)
    (hinsert : insertRevision l₁ row = .ok l₂)
    (hhead : setHead l₂ resource row.revisionId path lifecycle occurredAt = .ok l₃)
    (hsame : row.resourceId = resource.resourceId) (hpath : row.pathAtRevision = path)
    (hlifecycle : row.action = .delete ↔ lifecycle = .deleted)
    (hparent : (row.action = .create ∧ ∀ r ∈ l.resources, r.resourceId ≠ resource.resourceId) ∨
      (row.action ≠ .create ∧ ∃ old ∈ l.resources, old.resourceId = resource.resourceId ∧
        row.parentRevisionId = old.headRevisionId)) :
    Extends l l₃ { resource with
      headRevisionId := some row.revisionId, currentPath := path, lifecycle := lifecycle, updatedAt := occurredAt } row ∧
    l₃.aliases = l₁.aliases := by
  obtain ⟨hshape, hfresh, hmutation, revisions, rfl, hrows⟩ := insertRevision_ok hinsert
  have hmem : resource ∈ ({ l₁ with revisions := revisions } : Ledger).resources := hresource
  obtain ⟨heads, rfl, hheads⟩ := setHead_row hmem hhead
  refine ⟨⟨?_, ?_, hshape, ?_, ?_, hmanifests, hsame, rfl, hpath, hlifecycle, hpayload, hparent⟩, rfl⟩
  · rw [← hrevisions]
    exact hfresh
  · rw [← hrevisions]
    exact hmutation
  · intro r
    rw [← hrevisions]
    exact hrows r
  · intro r
    rw [show (r ∈ heads ↔ _) from hheads r]
    exact or_congr Iff.rfl (and_congr_left (fun hne => hothers r hne))

/-- The chain looks at Resources, Revisions and manifests only. -/
theorem Extends.congr {l l' l'' : Ledger} {resource : Resource} {rev : Revision} (h : Extends l l' resource rev)
    (hresources : l''.resources = l'.resources) (hrevisions : l''.revisions = l'.revisions)
    (hmanifests : l''.manifests = l'.manifests) : Extends l l'' resource rev where
  fresh := h.fresh
  fresh_mutation := h.fresh_mutation
  shape := h.shape
  revisions := by rw [hrevisions]; exact h.revisions
  resources := by rw [hresources]; exact h.resources
  manifests := by rw [hmanifests]; exact h.manifests
  same_resource := h.same_resource
  head := h.head
  path := h.path
  lifecycle := h.lifecycle
  payload := by rw [hmanifests]; exact h.payload
  parent := h.parent

theorem Extends.retireReused {l l' : Ledger} {resource : Resource} {rev : Revision} (h : Extends l l' resource rev)
    (reusedAlias : Option PathAlias) (namespaceId : Uuid) (path : String) (revisionId : RevisionId)
    (occurredAt : Int) :
    Extends l (Akb.Native.retireReused l' reusedAlias namespaceId path revisionId occurredAt) resource rev := by
  obtain ⟨hres, hrev, hman⟩ := retireReused_rest l' reusedAlias namespaceId path revisionId occurredAt
  exact h.congr hres hrev hman

theorem publishCreate_cases {l l' : Ledger} {d : Draws} {r : Request} {requestedResourceId : Option Uuid}
    {prepared : PreparedPayload} {fp : String} {assetIds : List Uuid} {allow : Bool} {res : NativeMutationResult}
    (h : publishCreate l d r requestedResourceId prepared fp assetIds allow = .ok (res, l')) :
    Replayed l l' r fp res ∨ Published l l' r fp res := by
  rw [publishCreate, conflictOn_eq_ok] at h
  refine (inMutation_cases h).imp id (fun ⟨hnew, revisionId, h⟩ => ⟨hnew, ?_⟩)
  simp only [bind_eq_ok, pure_eq_ok, refuse_eq_ok, Prod.mk.injEq] at h
  obtain ⟨_, hpath, l₁, h₁, l₂, h₂, l₃, h₃, l₄, h₄, _, _, rfl, rfl⟩ := h
  obtain ⟨hid, resources, rfl, hresources⟩ := insertResource_ok h₁
  have hman := insertManifest_ok h₂
  have hnone : findLivePath l r.namespaceId r.path = none := Option.not_isSome_iff_eq_none.mp hpath
  obtain ⟨hext, haliases⟩ := extends_of_append (l := l)
    (by rw [hman.resources]; exact (hresources _).mpr (Or.inl rfl))
    (fun s hs => by
      rw [hman.resources, show (s ∈ resources ↔ _) from hresources s]
      exact or_iff_right (fun he => hs (congrArg Resource.resourceId he)))
    hman.revisions (fun m hm => (hman.manifests m).mpr (Or.inr hm))
    (fun _ => ⟨_, (hman.manifests _).mpr (Or.inl rfl), rfl⟩) h₃ h₄ rfl rfl (by simp [revisionOf])
    (Or.inl ⟨rfl, hid⟩)
  refine ⟨_, _, hext.retireReused _ _ _ _ _, ?_, rfl, rfl, rfl, rfl⟩
  refine .taken rfl (fun s hs hl hn => findLivePath_eq_none hnone hs hl hn) (fun s hs _ => hid s hs) (fun a => ?_)
  exact live_retireReused (haliases.trans hman.aliases)

theorem publishReplace_cases {rt : Runtime} {l l' : Ledger} {d : Draws} {r : Request}
    {expectedRevisionId : Option String} {expectedResourceId : Option Uuid} {prepared : PreparedPayload} {fp : String}
    {assetIds : List Uuid} {res : NativeMutationResult}
    (h : publishReplace rt l d r expectedRevisionId expectedResourceId prepared fp assetIds = .ok (res, l')) :
    Replayed l l' r fp res ∨ Published l l' r fp res := by
  refine (inMutation_cases h).imp id (fun ⟨hnew, revisionId, h⟩ => ⟨hnew, ?_⟩)
  simp only [bind_eq_ok, pure_eq_ok, Prod.mk.injEq] at h
  obtain ⟨resource, hlock, _, _, _, _, l₁, h₁, l₂, h₂, l₃, h₃, _, _, rfl, rfl⟩ := h
  obtain ⟨hmem, hns, hsurface, hlive⟩ := lockLiveReference_eq_ok hlock
  have hman := insertManifest_ok h₁
  obtain ⟨hext, haliases⟩ := extends_of_append (l := l) (by rw [hman.resources]; exact hmem)
    (fun s _ => by rw [hman.resources]) hman.revisions (fun m hm => (hman.manifests m).mpr (Or.inr hm))
    (fun _ => ⟨_, (hman.manifests _).mpr (Or.inl rfl), rfl⟩) h₂ h₃ rfl rfl (by simp [revisionOf])
    (Or.inr ⟨by simp [revisionOf], resource, hmem, rfl, rfl⟩)
  refine ⟨_, _, hext, .kept rfl resource ⟨hmem, rfl, rfl, rfl⟩ hlive rfl (fun a => ?_), rfl, rfl, rfl, rfl⟩
  rw [Ledger.HasLiveAlias, haliases, hman.aliases]
  exact Iff.rfl

theorem publishRestore_cases {l l' : Ledger} {d : Draws} {r : Request} {expectedRevisionId : String}
    {expectedResourceId : Uuid} {prepared : PreparedPayload} {fp : String} {assetIds : List Uuid}
    {res : NativeMutationResult}
    (h : publishRestore l d r expectedRevisionId expectedResourceId prepared fp assetIds = .ok (res, l')) :
    Replayed l l' r fp res ∨ Published l l' r fp res := by
  rw [publishRestore, conflictOn_eq_ok] at h
  refine (inMutation_cases h).imp id (fun ⟨hnew, revisionId, h⟩ => ⟨hnew, ?_⟩)
  simp only [bind_eq_ok, pure_eq_ok, refuse_eq_ok, found_eq_ok, Prod.mk.injEq] at h
  obtain ⟨resource, hlock, _, hscope, _, hdeleted, _, hpath, _, _, _, howner, l₁, h₁, l₂, h₂, l₃, h₃, _, _, rfl, rfl⟩ := h
  obtain ⟨hmem, rfl⟩ := Table.mem_of_get? hlock
  have hns : resource.namespaceId = r.namespaceId := by tauto
  have hdead : ¬ resource.Live := by
    rw [Resource.Live, not_not.mp hdeleted]
    decide
  have hnone : findLivePath l r.namespaceId r.path = none := Option.not_isSome_iff_eq_none.mp howner
  have hman := insertManifest_ok h₁
  obtain ⟨hext, haliases⟩ := extends_of_append (l := l) (by rw [hman.resources]; exact hmem)
    (fun s _ => by rw [hman.resources]) hman.revisions (fun m hm => (hman.manifests m).mpr (Or.inr hm))
    (fun _ => ⟨_, (hman.manifests _).mpr (Or.inl rfl), rfl⟩) h₂ h₃ rfl rfl (by simp [revisionOf])
    (Or.inr ⟨by simp [revisionOf], resource, hmem, rfl, rfl⟩)
  refine ⟨_, _, hext.retireReused _ _ _ _ _, ?_, rfl, rfl, rfl, rfl⟩
  refine .taken rfl (fun s hs hl hn => findLivePath_eq_none hnone hs hl (hn.trans hns)) ?_ (fun a => ?_)
  · intro s hs hl he
    rw [Table.eq_of_key hs hmem he] at hl
    exact hdead hl
  · rw [show resource.namespaceId = r.namespaceId from hns]
    exact live_retireReused (haliases.trans hman.aliases)

theorem publishMove_cases {rt : Runtime} {l l' : Ledger} {d : Draws} {r : Request} {pathTo : String}
    {expectedRevisionId : Option String} {expectedResourceId : Option Uuid} {fp : String} {res : NativeMutationResult}
    (h : publishMove rt l d r pathTo expectedRevisionId expectedResourceId fp = .ok (res, l')) :
    Replayed l l' r fp res ∨ Published l l' r fp res := by
  rw [publishMove, conflictOn_eq_ok] at h
  refine (inMutation_cases h).imp id (fun ⟨hnew, revisionId, h⟩ => ⟨hnew, ?_⟩)
  simp only [bind_eq_ok, pure_eq_ok, refuse_eq_ok, found_eq_ok, Prod.mk.injEq] at h
  obtain ⟨resource, hlock, _, _, _, hmoves, _, howner, _, _, head, _, _, _, l₁, h₁, l₂, h₂, l₃, h₃, l₄, h₄, rfl, rfl⟩ := h
  obtain ⟨hmem, hns, hsurface, hlive⟩ := lockLiveReference_eq_ok hlock
  obtain ⟨row, hrow, hman⟩ := copyManifest_ok h₁
  obtain ⟨hext, haliases⟩ := extends_of_append (l := l) (by rw [hman.resources]; exact hmem)
    (fun s _ => by rw [hman.resources]) hman.revisions (fun m hm => (hman.manifests m).mpr (Or.inr hm))
    (fun _ => ⟨_, (hman.manifests _).mpr (Or.inl rfl), congrArg some hrow.symm⟩) h₂ h₃ rfl rfl
    (by simp [revisionOf]) (Or.inr ⟨by simp [revisionOf], resource, hmem, rfl, rfl⟩)
  obtain ⟨_, aliases, rfl, hleft⟩ := insertPathAlias_ok h₄
  refine ⟨_, _, (hext.retireReused (findLiveAlias l r.namespaceId pathTo) r.namespaceId pathTo revisionId
    d.occurredAt).congr rfl rfl rfl, ?_, rfl, rfl, rfl, rfl⟩
  refine .moved rfl resource ⟨hmem, rfl, rfl, rfl⟩ hlive ?_ (aliasOf d r revisionId resource)
    ⟨hns.symm, hsurface.symm, rfl, rfl⟩ (fun a => ?_)
  · -- The only live owner of the destination could be the Resource itself, which is elsewhere.
    intro s hs hl hn hp
    have hs' : (findLivePath l r.namespaceId pathTo).isSome := by
      rw [findLivePath, List.find?_isSome]
      exact ⟨s, hs, by simpa using ⟨hn.trans hns, hp, hl⟩⟩
    obtain ⟨owner, ho⟩ := Option.isSome_iff_exists.mp hs'
    have hspec := List.find?_some ho
    simp only [decide_eq_true_eq] at hspec
    rw [ho] at howner
    have hid : owner.resourceId = resource.resourceId := by simpa using howner
    rw [Table.eq_of_key (List.mem_of_find?_eq_some ho) hmem hid] at hspec
    exact hmoves hspec.2.1.symm
  · have hret : (a ∈ (retireReused l₃ (findLiveAlias l r.namespaceId pathTo) r.namespaceId pathTo revisionId
        d.occurredAt).aliases ∧ a.Live) ↔ _ := live_retireReused (haliases.trans hman.aliases)
    rw [show resource.namespaceId = r.namespaceId from hns, ← hret, Ledger.HasLiveAlias,
      show (a ∈ aliases ↔ _) from hleft a, or_and_right]
    exact or_congr_left (and_iff_left_of_imp (fun he => by rw [he]; rfl))

theorem publishDelete_cases {rt : Runtime} {l l' : Ledger} {d : Draws} {r : Request}
    {expectedRevisionId : Option String} {expectedResourceId : Option Uuid} {fp : String} {retain : Bool}
    {res : NativeMutationResult}
    (h : publishDelete rt l d r expectedRevisionId expectedResourceId fp retain = .ok (res, l')) :
    Replayed l l' r fp res ∨ Published l l' r fp res := by
  refine (inMutation_cases h).imp id (fun ⟨hnew, revisionId, h⟩ => ⟨hnew, ?_⟩)
  simp only [bind_eq_ok, pure_eq_ok, Prod.mk.injEq] at h
  obtain ⟨resource, hlock, _, _, l₁, h₁, _, _, l₂, h₂, rfl, rfl⟩ := h
  obtain ⟨hmem, hns, hsurface, _⟩ := lockLiveReference_eq_ok hlock
  obtain ⟨hext, haliases⟩ := extends_of_append (l := l) hmem (fun s _ => Iff.rfl) rfl (fun m hm => hm)
    (by intro hl; cases hl) h₁ h₂ rfl rfl (by simp [revisionOf])
    (Or.inr ⟨by simp [revisionOf], resource, hmem, rfl, rfl⟩)
  refine ⟨_, _, hext.congr rfl rfl rfl, ?_, rfl, rfl, rfl, rfl⟩
  refine .dropped (by intro hl; cases hl) resource ⟨hmem, rfl, rfl, rfl⟩ (fun a => ?_)
  rw [Ledger.HasLiveAlias, retireResourceAliases, live_retireAliases, haliases, decide_eq_false_iff_not,
    show resource.namespaceId = r.namespaceId from hns, show resource.surface = r.surface from hsurface,
    Ledger.HasLiveAlias, and_assoc]

theorem prepareText_ok {rt : Runtime} {payloadId : Uuid} {r : BodyRequest} {prepared : PreparedPayload}
    (h : prepareText rt payloadId r = .ok prepared) :
    prepared.digest = rt.sha256 r.payload.canonical ∧ prepared.byteSize = r.payload.canonical.size := by
  simp only [prepareText, verifiedBytes, bind_eq_ok, pure_eq_ok] at h
  obtain ⟨_, ⟨_, _, _, _, _, _, _, _, _, _, rfl⟩, rfl⟩ := h
  exact ⟨rfl, rfl⟩

/-- Each call that returns either answered from the record or published. -/
theorem run_cases {rt : Runtime} {l l' : Ledger} {d : Draws} {call : NativeCall} {res : NativeMutationResult}
    (h : call.run rt l d = .ok (res, l')) :
    Replayed l l' call.request (fingerprint rt (call.fields rt)) res ∨
      Published l l' call.request (fingerprint rt (call.fields rt)) res := by
  cases call with
  | create r resourceId allow =>
    simp only [NativeCall.run, createText, bind_eq_ok] at h
    obtain ⟨_, _, prepared, hprepared, _, _, h⟩ := h
    obtain ⟨hdigest, hsize⟩ := prepareText_ok hprepared
    rw [hdigest, hsize] at h
    exact publishCreate_cases h
  | replace r expectedRevisionId expectedResourceId =>
    simp only [NativeCall.run, replaceText, bind_eq_ok] at h
    obtain ⟨_, _, _, _, prepared, hprepared, _, _, h⟩ := h
    obtain ⟨hdigest, hsize⟩ := prepareText_ok hprepared
    rw [hdigest, hsize] at h
    exact publishReplace_cases h
  | restore r expectedRevisionId expectedResourceId =>
    simp only [NativeCall.run, restoreText, bind_eq_ok] at h
    obtain ⟨_, _, _, _, prepared, hprepared, _, _, h⟩ := h
    obtain ⟨hdigest, hsize⟩ := prepareText_ok hprepared
    rw [hdigest, hsize] at h
    exact publishRestore_cases h
  | move r pathTo expectedRevisionId expectedResourceId =>
    simp only [NativeCall.run, moveText, bind_eq_ok] at h
    obtain ⟨_, _, _, _, _, _, _, _, h⟩ := h
    exact publishMove_cases h
  | delete r expectedRevisionId expectedResourceId retain =>
    simp only [NativeCall.run, deleteResource, bind_eq_ok] at h
    obtain ⟨_, _, _, _, h⟩ := h
    exact publishDelete_cases h

/-- One step of the ledger: nothing, or one Revision with its path change. -/
theorem perform_cases (rt : Runtime) (l : Ledger) (step : Draws × NativeCall) :
    perform rt l step = l ∨ ∃ resource rev, Extends l (perform rt l step) resource rev ∧
      PathChange l (perform rt l step) resource := by
  unfold perform
  cases h : step.2.run rt l step.1 with
  | error e => exact Or.inl rfl
  | ok out =>
    rcases run_cases h with ⟨_, _, _, _, he⟩ | ⟨_, resource, rev, hext, hpath, _⟩
    · exact Or.inl he
    · exact Or.inr ⟨resource, rev, hext, hpath⟩

/-- What each publication keeps, the ledger keeps. -/
theorem performAll_invariant {I : Ledger → Prop} (rt : Runtime)
    (hstep : ∀ l l' resource rev, I l → Extends l l' resource rev → PathChange l l' resource → I l')
    {l : Ledger} (steps : List (Draws × NativeCall)) (h : I l) : I (performAll rt l steps) := by
  induction steps generalizing l with
  | nil => exact h
  | cons step steps ih =>
    refine ih (l := perform rt l step) ?_
    rcases perform_cases rt l step with he | ⟨resource, rev, hext, hpath⟩
    · rwa [he]
    · exact hstep l _ resource rev h hext hpath

end Akb.Native
