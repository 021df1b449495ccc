import Akb.Native.History

/-! What later mutations keep: rows stay, a history grows at its head, and a head pins the body that
was last written to its Resource. -/
namespace Akb.Native
open Akb.Library

/-! ### Histories -/

section Histories
variable {l₀ l l' : Ledger} {resource old : Resource} {rev head : Revision} {chain chain' : List Revision}

/-- The chain of a Resource that was there grows by one Revision. -/
theorem headChain_grows (hext : Extends l l' resource rev) (hold : old ∈ l.resources)
    (hid : old.resourceId = resource.resourceId) (h : HeadChain l old head chain) (h' : HeadChain l' resource rev chain') :
    chain' = rev :: chain := by
  rcases hext.parent with ⟨-, hnew⟩ | ⟨-, found, hfound, hfoundId, hparent⟩
  · exact absurd hid (hnew old hold)
  · obtain rfl := Table.eq_of_key hfound hold (hfoundId.trans hid.symm)
    rw [h.head_id] at hparent
    cases h'.walk with
    | root _ hp =>
      rw [hparent] at hp
      cases hp
    | @child _ p tail _ hp hwalk =>
      rw [hparent, Option.some.injEq] at hp
      have hhead := h.walk.mono (fun x hx => (hext.revisions x).mpr (Or.inr hx))
      obtain rfl := Table.eq_of_key (hhead.mem_table _ hhead.start_mem) (hwalk.mem_table _ hwalk.start_mem) hp
      rw [hwalk.unique hhead]

/-- What a later ledger keeps of an earlier one. -/
structure Grown (l₀ l : Ledger) : Prop where
  revisions : ∀ rev ∈ l₀.revisions, rev ∈ l.revisions
  manifests : ∀ m ∈ l₀.manifests, m ∈ l.manifests
  histories : ∀ r ∈ l₀.resources, ∀ head chain, HeadChain l₀ r head chain →
    ∃ r' ∈ l.resources, r'.resourceId = r.resourceId ∧ ∃ head' newer, HeadChain l r' head' (newer ++ chain)

theorem Grown.refl (l : Ledger) : Grown l l :=
  ⟨fun _ h => h, fun _ h => h, fun r hr head _ h => ⟨r, hr, rfl, head, [], h⟩⟩

theorem Grown.step (h : Grown l₀ l) (hinv : HistoryInvariant l) (hext : Extends l l' resource rev) : Grown l₀ l' := by
  constructor
  case revisions => exact fun x hx => (hext.revisions x).mpr (Or.inr (h.revisions x hx))
  case manifests => exact fun m hm => hext.manifests m (h.manifests m hm)
  case histories =>
    intro r hr head chain hchain
    obtain ⟨s, hs, hid, head', newer, hgrown⟩ := h.histories r hr head chain hchain
    by_cases hsame : s.resourceId = resource.resourceId
    · obtain ⟨chain', hchain'⟩ := headChain_head hinv hext
      have heq := headChain_grows hext hs hsame hgrown hchain'
      rw [heq] at hchain'
      exact ⟨resource, (hext.resources _).mpr (Or.inl rfl), hsame.symm.trans hid, rev, rev :: newer, hchain'⟩
    · exact ⟨s, (hext.resources s).mpr (Or.inr ⟨hs, hsame⟩), hid, head', newer, headChain_other hext hsame hgrown⟩

end Histories

theorem performAll_append (rt : Runtime) (l : Ledger) (steps more : List (Draws × NativeCall)) :
    performAll rt l (steps ++ more) = performAll rt (performAll rt l steps) more :=
  List.foldl_append

theorem grown_performAll (rt : Runtime) {l : Ledger} (h : HistoryInvariant l) (more : List (Draws × NativeCall)) :
    Grown l (performAll rt l more) := by
  refine (performAll_invariant (I := fun l' => HistoryInvariant l' ∧ Grown l l') rt ?_ more ⟨h, Grown.refl l⟩).2
  intro l₁ l₂ resource rev hl hext _
  exact ⟨history_step hl.1 hext, hl.2.step hl.1 hext⟩

/-- Whatever mutations follow a run, no Revision and no manifest is changed or lost, and what the history query said of a
Resource it says again, behind the Revisions that came since. -/
theorem history_only_grows (rt : Runtime) (steps more : List (Draws × NativeCall)) :
    (∀ rev ∈ (performAll rt .empty steps).revisions, rev ∈ (performAll rt .empty (steps ++ more)).revisions) ∧
    (∀ m ∈ (performAll rt .empty steps).manifests, m ∈ (performAll rt .empty (steps ++ more)).manifests) ∧
    ∀ r ∈ (performAll rt .empty steps).resources, ∃ newer older : List Revision, ∀ limit : Int, 1 ≤ limit →
      listHistory (performAll rt .empty steps) r.resourceId limit = older.take limit.toNat ∧
      listHistory (performAll rt .empty (steps ++ more)) r.resourceId limit = (newer ++ older).take limit.toNat := by
  have hinv := historyInvariant_performAll rt steps
  have hgrown := grown_performAll rt hinv more
  rw [performAll_append]
  refine ⟨hgrown.revisions, hgrown.manifests, fun r hr => ?_⟩
  obtain ⟨head, chain, hchain⟩ := hinv.chains r hr
  obtain ⟨r', hr', hid, head', newer, hchain'⟩ := hgrown.histories r hr head chain hchain
  refine ⟨newer, chain, fun limit hlimit => ⟨listHistory_eq_take hr hchain limit hlimit, ?_⟩⟩
  rw [← hid]
  exact listHistory_eq_take hr' hchain' limit hlimit

/-! ### Bodies -/

/-- The digest and the size of a body. -/
abbrev Content := String × Nat

def Manifest.content (m : Manifest) : Content := (m.digest, m.byteSize)

def BodyRequest.content (rt : Runtime) (r : BodyRequest) : Content :=
  (rt.sha256 r.payload.canonical, r.payload.canonical.size)

/-- The body of a Resource after a call that acted on it. -/
def NativeCall.bodyAfter (rt : Runtime) (before : Option Content) : NativeCall → Option Content
  | .create r .. => some (r.content rt)
  | .replace r .. => some (r.content rt)
  | .restore r .. => some (r.content rt)
  | .move .. => before
  | .delete .. => none

/-- The body of each Resource beside the ledger, as the calls that were not replays wrote it. -/
structure Bodies where
  ledger : Ledger
  content : Uuid → Option Content

def Bodies.empty : Bodies := ⟨.empty, fun _ => none⟩

def Bodies.perform (rt : Runtime) (b : Bodies) (step : Draws × NativeCall) : Bodies :=
  match step.2.run rt b.ledger step.1 with
  | .ok (res, l') =>
    ⟨l', if res.idempotentReplay then b.content
      else Function.update b.content res.resourceId (step.2.bodyAfter rt (b.content res.resourceId))⟩
  | .error _ => b

/-- What the head of a Resource pins. -/
def headContent (l : Ledger) (id : Uuid) : Option Content := (headManifest l id).map Manifest.content

section Heads
variable {l l' : Ledger} {d : Draws} {r : Request} {fp : String} {res : NativeMutationResult}

/-- The manifest that a result names holds a content. -/
def Pins (l' : Ledger) (res : NativeMutationResult) (content : Option Content) : Prop :=
  (res.payloadManifestId.bind l'.manifests.get?).map Manifest.content = content

theorem insertManifest_get {row : Manifest} (h : insertManifest l row = .ok l') :
    l'.manifests.get? row.payloadManifestId = some row := by
  obtain ⟨_, _, _, hman⟩ := insertManifest_ok h
  exact Table.get?_eq_some.mpr ⟨(hman _).mpr (.inl rfl), rfl⟩

theorem copyManifest_content {source : Manifest} {payloadManifestId resourceId : Uuid} {occurredAt : Int}
    (hsource : l.manifests.get? source.payloadManifestId = some source)
    (h : copyManifest l source.payloadManifestId payloadManifestId resourceId occurredAt = .ok l') :
    (l'.manifests.get? payloadManifestId).map Manifest.content = some source.content := by
  rw [copyManifest, hsource] at h
  exact congrArg (Option.map Manifest.content) (insertManifest_get h)

theorem publishCreate_pins {id : Option Uuid} {prepared : PreparedPayload} {assetIds : List Uuid} {allow : Bool}
    (h : publishCreate l d r id prepared fp assetIds allow = .ok (res, l')) :
    Replayed l l' r fp res ∨ Pins l' res (some (prepared.digest, prepared.byteSize)) := by
  rw [publishCreate, conflictOn_eq_ok] at h
  refine (inMutation_cases h).imp_right ?_
  rintro ⟨_, _, h⟩
  simp only [bind_eq_ok, pure_eq_ok, Prod.mk.injEq] at h
  obtain ⟨_, _, l₁, h₁, l₂, h₂, l₃, h₃, l₄, h₄, _, _, rfl, rfl⟩ := h
  have hget := insertManifest_get h₂
  rw [← insertRevision_manifests h₃, ← setHead_manifests h₄] at hget
  rw [Pins, (retireReused_rest _ _ _ _ _ _).2.2]
  exact congrArg (Option.map Manifest.content) hget

theorem publishReplace_pins {rt : Runtime} {expectedRevisionId : Option String} {expectedResourceId : Option Uuid}
    {prepared : PreparedPayload} {assetIds : List Uuid}
    (h : publishReplace rt l d r expectedRevisionId expectedResourceId prepared fp assetIds = .ok (res, l')) :
    Replayed l l' r fp res ∨ Pins l' res (some (prepared.digest, prepared.byteSize)) := by
  refine (inMutation_cases h).imp_right ?_
  rintro ⟨_, _, h⟩
  simp only [bind_eq_ok, pure_eq_ok, Prod.mk.injEq] at h
  obtain ⟨_, _, _, _, _, _, l₁, h₁, l₂, h₂, l₃, h₃, _, _, rfl, rfl⟩ := h
  have hget := insertManifest_get h₁
  rw [← insertRevision_manifests h₂, ← setHead_manifests h₃] at hget
  exact congrArg (Option.map Manifest.content) hget

theorem publishRestore_pins {expectedRevisionId : String} {expectedResourceId : Uuid} {prepared : PreparedPayload}
    {assetIds : List Uuid}
    (h : publishRestore l d r expectedRevisionId expectedResourceId prepared fp assetIds = .ok (res, l')) :
    Replayed l l' r fp res ∨ Pins l' res (some (prepared.digest, prepared.byteSize)) := by
  rw [publishRestore, conflictOn_eq_ok] at h
  refine (inMutation_cases h).imp_right ?_
  rintro ⟨_, _, h⟩
  simp only [bind_eq_ok, pure_eq_ok, Prod.mk.injEq] at h
  obtain ⟨_, _, _, _, _, _, _, _, _, _, _, _, l₁, h₁, l₂, h₂, l₃, h₃, _, _, rfl, rfl⟩ := h
  have hget := insertManifest_get h₁
  rw [← insertRevision_manifests h₂, ← setHead_manifests h₃] at hget
  rw [Pins, (retireReused_rest _ _ _ _ _ _).2.2]
  exact congrArg (Option.map Manifest.content) hget

theorem publishMove_pins {rt : Runtime} {pathTo : String} {expectedRevisionId : Option String}
    {expectedResourceId : Option Uuid}
    (h : publishMove rt l d r pathTo expectedRevisionId expectedResourceId fp = .ok (res, l')) :
    Replayed l l' r fp res ∨ Pins l' res (headContent l res.resourceId) := by
  rw [publishMove, conflictOn_eq_ok] at h
  refine (inMutation_cases h).imp_right ?_
  rintro ⟨_, revisionId, h⟩
  simp only [bind_eq_ok, pure_eq_ok, found_eq_ok, Prod.mk.injEq] at h
  obtain ⟨resource, _, _, _, _, _, _, _, _, _, head, hman, _, _, l₁, h₁, l₂, h₂, l₃, h₃, l₄, h₄, rfl, rfl⟩ := h
  obtain ⟨_, _, rfl, _⟩ := insertPathAlias_ok h₄
  have hcontent := copyManifest_content (headManifest_mem hman) h₁
  rw [← insertRevision_manifests h₂, ← setHead_manifests h₃] at hcontent
  have hkept := (retireReused_rest l₃ (findLiveAlias l r.namespaceId pathTo) r.namespaceId pathTo revisionId d.occurredAt).2.2
  have hhead : headContent l resource.resourceId = some head.content := congrArg (Option.map Manifest.content) hman
  refine (congrArg (fun t => (Table.get? t d.manifestId).map Manifest.content) hkept).trans ?_
  exact hcontent.trans hhead.symm

theorem publishDelete_pins {rt : Runtime} {expectedRevisionId : Option String} {expectedResourceId : Option Uuid}
    {retain : Bool} (h : publishDelete rt l d r expectedRevisionId expectedResourceId fp retain = .ok (res, l')) :
    Replayed l l' r fp res ∨ Pins l' res none := by
  refine (inMutation_cases h).imp_right ?_
  rintro ⟨_, _, h⟩
  simp only [bind_eq_ok, pure_eq_ok, Prod.mk.injEq] at h
  obtain ⟨_, _, _, _, _, _, _, _, _, _, rfl, rfl⟩ := h
  rfl

/-- A call that is no replay leaves a head that pins its body. -/
theorem run_pins {rt : Runtime} {call : NativeCall} (h : call.run rt l d = .ok (res, l')) :
    Replayed l l' call.request (fingerprint rt (call.fields rt)) res ∨
      Pins l' res (call.bodyAfter rt (headContent l res.resourceId)) := by
  cases call with
  | create r resourceId allow =>
    simp only [NativeCall.run, createText, bind_eq_ok] at h
    obtain ⟨_, _, prepared, hprepared, _, _, h⟩ := h
    obtain ⟨hdigest, hsize⟩ := prepareText_ok hprepared
    have hpins := publishCreate_pins h
    rw [hdigest, hsize] at hpins
    exact hpins
  | replace r expectedRevisionId expectedResourceId =>
    simp only [NativeCall.run, replaceText, bind_eq_ok] at h
    obtain ⟨_, _, _, _, prepared, hprepared, _, _, h⟩ := h
    obtain ⟨hdigest, hsize⟩ := prepareText_ok hprepared
    have hpins := publishReplace_pins h
    rw [hdigest, hsize] at hpins
    exact hpins
  | restore r expectedRevisionId expectedResourceId =>
    simp only [NativeCall.run, restoreText, bind_eq_ok] at h
    obtain ⟨_, _, _, _, prepared, hprepared, _, _, h⟩ := h
    obtain ⟨hdigest, hsize⟩ := prepareText_ok hprepared
    have hpins := publishRestore_pins h
    rw [hdigest, hsize] at hpins
    exact hpins
  | move r pathTo expectedRevisionId expectedResourceId =>
    simp only [NativeCall.run, moveText, bind_eq_ok] at h
    obtain ⟨_, _, _, _, _, _, _, _, h⟩ := h
    exact publishMove_pins h
  | delete r expectedRevisionId expectedResourceId retain =>
    simp only [NativeCall.run, deleteResource, bind_eq_ok] at h
    obtain ⟨_, _, _, _, h⟩ := h
    exact publishDelete_pins h

/-- The head of a Resource pins what its head Revision names. -/
theorem headContent_of_chain {x : Resource} (hx : x ∈ l.resources) {head : Revision} {chain : List Revision}
    (h : HeadChain l x head chain) :
    headContent l x.resourceId = (head.payloadManifestId.bind l.manifests.get?).map Manifest.content := by
  obtain ⟨hrev, hid⟩ := (h.complete head).mp h.walk.start_mem
  rw [headContent, headManifest_eq hx h.head_id hrev hid]

theorem headContent_of_absent {id : Uuid} (h : ∀ x ∈ l.resources, x.resourceId ≠ id) : headContent l id = none := by
  have hnone : l.resources.get? id = none := by
    cases hget : l.resources.get? id with
    | none => rfl
    | some x =>
      obtain ⟨hx, hid⟩ := Table.mem_of_get? hget
      exact absurd hid (h x hx)
  rw [headContent, headManifest, hnone]
  rfl

theorem payload_of_deleted (h : HistoryInvariant l) {x : Resource} {head : Revision} {chain : List Revision}
    (hchain : HeadChain l x head chain) (hdead : ¬ x.Live) : head.payloadManifestId = none := by
  have hdeleted : x.lifecycle = .deleted := by
    cases hl : x.lifecycle with
    | live => exact absurd hl hdead
    | deleted => rfl
  have hshape := h.shaped head ((hchain.complete head).mp hchain.walk.start_mem).1
  rw [Revision.actionShape, hchain.deleted_iff.mpr hdeleted] at hshape
  simp only [Bool.and_eq_true, Option.isNone_iff_eq_none] at hshape
  exact hshape.1.1.2

/-- A live Resource has a body, a deleted one has none. -/
theorem headContent_isSome_iff (h : HistoryInvariant l) {x : Resource} (hx : x ∈ l.resources) :
    (headContent l x.resourceId).isSome ↔ x.Live := by
  obtain ⟨head, chain, hchain⟩ := h.chains x hx
  rw [headContent_of_chain hx hchain]
  by_cases hlive : x.Live
  · obtain ⟨m, hm, hid⟩ := hchain.pinned hlive
    rw [hid, Option.bind_some, Table.get?_eq_some.mpr ⟨hm, rfl⟩]
    exact iff_of_true rfl hlive
  · rw [payload_of_deleted h hchain hlive]
    exact iff_of_false (by simp) hlive

/-- A mutation of one Resource leaves what the other heads pin. -/
theorem headContent_other (h : HistoryInvariant l) {resource : Resource} {rev : Revision}
    (hext : Extends l l' resource rev) {id : Uuid} (hid : id ≠ resource.resourceId) :
    headContent l' id = headContent l id := by
  by_cases hex : ∃ x ∈ l.resources, x.resourceId = id
  · obtain ⟨x, hx, rfl⟩ := hex
    obtain ⟨head, chain, hchain⟩ := h.chains x hx
    have hx' : x ∈ l'.resources := (hext.resources x).mpr (Or.inr ⟨hx, hid⟩)
    rw [headContent_of_chain hx hchain, headContent_of_chain hx' (headChain_other hext hid hchain)]
    by_cases hlive : x.Live
    · obtain ⟨m, hm, hpinned⟩ := hchain.pinned hlive
      rw [hpinned, Option.bind_some, Option.bind_some, Table.get?_eq_some.mpr ⟨hm, rfl⟩,
        Table.get?_eq_some.mpr ⟨hext.manifests m hm, rfl⟩]
    · rw [payload_of_deleted h hchain hlive]
      rfl
  · have habsent : ∀ x ∈ l.resources, x.resourceId ≠ id := fun x hx he => hex ⟨x, hx, he⟩
    rw [headContent_of_absent habsent, headContent_of_absent]
    intro x hx
    rcases (hext.resources x).mp hx with rfl | ⟨hx, -⟩
    · exact hid.symm
    · exact habsent x hx

end Heads

/-- The heads pin the recorded bodies. -/
structure Mirrors (b : Bodies) : Prop where
  history : HistoryInvariant b.ledger
  content : ∀ id, headContent b.ledger id = b.content id

theorem Bodies.perform_ledger (rt : Runtime) (b : Bodies) (step : Draws × NativeCall) :
    (b.perform rt step).ledger = Native.perform rt b.ledger step := by
  unfold Bodies.perform Native.perform
  cases step.2.run rt b.ledger step.1 <;> rfl

theorem Mirrors.empty : Mirrors .empty :=
  ⟨historyInvariant_empty, fun _ => headContent_of_absent (fun _ h => absurd h (by simp [Bodies.empty, Ledger.empty]))⟩

theorem Mirrors.perform (rt : Runtime) {b : Bodies} (h : Mirrors b) (step : Draws × NativeCall) :
    Mirrors (b.perform rt step) := by
  unfold Bodies.perform
  split
  · rename_i res l' hrun
    rcases run_cases hrun with ⟨_, _, _, rfl, rfl⟩ | ⟨hnew, resource, rev, hext, -, -, -, -, rfl⟩
    · exact h
    · have hpins := (run_pins hrun).resolve_left (by
        rintro ⟨prior, hprior, -⟩
        rw [hnew] at hprior
        cases hprior)
      have hinv := history_step h.history hext
      refine ⟨hinv, fun id => ?_⟩
      by_cases hid : id = resource.resourceId
      · obtain ⟨chain, hchain⟩ := headChain_head h.history hext
        rw [hid, headContent_of_chain ((hext.resources _).mpr (Or.inl rfl)) hchain, ← hext.same_resource]
        rw [h.content, Pins] at hpins
        simpa [fromRow] using hpins
      · rw [headContent_other h.history hext hid, h.content]
        simp [fromRow, hext.same_resource, hid]
  · exact h

/-- After every run from the empty ledger, the head of each Resource pins the digest and the size of the body that the
last accepted call on it brought: moves keep it, a deletion takes it away, replays and refused calls do not touch it. So
a Resource has a body exactly while it is live. -/
theorem heads_pin_last_bodies (rt : Runtime) (steps : List (Draws × NativeCall)) :
    (steps.foldl (Bodies.perform rt) .empty).ledger = performAll rt .empty steps ∧
    (∀ id, headContent (performAll rt .empty steps) id = (steps.foldl (Bodies.perform rt) .empty).content id) ∧
    ∀ x ∈ (performAll rt .empty steps).resources,
      ((steps.foldl (Bodies.perform rt) .empty).content x.resourceId).isSome ↔ x.Live := by
  have hrun : ∀ b : Bodies, Mirrors b →
      (steps.foldl (Bodies.perform rt) b).ledger = performAll rt b.ledger steps ∧
        Mirrors (steps.foldl (Bodies.perform rt) b) := by
    induction steps with
    | nil => exact fun b h => ⟨rfl, h⟩
    | cons step steps ih =>
      intro b h
      obtain ⟨hledger, hmirrors⟩ := ih (b.perform rt step) (h.perform rt step)
      rw [b.perform_ledger] at hledger
      exact ⟨hledger, hmirrors⟩
  obtain ⟨hledger, hmirrors⟩ := hrun .empty .empty
  have hcontent := hmirrors.content
  rw [hledger] at hcontent
  refine ⟨hledger, hcontent, fun x hx => ?_⟩
  rw [← hcontent]
  exact headContent_isSome_iff (historyInvariant_performAll rt steps) hx

end Akb.Native
