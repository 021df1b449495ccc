import Akb.Native.Publication

/-! A mutation id answers for the request it was first used with. -/
namespace Akb.Native
open Akb.Library

/-- Everything a fingerprint covers. Restoration has the content of a replacement. -/
inductive MutationContent where
  | body (action : Action) (request : Request) (bytes : ByteArray) (expectedRevisionId : Option String)
      (requestedResourceId expectedResourceId : Option Uuid) (allowUnavailableAssetRefs : Bool)
  | lifecycle (action : Action) (request : Request) (pathTo expectedRevisionId : Option String)
      (expectedResourceId : Option Uuid) (retainDocumentAssets : Bool)
  deriving DecidableEq

def NativeCall.content : NativeCall → MutationContent
  | .create r resourceId allow => .body .create r.toRequest r.payload.canonical none resourceId none allow
  | .replace r expectedRevisionId expectedResourceId =>
    .body .replace r.toRequest r.payload.canonical expectedRevisionId none expectedResourceId false
  | .restore r expectedRevisionId expectedResourceId =>
    .body .replace r.toRequest r.payload.canonical (some expectedRevisionId) none (some expectedResourceId) false
  | .move r pathTo expectedRevisionId expectedResourceId =>
    .lifecycle .move r (some pathTo) expectedRevisionId expectedResourceId true
  | .delete r expectedRevisionId expectedResourceId retain =>
    .lifecycle .delete r none expectedRevisionId expectedResourceId retain

def MutationContent.request : MutationContent → Request
  | .body _ r .. => r
  | .lifecycle _ r .. => r

def MutationContent.fields (rt : Runtime) : MutationContent → List Json.Field
  | .body action r bytes expectedRevisionId requestedResourceId expectedResourceId allow =>
    bodyFields action r (rt.sha256 bytes) bytes.size expectedRevisionId requestedResourceId expectedResourceId allow
  | .lifecycle action r pathTo expectedRevisionId expectedResourceId retain =>
    lifecycleFields action r pathTo expectedRevisionId expectedResourceId retain

theorem NativeCall.fields_eq (rt : Runtime) (call : NativeCall) : call.fields rt = call.content.fields rt := by
  cases call <;> rfl

theorem NativeCall.content_request (call : NativeCall) : call.content.request = call.request := by
  cases call <;> rfl

/-- The byte strings a request has hashed. -/
def MutationContent.hashed (rt : Runtime) : MutationContent → List ByteArray
  | .body action r bytes e q x a => [bytes, (Json.dumps ((MutationContent.body action r bytes e q x a).fields rt)).toUTF8]
  | .lifecycle action r p e x t => [(Json.dumps ((MutationContent.lifecycle action r p e x t).fields rt)).toUTF8]

/-- No two of these byte strings share a digest. -/
def CollisionFree (rt : Runtime) (texts : List ByteArray) : Prop :=
  ∀ a ∈ texts, ∀ b ∈ texts, rt.sha256 a = rt.sha256 b → a = b

instance (rt : Runtime) (texts : List ByteArray) : Decidable (CollisionFree rt texts) :=
  inferInstanceAs (Decidable (∀ a ∈ texts, ∀ b ∈ texts, _ → _))

theorem optional_injective : Function.Injective optional := by
  intro a b h
  cases a <;> cases b <;> simp_all [optional]

theorem Action.text_injective : Function.Injective Action.text := by
  intro a b h
  cases a <;> cases b <;> first | rfl | exact absurd h (by decide)

theorem Surface.text_injective : Function.Injective Surface.text := by
  intro a b h
  cases a <;> cases b <;> first | rfl | exact absurd h (by decide)

theorem optional_uuid_injective {a b : Option Uuid} (h : optional (a.map Uuid.str) = optional (b.map Uuid.str)) :
    a = b :=
  Option.map_injective Uuid.str_injective (optional_injective h)

/-- The texts of a request, and the mutation id they leave out, give it back. -/
private theorem request_of_texts {r r' : Request} (hm : r.mutationId = r'.mutationId)
    (hnamespace : r.namespaceId.str = r'.namespaceId.str) (hsurface : r.surface.text = r'.surface.text)
    (hpath : r.path = r'.path) (hactor : r.actor = r'.actor) (hmessage : optional r.message = optional r'.message)
    (hsubject : optional r.subject = optional r'.subject) (hsummary : optional r.summary = optional r'.summary) :
    r = r' := by
  cases r
  cases r'
  simp only [Request.mk.injEq]
  exact ⟨Uuid.str_injective hnamespace, Surface.text_injective hsurface, hpath, hactor, hm,
    optional_injective hmessage, optional_injective hsubject, optional_injective hsummary⟩

private theorem bodyFields_inj {action action' : Action} {r r' : Request} {digest digest' : String}
    {size size' : Nat} {e e' : Option String} {q q' x x' : Option Uuid} {allow allow' : Bool}
    (h : ∀ f, f ∈ bodyFields action r digest size e q x allow ↔
      f ∈ bodyFields action' r' digest' size' e' q' x' allow')
    (hm : r.mutationId = r'.mutationId) :
    action = action' ∧ r = r' ∧ digest = digest' ∧ e = e' ∧ q = q' ∧ x = x' ∧ allow = allow' := by
  -- The flag is a field only when it is set, so it decides the keys.
  have hallow : allow = allow' := by
    have hflag := h ("allow_unavailable_asset_refs", .bool true)
    cases allow <;> cases allow' <;> simp [bodyFields] at hflag ⊢
  subst hallow
  have heq := Json.fields_ext (by cases allow <;> simp [bodyFields]) (by cases allow <;> simp [bodyFields]) h
  simp only [bodyFields, List.append_cancel_right_eq, List.cons.injEq, Prod.mk.injEq, Json.Scalar.str.injEq,
    true_and, and_true] at heq
  obtain ⟨haction, hns, hsurface, hpath, hdigest, _, he, hactor, hmessage, hsubject, hsummary, hq, hx⟩ := heq
  exact ⟨Action.text_injective haction, request_of_texts hm hns hsurface hpath hactor hmessage hsubject hsummary,
    hdigest, optional_injective he, optional_uuid_injective hq, optional_uuid_injective hx, rfl⟩

private theorem lifecycleFields_inj {action action' : Action} {r r' : Request} {p p' e e' : Option String}
    {x x' : Option Uuid} {retain retain' : Bool}
    (h : ∀ f, f ∈ lifecycleFields action r p e x retain ↔ f ∈ lifecycleFields action' r' p' e' x' retain')
    (hm : r.mutationId = r'.mutationId) :
    action = action' ∧ r = r' ∧ p = p' ∧ e = e' ∧ x = x' ∧ retain = retain' := by
  have hretain : retain = retain' := by
    have hflag := h ("retain_document_assets", .bool false)
    cases retain <;> cases retain' <;> simp [lifecycleFields] at hflag ⊢
  subst hretain
  have heq := Json.fields_ext (by cases retain <;> simp [lifecycleFields])
    (by cases retain <;> simp [lifecycleFields]) h
  simp only [lifecycleFields, List.append_cancel_right_eq, List.cons.injEq, Prod.mk.injEq, Json.Scalar.str.injEq,
    true_and, and_true] at heq
  obtain ⟨haction, hns, hsurface, hpath, hp, he, hactor, hmessage, hsubject, hsummary, hx⟩ := heq
  exact ⟨Action.text_injective haction, request_of_texts hm hns hsurface hpath hactor hmessage hsubject hsummary,
    optional_injective hp, optional_injective he, optional_uuid_injective hx, rfl⟩

/-- Only a body has a payload digest. -/
private theorem bodyFields_ne_lifecycleFields {action action' : Action} {r r' : Request} {digest : String}
    {size : Nat} {e p' e' : Option String} {q x x' : Option Uuid} {allow retain' : Bool} :
    ¬ ∀ f, f ∈ bodyFields action r digest size e q x allow ↔ f ∈ lifecycleFields action' r' p' e' x' retain' := by
  intro h
  have hdigest := h ("payload_digest", .str digest)
  cases retain' <;> simp [bodyFields, lifecycleFields] at hdigest

/-- Under one mutation id, one fingerprint is one content. -/
theorem fingerprint_eq_iff (rt : Runtime) {c c' : MutationContent}
    (hm : c.request.mutationId = c'.request.mutationId) (hsha : CollisionFree rt (c.hashed rt ++ c'.hashed rt)) :
    fingerprint rt (c.fields rt) = fingerprint rt (c'.fields rt) ↔ c = c' := by
  refine ⟨fun h => ?_, fun h => by rw [h]⟩
  have htext (c : MutationContent) : (Json.dumps (c.fields rt)).toUTF8 ∈ c.hashed rt := by
    cases c <;> simp [MutationContent.hashed]
  have hfields := Json.dumps_inj (String.toByteArray_inj.mp
    (hsha _ (List.mem_append_left _ (htext c)) _ (List.mem_append_right _ (htext c')) h))
  cases c with
  | body action r bytes e q x allow =>
    cases c' with
    | body action' r' bytes' e' q' x' allow' =>
      obtain ⟨rfl, rfl, hdigest, rfl, rfl, rfl, rfl⟩ := bodyFields_inj hfields hm
      rw [hsha bytes (by simp [MutationContent.hashed]) bytes' (by simp [MutationContent.hashed]) hdigest]
    | lifecycle => exact absurd hfields bodyFields_ne_lifecycleFields
  | lifecycle action r p e x retain =>
    cases c' with
    | body => exact absurd (fun f => (hfields f).symm) bodyFields_ne_lifecycleFields
    | lifecycle action' r' p' e' x' retain' =>
      obtain ⟨rfl, rfl, rfl, rfl, rfl, rfl⟩ := lifecycleFields_inj hfields hm
      rfl

/-- A mutation id has one Revision in its namespace. -/
def MutationsUnique (l : Ledger) : Prop :=
  ∀ a ∈ l.revisions, ∀ b ∈ l.revisions, a.namespaceId = b.namespaceId → a.mutationId = b.mutationId → a = b

theorem mutationsUnique_step {l l' : Ledger} {resource : Resource} {rev : Revision} (h : MutationsUnique l)
    (hext : Extends l l' resource rev) : MutationsUnique l' := by
  intro a ha b hb hn hm
  rcases (hext.revisions a).mp ha with rfl | ha <;> rcases (hext.revisions b).mp hb with rfl | hb
  · rfl
  · exact absurd ⟨hn.symm, hm.symm⟩ (hext.fresh_mutation b hb)
  · exact absurd ⟨hn, hm⟩ (hext.fresh_mutation a ha)
  · exact h a ha b hb hn hm

theorem mutationsUnique_performAll (rt : Runtime) {l : Ledger} (h : MutationsUnique l)
    (steps : List (Draws × NativeCall)) : MutationsUnique (performAll rt l steps) :=
  performAll_invariant rt (fun _ _ _ _ h hext _ => mutationsUnique_step h hext) steps h

theorem mutationsUnique_empty : MutationsUnique .empty :=
  fun a ha => absurd ha (Table.not_mem_empty a)

/-- Revisions are never taken back. -/
theorem revision_performAll (rt : Runtime) {l : Ledger} {rev : Revision} (h : rev ∈ l.revisions)
    (steps : List (Draws × NativeCall)) : rev ∈ (performAll rt l steps).revisions :=
  performAll_invariant (I := fun l => rev ∈ l.revisions) rt
    (fun _ _ _ _ h hext _ => (hext.revisions rev).mpr (Or.inr h)) steps h

theorem findMutation_of_mem {l : Ledger} (h : MutationsUnique l) {rev : Revision} (hrev : rev ∈ l.revisions) :
    findMutation l rev.namespaceId rev.mutationId = some rev := by
  cases hf : findMutation l rev.namespaceId rev.mutationId with
  | none => exact absurd ⟨rfl, rfl⟩ (findMutation_eq_none.mp hf rev hrev)
  | some found =>
    obtain ⟨hmem, hn, hm⟩ := findMutation_eq_some hf
    rw [h found hmem rev hrev hn hm]

/-- One of the tokens a call draws is not a Revision yet. -/
def Draws.Usable (d : Draws) (l : Ledger) : Prop := ∃ i, ∀ r ∈ l.revisions, r.revisionId ≠ d.candidates i

instance (d : Draws) (l : Ledger) : Decidable (d.Usable l) :=
  inferInstanceAs (Decidable (∃ i, ∀ r ∈ l.revisions.rows, r.revisionId ≠ d.candidates i))

theorem allocateRevisionId_of_usable {l : Ledger} {d : Draws} (h : d.Usable l) :
    ∃ revisionId, allocateRevisionId l d = .ok revisionId := by
  obtain ⟨i, hi⟩ := h
  have hsome : ((List.ofFn d.candidates).find? (fun c => (l.revisions.get? c).isNone)).isSome := by
    rw [List.find?_isSome]
    exact ⟨d.candidates i, List.mem_ofFn.mpr ⟨i, rfl⟩, by rw [Table.get?_eq_none.mpr hi]; rfl⟩
  obtain ⟨revisionId, hf⟩ := Option.isSome_iff_exists.mp hsome
  exact ⟨revisionId, found_eq_ok.mpr hf⟩

/-- What a recorded mutation answers to a call with a fingerprint. -/
def answer (l : Ledger) (prior : Revision) (fp : String) : Except NativeError (NativeMutationResult × Ledger) :=
  if prior.requestFingerprint = fp then .ok (fromRow prior true, l) else .error keyReused

theorem inMutation_of_prior {l : Ledger} {d : Draws} {r : Request} {fp : String}
    {publish : RevisionId → Except NativeError (NativeMutationResult × Ledger)} {prior : Revision}
    (hd : d.Usable l) (hprior : findMutation l r.namespaceId r.mutationId = some prior) :
    inMutation l d r fp publish = answer l prior fp := by
  obtain ⟨revisionId, ha⟩ := allocateRevisionId_of_usable hd
  rw [inMutation, ha, ok_bind, hprior, answer]
  by_cases hfp : prior.requestFingerprint = fp
  · simp only [refuse, hfp, ne_eq, not_true_eq_false, if_false, if_true, ok_bind]
    rfl
  · simp only [refuse, hfp, ne_eq, not_false_eq_true, if_false, if_true]
    rfl

theorem conflictOn_answer {constraints : List String} {path : String} {l : Ledger} {prior : Revision} {fp : String} :
    conflictOn constraints path (answer l prior fp) = answer l prior fp := by
  unfold answer
  split <;> rfl

theorem prepareText_of_verified {rt : Runtime} (payloadId : Uuid) {r : BodyRequest} {v : ByteArray × String}
    (h : verifiedBytes rt r = .ok v) : ∃ prepared, prepareText rt payloadId r = .ok prepared := by
  rw [prepareText, h]
  exact ⟨_, rfl⟩

/-- A checked call whose mutation id is recorded is answered from the record. -/
theorem run_of_prior {rt : Runtime} {l : Ledger} {d : Draws} {call : NativeCall} {prior : Revision}
    (hcheck : call.check rt = .ok ()) (hd : d.Usable l)
    (hprior : findMutation l call.request.namespaceId call.request.mutationId = some prior) :
    call.run rt l d = answer l prior (fingerprint rt (call.fields rt)) := by
  cases call with
  | create r resourceId allow =>
    simp only [NativeCall.check, bind_eq_ok] at hcheck
    obtain ⟨_, hcommon, _, hbytes, _, himages, _⟩ := hcheck
    obtain ⟨prepared, hprepared⟩ := prepareText_of_verified d.payloadId hbytes
    obtain ⟨hdigest, hsize⟩ := prepareText_ok hprepared
    simp only [NativeCall.run, createText, hcommon, hprepared, himages, ok_bind, publishCreate, hdigest, hsize]
    rw [inMutation_of_prior (r := r.toRequest) hd hprior, conflictOn_answer]
    rfl
  | replace r expectedRevisionId expectedResourceId =>
    simp only [NativeCall.check, bind_eq_ok] at hcheck
    obtain ⟨_, hcommon, _, hrevision, _, hbytes, _, himages, _⟩ := hcheck
    obtain ⟨prepared, hprepared⟩ := prepareText_of_verified d.payloadId hbytes
    obtain ⟨hdigest, hsize⟩ := prepareText_ok hprepared
    simp only [NativeCall.run, replaceText, hcommon, hrevision, hprepared, himages, ok_bind, publishReplace, hdigest,
      hsize]
    rw [inMutation_of_prior (r := r.toRequest) hd hprior]
    rfl
  | restore r expectedRevisionId expectedResourceId =>
    simp only [NativeCall.check, bind_eq_ok] at hcheck
    obtain ⟨_, hcommon, _, hrevision, _, hbytes, _, himages, _⟩ := hcheck
    obtain ⟨prepared, hprepared⟩ := prepareText_of_verified d.payloadId hbytes
    obtain ⟨hdigest, hsize⟩ := prepareText_ok hprepared
    simp only [NativeCall.run, restoreText, hcommon, hrevision, hprepared, himages, ok_bind, publishRestore, hdigest,
      hsize]
    rw [inMutation_of_prior (r := r.toRequest) hd hprior, conflictOn_answer]
    rfl
  | move r pathTo expectedRevisionId expectedResourceId =>
    simp only [NativeCall.check, bind_eq_ok] at hcheck
    obtain ⟨_, hcommon, _, hblank, _, hsame, hrevision⟩ := hcheck
    simp only [NativeCall.run, moveText, hcommon, hblank, hsame, hrevision, ok_bind, publishMove]
    rw [inMutation_of_prior (r := r) hd hprior, conflictOn_answer]
    rfl
  | delete r expectedRevisionId expectedResourceId retain =>
    simp only [NativeCall.check, bind_eq_ok] at hcheck
    obtain ⟨_, hcommon, hrevision⟩ := hcheck
    simp only [NativeCall.run, deleteResource, hcommon, hrevision, ok_bind, publishDelete]
    rw [inMutation_of_prior (r := r) hd hprior]
    rfl

/-- A call that returned had passed its checks. -/
theorem check_of_run {rt : Runtime} {l : Ledger} {d : Draws} {call : NativeCall}
    {out : NativeMutationResult × Ledger} (h : call.run rt l d = .ok out) : call.check rt = .ok () := by
  have hverified {payloadId : Uuid} {r : BodyRequest} {prepared : PreparedPayload}
      (hp : prepareText rt payloadId r = .ok prepared) : ∃ v, verifiedBytes rt r = .ok v := by
    simp only [prepareText, bind_eq_ok] at hp
    exact hp.imp (fun _ hv => hv.1)
  cases call with
  | create r resourceId allow =>
    simp only [NativeCall.run, createText, bind_eq_ok] at h
    obtain ⟨_, hcommon, prepared, hprepared, _, himages, _⟩ := h
    obtain ⟨v, hv⟩ := hverified hprepared
    rw [NativeCall.check, hcommon, ok_bind, hv, ok_bind, himages]
    rfl
  | replace r expectedRevisionId expectedResourceId =>
    simp only [NativeCall.run, replaceText, bind_eq_ok] at h
    obtain ⟨_, hcommon, _, hrevision, prepared, hprepared, _, himages, _⟩ := h
    obtain ⟨v, hv⟩ := hverified hprepared
    rw [NativeCall.check, hcommon, ok_bind, hrevision, ok_bind, hv, ok_bind, himages]
    rfl
  | restore r expectedRevisionId expectedResourceId =>
    simp only [NativeCall.run, restoreText, bind_eq_ok] at h
    obtain ⟨_, hcommon, _, hrevision, prepared, hprepared, _, himages, _⟩ := h
    obtain ⟨v, hv⟩ := hverified hprepared
    rw [NativeCall.check, hcommon, ok_bind, hrevision, ok_bind, hv, ok_bind, himages]
    rfl
  | move r pathTo expectedRevisionId expectedResourceId =>
    simp only [NativeCall.run, moveText, bind_eq_ok] at h
    obtain ⟨_, hcommon, _, hblank, _, hsame, _, hrevision, _⟩ := h
    rw [NativeCall.check, hcommon, ok_bind, hblank, ok_bind, hsame, ok_bind, hrevision]
  | delete r expectedRevisionId expectedResourceId retain =>
    simp only [NativeCall.run, deleteResource, bind_eq_ok] at h
    obtain ⟨_, hcommon, _, hrevision, _⟩ := h
    rw [NativeCall.check, hcommon, ok_bind, hrevision]

/-- A call that returned left the Revision that records it. -/
theorem recorded_of_run {rt : Runtime} {l l' : Ledger} {d : Draws} {call : NativeCall} {res : NativeMutationResult}
    (hl : MutationsUnique l) (h : call.run rt l d = .ok (res, l')) :
    MutationsUnique l' ∧ ∃ rev ∈ l'.revisions, rev.namespaceId = call.request.namespaceId ∧
      rev.mutationId = call.request.mutationId ∧ rev.requestFingerprint = fingerprint rt (call.fields rt) ∧
      { res with idempotentReplay := true } = fromRow rev true := by
  rcases run_cases h with ⟨prior, hprior, hfp, rfl, rfl⟩ | ⟨_, resource, rev, hext, _, hn, hm, hfp, rfl⟩
  · obtain ⟨hmem, hn, hm⟩ := findMutation_eq_some hprior
    exact ⟨hl, prior, hmem, hn, hm, hfp, rfl⟩
  · exact ⟨mutationsUnique_step hl hext, rev, (hext.revisions rev).mpr (Or.inl rfl), hn, hm, hfp, rfl⟩

theorem run_of_isOk {rt : Runtime} {l : Ledger} {d : Draws} {call : NativeCall} (h : (call.run rt l d).isOk) :
    ∃ res, call.run rt l d = .ok (res, perform rt l (d, call)) := by
  unfold perform
  cases hrun : call.run rt l d with
  | error e => rw [hrun] at h; cases h
  | ok out => exact ⟨out.1, rfl⟩

/-- Whatever happened before and in between, a mutation id answers for the content
it was first used with: a repeated call gets the recorded result, as does a call of
the same content, and any other content is refused as a conflict. The ledger stays. -/
theorem mutation_id_answers (rt : Runtime) (before between : List (Draws × NativeCall)) (d d' : Draws)
    (first again : NativeCall) (res : NativeMutationResult) (l : Ledger)
    (hfirst : first.run rt (performAll rt .empty before) d = .ok (res, l))
    (hnamespace : again.request.namespaceId = first.request.namespaceId)
    (hmutation : again.request.mutationId = first.request.mutationId)
    (hd : d'.Usable (performAll rt l between))
    (hsha : CollisionFree rt (first.content.hashed rt ++ again.content.hashed rt)) :
    (again = first ∨ (again.check rt = .ok () ∧ again.content = first.content) →
      again.run rt (performAll rt l between) d' =
        .ok ({ res with idempotentReplay := true }, performAll rt l between)) ∧
    (again.check rt = .ok () ∧ again.content ≠ first.content →
      (∃ e, again.run rt (performAll rt l between) d' = .error e ∧ e.isConflict) ∧
      perform rt (performAll rt l between) (d', again) = performAll rt l between) := by
  obtain ⟨hl, rev, hrev, hn, hm, hfp, hres⟩ :=
    recorded_of_run (mutationsUnique_performAll rt mutationsUnique_empty before) hfirst
  have hprior := findMutation_of_mem (mutationsUnique_performAll rt hl between) (revision_performAll rt hrev between)
  rw [hn, hm, ← hnamespace, ← hmutation] at hprior
  have hanswer (hcheck : again.check rt = .ok ()) := run_of_prior hcheck hd hprior
  have hiff : rev.requestFingerprint = fingerprint rt (again.fields rt) ↔ again.content = first.content := by
    rw [hfp, first.fields_eq, again.fields_eq, fingerprint_eq_iff rt _ hsha]
    · exact eq_comm
    · rw [first.content_request, again.content_request, hmutation]
  constructor
  · intro h
    have hsame : again.check rt = .ok () ∧ again.content = first.content := by
      rcases h with rfl | h
      · exact ⟨check_of_run hfirst, rfl⟩
      · exact h
    rw [hanswer hsame.1, answer, if_pos (hiff.mpr hsame.2), hres]
  · rintro ⟨hcheck, hne⟩
    have hrun : again.run rt (performAll rt l between) d' = .error keyReused := by
      rw [hanswer hcheck, answer, if_neg (fun h => hne (hiff.mp h))]
    exact ⟨⟨keyReused, hrun, rfl⟩, by rw [perform, hrun]⟩

/-! ### Retrying in the short run -/

/-- A table of distinct digests has no collision among its texts. -/
theorem collisionFree_of_digests {rt : Runtime} {digests : List (ByteArray × String)}
    (hrt : ∀ text, rt.sha256 text = (digests.find? (fun entry => entry.1 = text)).elim "" Prod.snd)
    (hnodup : (digests.map Prod.snd).Nodup) {texts : List ByteArray}
    (h : ∀ text ∈ texts, text ∈ digests.map Prod.fst) : CollisionFree rt texts := by
  have hentry (text : ByteArray) (ht : text ∈ texts) : (text, rt.sha256 text) ∈ digests := by
    rw [hrt]
    cases hf : digests.find? (fun entry => entry.1 = text) with
    | none =>
      obtain ⟨entry, hm, rfl⟩ := List.mem_map.mp (h text ht)
      simpa using List.find?_eq_none.mp hf entry hm
    | some entry =>
      have hkey : entry.1 = text := by simpa using List.find?_some hf
      exact hkey ▸ List.mem_of_find?_eq_some hf
  intro a ha b hb hab
  exact congrArg Prod.fst (List.inj_on_of_nodup_map hnodup (hentry a ha) (hentry b hb) hab)

/-- The ledger after the replacement, and after the deletion. -/
def sampleReplaced : Ledger := perform sampleRuntime (performAll sampleRuntime .empty (sampleSteps.take 1))
  (sampleDraws (sampleRevisionId '1' sampleId_one) 0x21 2, sampleReplace)

def sampleDeleted : Ledger := performAll sampleRuntime sampleReplaced (sampleSteps.drop 2)

def sampleRetryDraws : Draws := sampleDraws (sampleRevisionId '3' sampleId_three) 0x23 4

theorem sample_replaced :
    ∃ res, sampleReplace.run sampleRuntime (performAll sampleRuntime .empty (sampleSteps.take 1))
      (sampleDraws (sampleRevisionId '1' sampleId_one) 0x21 2) = .ok (res, sampleReplaced) := by
  refine run_of_isOk ?_
  decide +kernel

theorem sample_collisionFree {again : NativeCall} (h : again = sampleReplace ∨ again = sampleDelete 2) :
    CollisionFree sampleRuntime
      (sampleReplace.content.hashed sampleRuntime ++ again.content.hashed sampleRuntime) := by
  have hdigest : sampleRuntime.sha256 "y".toUTF8 =
      "a1fce4363854ff888cff4b8e7875d600c2682390412a8cf79b37d0b11148b0fa" := by decide
  have hsize : "y".toUTF8.size = 1 := by decide
  have hreplace (text : ByteArray) (ht : text ∈ sampleReplace.content.hashed sampleRuntime) :
      text ∈ sampleDigests.map Prod.fst := by
    simp only [sampleReplace, NativeCall.content, MutationContent.hashed, MutationContent.fields, Payload.canonical,
      hdigest, hsize, List.mem_cons, List.not_mem_nil, or_false] at ht
    simp only [sampleDigests, List.map_cons, List.mem_cons]
    rcases ht with ht | ht
    · exact Or.inr (Or.inl ht)
    · exact Or.inr (Or.inr (Or.inr (Or.inl ht)))
  refine collisionFree_of_digests (fun _ => rfl) (by decide) (fun text ht => ?_)
  rcases List.mem_append.mp ht with ht | ht
  · exact hreplace text ht
  · rcases h with rfl | rfl
    · exact hreplace text ht
    · rw [List.mem_singleton.mp ht]
      simp only [sampleDigests, List.map_cons, List.mem_cons]
      exact Or.inr (Or.inr (Or.inr (Or.inr (Or.inl rfl))))

/-- The replacement is answered again after the Resource was deleted, and its
mutation id is refused to a deletion. -/
theorem mutation_id_answers_deleted :
    ∃ res, sampleReplace.run sampleRuntime (performAll sampleRuntime .empty (sampleSteps.take 1))
        (sampleDraws (sampleRevisionId '1' sampleId_one) 0x21 2) = .ok (res, sampleReplaced) ∧
      sampleReplace.run sampleRuntime sampleDeleted sampleRetryDraws =
        .ok ({ res with idempotentReplay := true }, sampleDeleted) ∧
      perform sampleRuntime sampleDeleted (sampleRetryDraws, sampleDelete 2) = sampleDeleted := by
  obtain ⟨res, hrun⟩ := sample_replaced
  have hd : sampleRetryDraws.Usable sampleDeleted := by decide +kernel
  have hreplay := mutation_id_answers sampleRuntime (sampleSteps.take 1) (sampleSteps.drop 2) _ sampleRetryDraws
    sampleReplace sampleReplace res sampleReplaced hrun rfl rfl hd (sample_collisionFree (Or.inl rfl))
  have hrefuse := mutation_id_answers sampleRuntime (sampleSteps.take 1) (sampleSteps.drop 2) _ sampleRetryDraws
    sampleReplace (sampleDelete 2) res sampleReplaced hrun rfl rfl hd (sample_collisionFree (Or.inr rfl))
  exact ⟨res, hrun, hreplay.1 (Or.inl rfl), (hrefuse.2 ⟨by decide +kernel, by decide +kernel⟩).2⟩

def sampleRestore : NativeCall :=
  .restore ⟨sampleRequest 2, .text "y", none, none⟩ (sampleRevisionId '0' sampleId_zero).text 0x10

/-- A restoration with the arguments of a committed replacement is another
operation, and is answered with the replacement's result all the same. -/
theorem restore_replays_replace :
    ∃ res, sampleReplace.run sampleRuntime (performAll sampleRuntime .empty (sampleSteps.take 1))
        (sampleDraws (sampleRevisionId '1' sampleId_one) 0x21 2) = .ok (res, sampleReplaced) ∧
      sampleRestore ≠ sampleReplace ∧ sampleRestore.request = sampleReplace.request ∧
      sampleRestore.run sampleRuntime sampleReplaced sampleRetryDraws =
        .ok ({ res with idempotentReplay := true }, sampleReplaced) := by
  obtain ⟨res, hrun⟩ := sample_replaced
  obtain ⟨hl, rev, hrev, hn, hm, hfp, hres⟩ :=
    recorded_of_run (mutationsUnique_performAll sampleRuntime mutationsUnique_empty (sampleSteps.take 1)) hrun
  have hprior := findMutation_of_mem hl hrev
  rw [hn, hm] at hprior
  refine ⟨res, hrun, by decide +kernel, rfl, ?_⟩
  have hfields : sampleRestore.fields sampleRuntime = sampleReplace.fields sampleRuntime := by
    simp only [sampleRestore, sampleReplace, NativeCall.fields]
  have hcheck : sampleRestore.check sampleRuntime = .ok () := by decide +kernel
  have hd : sampleRetryDraws.Usable sampleReplaced := by decide +kernel
  have hrestore := run_of_prior hcheck hd hprior
  rw [hrestore, answer, hfields, if_pos hfp, hres]

end Akb.Native
