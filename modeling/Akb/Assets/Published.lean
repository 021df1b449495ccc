import Akb.Assets.Writes

/-! What a committed write leaves behind: the document's new references, and references to the Revision before. -/
namespace Akb.Assets
open Akb.Library
variable {B : Type*}

/-- Rows of `vault_files` are there still, as confirmed and as claimed as before. -/
def Grown (files files' : Files) : Prop :=
  ∀ f ∈ files, ∃ g ∈ files', g.id = f.id ∧ g.vault = f.vault ∧ (f.ConfirmedAttachment → g.ConfirmedAttachment) ∧
    (f.attachmentClaimedAt ≠ none → g.attachmentClaimedAt ≠ none)

theorem Grown.refl (files : Files) : Grown files files := fun f hf => ⟨f, hf, rfl, rfl, id, id⟩

theorem grown_claimReferences (files : Files) (vault : Id) (found : List Id) (started : Time) :
    Grown files (claimReferences files vault found started) := by
  intro f hf
  obtain ⟨g, hg, hid, hvault, hconfirmed, hclaimed, -⟩ := claimReferences_row vault found started hf
  exact ⟨g, hg, hid, hvault, hconfirmed, hclaimed⟩

theorem grown_finalizeFile (files : Files) (id : Id) (now : Time) : Grown files (finalizeFile files id now) := by
  intro f hf
  by_cases hid : f.id = id
  · exact ⟨_, Table.mem_updateWhere.mpr (.inl ⟨f, hf, decide_eq_true hid, rfl⟩), rfl, rfl,
      fun h => ⟨h.1, rfl, Option.some_ne_none _⟩, fun h => h⟩
  · exact ⟨f, Table.mem_updateWhere.mpr (.inr ⟨hf, decide_eq_false hid⟩), rfl, rfl, fun h => h, fun h => h⟩

/-- An image that a write found. -/
def Available (files : Files) (vault a : Id) : Prop := ∃ f ∈ files, f.id = a ∧ f.vault = vault ∧ f.ConfirmedAttachment

/-- An available image that a write has claimed. -/
def Kept (files : Files) (vault a : Id) : Prop :=
  ∃ f ∈ files, f.id = a ∧ f.vault = vault ∧ f.ConfirmedAttachment ∧ f.attachmentClaimedAt ≠ none

theorem Grown.available {files files' : Files} (h : Grown files files') {vault a : Id} (ha : Available files vault a) :
    Available files' vault a := by
  obtain ⟨f, hf, rfl, rfl, hc⟩ := ha
  obtain ⟨g, hg, hid, hvault, hconfirmed, -⟩ := h f hf
  exact ⟨g, hg, hid, hvault, hconfirmed hc⟩

theorem Grown.kept {files files' : Files} (h : Grown files files') {vault a : Id} (ha : Kept files vault a) :
    Kept files' vault a := by
  obtain ⟨f, hf, rfl, rfl, hc, hk⟩ := ha
  obtain ⟨g, hg, hid, hvault, hconfirmed, hclaimed⟩ := h f hf
  exact ⟨g, hg, hid, hvault, hconfirmed hc, hclaimed hk⟩

theorem kept_claimReferences {files : Files} {vault a : Id} {found : List Id} {started : Time} (ha : Available files vault a)
    (hfound : a ∈ found) : Kept (claimReferences files vault found started) vault a := by
  obtain ⟨f, hf, rfl, rfl, hc⟩ := ha
  obtain ⟨g, hg, hid, hvault, hconfirmed, -, hclaimed⟩ := claimReferences_row f.vault found started hf
  exact ⟨g, hg, hid, hvault, hconfirmed hc, hclaimed rfl hfound⟩

/-- What a committed write of `owner` does: `shows` is the document as it is now, if it is live, with the images `ids`,
and the Revision before it is referred to for each image that `carried` names. -/
structure Published (t t' : Tables B) (owner : DocumentAssetOwner) (retainUntil : Time) (shows : Option (Document B))
    (ids : Id → Prop) (carried : Document B → Id → Prop) : Prop where
  files : Grown t.files t'.files
  live_other : ∀ l ∈ t.live, l.owner ≠ owner → l ∈ t'.live
  live_shown : ∀ d ∈ shows, ∀ a, ids a → ⟨owner, d.vault, a⟩ ∈ t'.live
  live_from : ∀ l ∈ t'.live, (l ∈ t.live ∧ (shows = none → l.owner ≠ owner)) ∨ ∃ d ∈ shows, l.owner = owner ∧ l.vault = d.vault
  documents_other : ∀ d, d.owner ≠ owner → (d ∈ t'.documents ↔ d ∈ t.documents)
  document_shown : ∀ d, d.owner = owner → (d ∈ t'.documents ∧ d.live = true ↔ d ∈ shows)
  covered : ∀ vault a time, Covered t.revisions vault a time → Covered t'.revisions vault a time
  retained : ∀ p ∈ t.documents, p.owner = owner → p.live = true → ∀ a, carried p a → Covered t'.revisions p.vault a retainUntil

/-- The parent of a write has the vault of its live references. -/
def VaultOf (t : Tables B) (owner : DocumentAssetOwner) (vault : Id) : Prop := ∀ l ∈ t.live, l.owner = owner → l.vault = vault

theorem covered_retainCurrent {t : Tables B} {owner : DocumentAssetOwner} {vault a : Id} {path commit : Text} {time retainUntil : Time}
    {v : Id} (h : Covered t.revisions v a time) :
    Covered (retainCurrentDocumentAssets t.revisions t.live owner vault path commit retainUntil) v a time := by
  rw [retainCurrentDocumentAssets]
  split
  · exact h
  · exact h.retain _

theorem covered_retainCurrent_live {t : Tables B} {owner : DocumentAssetOwner} {vault a : Id} {path commit : Text}
    {retainUntil : Time} (hcommit : commit ≠ []) (h : ⟨owner, vault, a⟩ ∈ t.live) :
    Covered (retainCurrentDocumentAssets t.revisions t.live owner vault path commit retainUntil) vault a retainUntil := by
  rw [retainCurrentDocumentAssets, if_neg hcommit]
  exact covered_retained (mem_liveAssetIds.mpr h)

section Sync
variable {t : Tables B} {d : Document B} {ids : List Id} {retainUntil : Time}

theorem covered_sync {vault a : Id} {time : Time} (previous : Option (Document B)) (h : Covered t.revisions vault a time) :
    Covered (t.sync d ids retainUntil previous).revisions vault a time := by
  cases previous with
  | none => exact h.retain _
  | some p => exact (covered_retainCurrent h).retain _

/-- A document synchronised in tables where images have been claimed and references retained. -/
theorem Published.sync {t₀ : Tables B} {carried : Document B → Id → Prop} (previous : Option (Document B))
    (hfiles : Grown t₀.files t.files) (hlives : t.live = t₀.live) (hdocuments : t.documents = t₀.documents)
    (hcovered : ∀ vault a time, Covered t₀.revisions vault a time → Covered t.revisions vault a time)
    (hvault : VaultOf t₀ d.owner d.vault) (hlive : d.live = true)
    (hretained : ∀ p ∈ t₀.documents, p.owner = d.owner → p.live = true → ∀ a, carried p a →
      Covered (t.sync d ids retainUntil previous).revisions p.vault a retainUntil) :
    Published t₀ (t.sync d ids retainUntil previous) d.owner retainUntil (some d) (· ∈ ids) carried where
  files := hfiles
  live_other _ hl hne := mem_replaceLive_of_ne (hlives ▸ hl) hne
  live_shown e he a ha := by
    cases Option.mem_some_iff.mp he
    exact mem_replaceLive_of_mem (hlives ▸ hvault) ha
  live_from l hl := by
    rcases of_mem_replaceLive hl with hl | hl
    · exact .inl ⟨hlives ▸ hl, fun h => absurd h (Option.some_ne_none _)⟩
    · exact .inr ⟨d, rfl, hl⟩
  documents_other e hne := by
    rw [show (t.sync d ids retainUntil previous).documents = t.documents.upsert d from rfl, Table.mem_upsert, hdocuments]
    exact ⟨fun h => h.elim (fun h => absurd (congrArg Document.owner h) hne) And.left, fun h => .inr ⟨h, hne⟩⟩
  document_shown e howner := by
    rw [show (t.sync d ids retainUntil previous).documents = t.documents.upsert d from rfl, Table.mem_upsert, Option.mem_some_iff]
    constructor
    · rintro ⟨rfl | ⟨-, hne⟩, -⟩
      · rfl
      · exact absurd howner hne
    · rintro rfl
      exact ⟨.inl rfl, hlive⟩
  covered vault a time h := covered_sync previous (hcovered vault a time h)
  retained := hretained

end Sync

section Spec
variable (images : B → List Id) {t t' : Tables B} {w : Write B} {commit : Text} {retainUntil : Time}

/-- The document behind a write, if it is live. -/
def Write.shows (w : Write B) (commit : Text) (parent : Option (Document B)) : Option (Document B) :=
  match w.request with
  | .put path body _ => some ⟨w.owner, w.vault, path, commit, body, true⟩
  | .replace body => parent.map fun p => { p with commit := commit, body := body }
  | .restore body => parent.map fun p => { p with commit := commit, body := body, live := true }
  | .move path => parent.map fun p => { p with commit := commit, path := path }
  | .delete => none

/-- The images for which a write extends the references of the Revision it supersedes. -/
def Carried (t : Tables B) (w : Write B) (p : Document B) (a : Id) : Prop :=
  if w.owner.isNative then a ∈ w.found ∧ a ∈ images p.body else p.commit ≠ [] ∧ ⟨p.owner, p.vault, a⟩ ∈ t.live

/-- The images that a document refers to after a write. -/
def Referred (t : Tables B) (w : Write B) (a : Id) : Prop :=
  match w.request with
  | .put _ body _ | .replace body | .restore body => a ∈ w.found ∧ a ∈ images body
  | .move _ => ∃ p ∈ t.documents.get? w.owner, Carried images t w p a
  | .delete => False

theorem Published.mono {owner : DocumentAssetOwner} {shows : Option (Document B)} {ids ids' : Id → Prop}
    {carried carried' : Document B → Id → Prop} (h : Published t t' owner retainUntil shows ids carried)
    (hids : ∀ a, ids' a → ids a) (hcarried : ∀ p ∈ t.documents, p.owner = owner → ∀ a, carried' p a → carried p a) :
    Published t t' owner retainUntil shows ids' carried' :=
  { h with
    live_shown := fun d hd a ha => h.live_shown d hd a (hids a ha)
    retained := fun p hp ho hl a hc => h.retained p hp ho hl a (hcarried p hp ho a hc) }

theorem vaultOf_of_documents (href : ∀ l ∈ t.live, ∃ d ∈ t.documents, d.owner = l.owner ∧ d.vault = l.vault)
    {owner : DocumentAssetOwner} {vault : Id} (hv : ∀ d ∈ t.documents, d.owner = owner → d.vault = vault) :
    VaultOf t owner vault := by
  intro l hl howner
  obtain ⟨d, hd, hdo, hdv⟩ := href l hl
  exact hdv ▸ hv d hd (hdo.trans howner)

/-- Deleting a document's live references, and leaving no live document of its owner. -/
theorem Published.delete {carried : Document B → Id → Prop} {p : Document B} (hvault : VaultOf t p.owner p.vault)
    (hlive : t'.live = t.live.deleteWhere fun l => l.owner = p.owner ∧ l.vault = p.vault) (hfiles : Grown t.files t'.files)
    (hother : ∀ d, d.owner ≠ p.owner → (d ∈ t'.documents ↔ d ∈ t.documents))
    (hnone : ∀ d ∈ t'.documents, d.owner = p.owner → d.live = false)
    (hcovered : ∀ vault a time, Covered t.revisions vault a time → Covered t'.revisions vault a time)
    (hretained : ∀ q ∈ t.documents, q.owner = p.owner → ∀ a, carried q a → Covered t'.revisions q.vault a retainUntil) :
    Published t t' p.owner retainUntil none (fun _ => False) carried where
  files := hfiles
  live_other l hl hne := by
    rw [hlive]
    exact Table.mem_deleteWhere.mpr ⟨hl, decide_eq_false fun h => hne h.1⟩
  live_shown d hd := absurd hd (Option.not_mem_none d)
  live_from l hl := by
    rw [hlive] at hl
    obtain ⟨hl, hp⟩ := Table.mem_deleteWhere.mp hl
    exact .inl ⟨hl, fun _ ho => of_decide_eq_false hp ⟨ho, hvault l hl ho⟩⟩
  documents_other := hother
  document_shown d howner := by
    refine iff_of_false ?_ (Option.not_mem_none d)
    rintro ⟨hd, hl⟩
    rw [hnone d hd howner] at hl
    cases hl
  covered := hcovered
  retained q hq ho _ a hc := hretained q hq ho a hc

theorem covered_sync_previous {d p : Document B} {ids : List Id} {a : Id} (hcommit : p.commit ≠ [])
    (h : ⟨d.owner, d.vault, a⟩ ∈ t.live) : Covered (t.sync d ids retainUntil (some p)).revisions d.vault a retainUntil :=
  (covered_retainCurrent_live hcommit h).retain _

theorem carried_git (howner : w.owner.isNative = false) (p : Document B) (a : Id) :
    Carried images t w p a ↔ p.commit ≠ [] ∧ ⟨p.owner, p.vault, a⟩ ∈ t.live := by
  rw [Carried, howner, if_neg Bool.false_ne_true]

theorem carried_native (howner : w.owner.isNative = true) (p : Document B) (a : Id) :
    Carried images t w p a ↔ a ∈ w.found ∧ a ∈ images p.body := by
  rw [Carried, if_pos howner]

theorem publishGit_spec (howner : w.owner.isNative = false)
    (hpub : publishGit t w commit retainUntil (t.documents.get? w.owner) = some t')
    (happlies : w.request.Applies w.owner (t.documents.get? w.owner)) (hvault : VaultOf t w.owner w.vault)
    (hv : ∀ d ∈ t.documents, d.owner = w.owner → d.vault = w.vault) :
    Published t t' w.owner retainUntil (w.shows commit (t.documents.get? w.owner)) (Referred images t w) (Carried images t w) := by
  have hgrown : Grown t.files (t.claim w).files := grown_claimReferences _ _ _ _
  have hcovered : ∀ vault a time, Covered t.revisions vault a time → Covered (t.claim w).revisions vault a time :=
    fun _ _ _ h => h
  unfold publishGit at hpub
  split at hpub
  · rename_i path body _ hrequest hparent
    cases hpub
    have hnone := Table.get?_eq_none.mp hparent
    rw [Write.shows, hrequest]
    refine (Published.sync none hgrown rfl rfl hcovered hvault rfl fun p hp ho => absurd ho (hnone p hp)).mono
      (fun a ha => ?_) fun _ _ _ _ h => h
    rw [Referred, hrequest] at ha
    exact ha.1
  · rename_i body p hrequest hparent
    cases hpub
    obtain ⟨hp, hpo⟩ := Table.mem_of_get? hparent
    rw [hrequest, hparent] at happlies
    obtain ⟨_, hp', hlive⟩ := happlies
    cases Option.mem_some_iff.mp hp'
    rw [Write.shows, hrequest, hparent, ← hpo]
    refine (Published.sync (d := { p with commit := commit, body := body }) (some p) hgrown rfl rfl hcovered
      (hpo ▸ hv p hp hpo ▸ hvault) hlive fun q hq ho _ a hc => ?_).mono (fun a ha => ?_) fun _ _ _ _ h => h
    · obtain rfl := Table.eq_of_key hq hp ho
      rw [carried_git images howner] at hc
      exact covered_sync_previous hc.1 hc.2
    · rw [Referred, hrequest] at ha
      exact ha.1
  · rename_i path p hrequest hparent
    cases hpub
    obtain ⟨hp, hpo⟩ := Table.mem_of_get? hparent
    rw [hrequest, hparent] at happlies
    obtain ⟨_, hp', hlive⟩ := happlies
    cases Option.mem_some_iff.mp hp'
    rw [Write.shows, hrequest, hparent, ← hpo]
    refine (Published.sync (d := { p with commit := commit, path := path }) (some p) (Grown.refl _) rfl rfl (fun _ _ _ h => h)
      (hpo ▸ hv p hp hpo ▸ hvault) hlive fun q hq ho _ a hc => ?_).mono (fun a ha => ?_) fun _ _ _ _ h => h
    · obtain rfl := Table.eq_of_key hq hp ho
      rw [carried_git images howner] at hc
      exact covered_sync_previous hc.1 hc.2
    · rw [Referred, hrequest, hparent] at ha
      obtain ⟨_, hp', hc⟩ := ha
      cases Option.mem_some_iff.mp hp'
      rw [carried_git images howner] at hc
      exact mem_liveAssetIds.mpr hc.2
  · rename_i p hrequest hparent
    cases hpub
    obtain ⟨hp, hpo⟩ := Table.mem_of_get? hparent
    rw [Write.shows, hrequest, ← hpo]
    refine Published.mono (Published.delete (hpo ▸ hv p hp hpo ▸ hvault) rfl (Grown.refl _) (fun d hd => ?_) (fun d hd ho => ?_)
      (fun _ _ _ h => covered_retainCurrent h) fun q hq ho a hc => ?_) (fun a ha => ?_) fun _ _ _ _ h => h
    · rw [Table.mem_deleteWhere]
      exact ⟨And.left, fun h => ⟨h, decide_eq_false hd⟩⟩
    · exact absurd ho (of_decide_eq_false (Table.mem_deleteWhere.mp hd).2)
    · obtain rfl := Table.eq_of_key hq hp ho
      rw [carried_git images howner] at hc
      exact covered_retainCurrent_live hc.1 hc.2
    · rw [Referred, hrequest] at ha
      exact ha
  · cases hpub

theorem Published.native {d : Document B} (previous : Option (Document B)) (howner : w.owner.isNative = true)
    (hvault : VaultOf t d.owner d.vault) (hlive : d.live = true)
    (hprevious : ∀ p ∈ t.documents, p.owner = d.owner → p.live = true → previous = some p) :
    Published t (t.publishNative images w d retainUntil previous) d.owner retainUntil (some d)
      (fun a => a ∈ w.found ∧ a ∈ images d.body) (Carried images t w) := by
  have hgrown : Grown t.files (t.claim w).files := grown_claimReferences _ _ _ _
  have hids (a : Id) (ha : a ∈ w.found ∧ a ∈ images d.body) : a ∈ w.found.filter fun a => a ∈ images d.body :=
    List.mem_filter.mpr ⟨ha.1, decide_eq_true ha.2⟩
  cases previous with
  | none =>
    refine Published.mono (Published.sync none hgrown rfl rfl (fun _ _ _ h => h) hvault hlive fun p hp ho hl => ?_) hids
      fun _ _ _ _ h => h
    cases hprevious p hp ho hl
  | some q =>
    refine Published.mono (Published.sync none hgrown rfl rfl (fun _ _ _ h => h.retain _) hvault hlive fun p hp ho hl a hc => ?_) hids
      fun _ _ _ _ h => h
    cases hprevious p hp ho hl
    rw [carried_native images howner] at hc
    exact covered_sync none (covered_retained (List.mem_filter.mpr ⟨hc.1, decide_eq_true hc.2⟩))

theorem publishNativeWrite_spec (howner : w.owner.isNative = true)
    (hpub : publishNativeWrite images t w commit retainUntil (t.documents.get? w.owner) = some t')
    (happlies : w.request.Applies w.owner (t.documents.get? w.owner)) (hvault : VaultOf t w.owner w.vault)
    (hv : ∀ d ∈ t.documents, d.owner = w.owner → d.vault = w.vault) :
    Published t t' w.owner retainUntil (w.shows commit (t.documents.get? w.owner)) (Referred images t w) (Carried images t w) := by
  unfold publishNativeWrite at hpub
  split at hpub
  · rename_i path body _ hrequest hparent
    cases hpub
    have hnone := Table.get?_eq_none.mp hparent
    rw [Write.shows, hrequest]
    refine Published.mono (Published.native images none howner hvault rfl fun p hp ho => absurd ho (hnone p hp)) (fun a ha => ?_)
      fun _ _ _ _ h => h
    rw [Referred, hrequest] at ha
    exact ha
  · rename_i body p hrequest hparent
    cases hpub
    obtain ⟨hp, hpo⟩ := Table.mem_of_get? hparent
    rw [hrequest, hparent] at happlies
    obtain ⟨_, hp', hlive⟩ := happlies
    cases Option.mem_some_iff.mp hp'
    rw [Write.shows, hrequest, hparent, ← hpo]
    refine Published.mono (Published.native images (some p) howner (hpo ▸ hv p hp hpo ▸ hvault) hlive
      fun q hq ho _ => congrArg some (Table.eq_of_key hp hq ho.symm)) (fun a ha => ?_) fun _ _ _ _ h => h
    rw [Referred, hrequest] at ha
    exact ha
  · rename_i path p hrequest hparent
    cases hpub
    obtain ⟨hp, hpo⟩ := Table.mem_of_get? hparent
    rw [hrequest, hparent] at happlies
    obtain ⟨_, hp', hlive⟩ := happlies
    cases Option.mem_some_iff.mp hp'
    rw [Write.shows, hrequest, hparent, ← hpo]
    refine Published.mono (Published.native images (some p) howner (hpo ▸ hv p hp hpo ▸ hvault) hlive
      fun q hq ho _ => congrArg some (Table.eq_of_key hp hq ho.symm)) (fun a ha => ?_) fun _ _ _ _ h => h
    rw [Referred, hrequest, hparent] at ha
    obtain ⟨_, hp', hc⟩ := ha
    cases Option.mem_some_iff.mp hp'
    exact (carried_native images howner p a).mp hc
  · rename_i body p hrequest hparent
    cases hpub
    obtain ⟨hp, hpo⟩ := Table.mem_of_get? hparent
    rw [hrequest, hparent] at happlies
    obtain ⟨-, _, hp', hlive⟩ := happlies
    cases Option.mem_some_iff.mp hp'
    rw [Write.shows, hrequest, hparent, ← hpo]
    refine Published.mono (Published.native images none howner (hpo ▸ hv p hp hpo ▸ hvault) rfl fun q hq ho hl => ?_)
      (fun a ha => ?_) fun _ _ _ _ h => h
    · cases Table.eq_of_key hq hp ho
      rw [hlive] at hl
      cases hl
    · rw [Referred, hrequest] at ha
      exact ha
  · rename_i p hrequest hparent
    cases hpub
    obtain ⟨hp, hpo⟩ := Table.mem_of_get? hparent
    rw [Write.shows, hrequest, ← hpo]
    refine Published.mono (Published.delete (hpo ▸ hv p hp hpo ▸ hvault) rfl (grown_claimReferences _ _ _ _) (fun d hd => ?_)
      (fun d hd ho => ?_) (fun _ _ _ h => h.retain _) fun q hq ho a hc => ?_) (fun a ha => ?_) fun _ _ _ _ h => h
    · exact Table.mem_upsert.trans ⟨fun h => h.elim (fun h => absurd (congrArg Document.owner h) hd) And.left, fun h => .inr ⟨h, hd⟩⟩
    · rcases Table.mem_upsert.mp hd with rfl | ⟨-, hne⟩
      · rfl
      · exact absurd ho hne
    · cases Table.eq_of_key hq hp ho
      rw [carried_native images howner] at hc
      exact covered_retained hc.1
    · rw [Referred, hrequest] at ha
      exact ha
  · cases hpub

/-- What a write of either backend leaves behind when it commits. -/
theorem publish_spec (hpub : publish images t w commit retainUntil = some t')
    (happlies : w.request.Applies w.owner (t.documents.get? w.owner))
    (href : ∀ l ∈ t.live, ∃ d ∈ t.documents, d.owner = l.owner ∧ d.vault = l.vault)
    (hv : ∀ d ∈ t.documents, d.owner = w.owner → d.vault = w.vault) :
    Published t t' w.owner retainUntil (w.shows commit (t.documents.get? w.owner)) (Referred images t w) (Carried images t w) := by
  have hvault := vaultOf_of_documents href hv
  unfold publish at hpub
  split at hpub
  · rename_i id howner
    exact publishGit_spec images (howner ▸ rfl) hpub happlies hvault hv
  · rename_i id howner
    exact publishNativeWrite_spec images (howner ▸ rfl) hpub happlies hvault hv

end Spec

end Akb.Assets
