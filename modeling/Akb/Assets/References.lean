import Akb.Library.Table

/-! Uploaded images, the documents that show them, and the references that keep an image from being collected. -/
namespace Akb.Assets
open Akb.Library

abbrev Text := List Char
abbrev Id := Nat
abbrev Time := Nat

inductive FileKind where
  | file
  | attachment
  deriving DecidableEq, Repr

inductive UploadState where
  | pending
  | confirmed
  deriving DecidableEq, Repr

/-- A row of `vault_files`. -/
structure FileRow where
  id : Id
  vault : Id
  kind : FileKind
  uploadState : UploadState
  hashVerifiedAt : Option Time
  s3Key : Text
  createdBy : Id
  attachmentClaimedAt : Option Time
  createdAt : Time
  updatedAt : Time
  deriving DecidableEq, Repr

/-- `confirmed_attachment_predicate`. -/
def FileRow.ConfirmedAttachment (f : FileRow) : Prop :=
  f.kind = .attachment ∧ f.uploadState = .confirmed ∧ f.hashVerifiedAt ≠ none

instance (f : FileRow) : Decidable f.ConfirmedAttachment := inferInstanceAs (Decidable (_ ∧ _))

/-- The document that a live reference belongs to, of either backend. -/
inductive DocumentAssetOwner where
  | git (id : Id)
  | native (id : Id)
  deriving DecidableEq, Repr

def DocumentAssetOwner.isNative : DocumentAssetOwner → Bool
  | .git _ => false
  | .native _ => true

/-- A row of `document_asset_refs`. -/
structure LiveRef where
  owner : DocumentAssetOwner
  vault : Id
  asset : Id
  deriving DecidableEq, Repr

def LiveRef.key (l : LiveRef) : DocumentAssetOwner × Id := (l.owner, l.asset)

/-- A row of `document_asset_revision_refs`. -/
structure RevisionRef where
  vault : Id
  documentPath : Text
  commitHash : Text
  asset : Id
  retainUntil : Time
  deriving DecidableEq, Repr

def RevisionRef.key (r : RevisionRef) : Id × Text × Text × Id := (r.vault, r.documentPath, r.commitHash, r.asset)

/-- A document of either backend. The commit of a native document is its head Revision; an absent commit is empty. -/
structure Document (B : Type*) where
  owner : DocumentAssetOwner
  vault : Id
  path : Text
  commit : Text
  body : B
  live : Bool
  deriving DecidableEq, Repr

/-- A row of `s3_delete_outbox`. -/
structure OutboxRow where
  s3Key : Text
  nextAttemptAt : Time
  deriving DecidableEq, Repr

abbrev Files := Table FileRow FileRow.id
abbrev LiveRefs := Table LiveRef LiveRef.key
abbrev RevisionRefs := Table RevisionRef RevisionRef.key

structure Tables (B : Type*) where
  files : Files
  live : LiveRefs
  revisions : RevisionRefs
  documents : Table (Document B) Document.owner
  outbox : List OutboxRow

/-- The rows that `claim_attachment_references` locks. -/
def claimable (files : Files) (vault : Id) (ids : List Id) : List Id :=
  ids.filter fun id => ∃ f ∈ files.get? id, f.vault = vault ∧ f.ConfirmedAttachment

theorem mem_claimable {files : Files} {vault a : Id} {ids : List Id} :
    a ∈ claimable files vault ids ↔ a ∈ ids ∧ ∃ f ∈ files, f.id = a ∧ f.vault = vault ∧ f.ConfirmedAttachment := by
  simp only [claimable, List.mem_filter, decide_eq_true_eq, Option.mem_def, Table.get?_eq_some, and_assoc]

/-- The update of `claim_attachment_references`, by a transaction that began at `started`. -/
def claimReferences (files : Files) (vault : Id) (found : List Id) (started : Time) : Files :=
  files.updateWhere (fun f => f.vault = vault ∧ f.id ∈ found)
    (fun f => { f with attachmentClaimedAt := some (f.attachmentClaimedAt.getD started), updatedAt := started })
    (fun _ => rfl)

/-- `finalize_attachment`, or the confirmation of a file. -/
def finalizeFile (files : Files) (id : Id) (now : Time) : Files :=
  files.updateWhere (fun f => f.id = id)
    (fun f => { f with uploadState := .confirmed, hashVerifiedAt := some now, updatedAt := now }) (fun _ => rfl)

/-- A row that `claimReferences` wrote, or left as it was. -/
theorem claimReferences_row {files : Files} (vault : Id) (found : List Id) (started : Time) {f : FileRow} (hf : f ∈ files) :
    ∃ g ∈ claimReferences files vault found started, g.id = f.id ∧ g.vault = f.vault ∧
      (f.ConfirmedAttachment → g.ConfirmedAttachment) ∧ (f.attachmentClaimedAt ≠ none → g.attachmentClaimedAt ≠ none) ∧
      (f.vault = vault → f.id ∈ found → g.attachmentClaimedAt ≠ none) := by
  by_cases hp : f.vault = vault ∧ f.id ∈ found
  · exact ⟨_, Table.mem_updateWhere.mpr (.inl ⟨f, hf, decide_eq_true hp, rfl⟩), rfl, rfl, id,
      fun _ => Option.some_ne_none _, fun _ _ => Option.some_ne_none _⟩
  · exact ⟨f, Table.mem_updateWhere.mpr (.inr ⟨hf, decide_eq_false hp⟩), rfl, rfl, id, id, fun hv hi => absurd ⟨hv, hi⟩ hp⟩

/-- The row of the same key keeps the greater of both expiries. -/
def RevisionRef.extend (new old : RevisionRef) : RevisionRef := { old with retainUntil := max old.retainUntil new.retainUntil }

theorem RevisionRef.key_extend (new old : RevisionRef) : (new.extend old).key = old.key := rfl

/-- Rows upserted into `document_asset_revision_refs`. -/
def retain (revisions : RevisionRefs) (rows : List RevisionRef) : RevisionRefs :=
  rows.foldl (fun t r => t.insertOr r r.extend) revisions

/-- `retain_document_asset_ids`. -/
def retainDocumentAssetIds (revisions : RevisionRefs) (vault : Id) (path commit : Text) (ids : List Id) (retainUntil : Time) :
    RevisionRefs :=
  retain revisions (ids.map fun a => ⟨vault, path, commit, a, retainUntil⟩)

/-- `list_live_document_asset_ids`. -/
def liveAssetIds (live : LiveRefs) (owner : DocumentAssetOwner) (vault : Id) : List Id :=
  (live.rows.filter fun l => l.owner = owner ∧ l.vault = vault).map LiveRef.asset

theorem mem_liveAssetIds {live : LiveRefs} {owner : DocumentAssetOwner} {vault a : Id} :
    a ∈ liveAssetIds live owner vault ↔ ⟨owner, vault, a⟩ ∈ live := by
  simp only [liveAssetIds, List.mem_map, List.mem_filter, decide_eq_true_eq]
  constructor
  · rintro ⟨l, ⟨hl, rfl, rfl⟩, rfl⟩
    exact hl
  · exact fun h => ⟨_, ⟨h, rfl, rfl⟩, rfl⟩

/-- `retain_current_document_assets`. -/
def retainCurrentDocumentAssets (revisions : RevisionRefs) (live : LiveRefs) (owner : DocumentAssetOwner) (vault : Id)
    (path commit : Text) (retainUntil : Time) : RevisionRefs :=
  if commit = [] then revisions
  else retainDocumentAssetIds revisions vault path commit (liveAssetIds live owner vault) retainUntil

/-- The live references of one document replaced by `ids`. -/
def replaceLive (live : LiveRefs) (owner : DocumentAssetOwner) (vault : Id) (ids : List Id) : LiveRefs :=
  ids.foldl (fun t a => t.insertOr ⟨owner, vault, a⟩ id)
    (live.deleteWhere fun l => l.owner = owner ∧ l.vault = vault ∧ l.asset ∉ ids)

/-- `sync_document_asset_references`, with the commit and path that are superseded. -/
def Tables.syncReferences {B : Type*} (t : Tables B) (owner : DocumentAssetOwner) (vault : Id) (path commit : Text)
    (ids : List Id) (retainUntil : Time) (previous : Option (Text × Text)) : Tables B :=
  let superseded := match previous with
    | none => t.revisions
    | some (previousCommit, previousPath) =>
      retainCurrentDocumentAssets t.revisions t.live owner vault previousPath previousCommit retainUntil
  { t with
    live := replaceLive t.live owner vault ids
    revisions := retainDocumentAssetIds superseded vault path commit ids retainUntil }

/-- The image is referred to by a Revision until `time` at least. -/
def Covered (revisions : RevisionRefs) (vault a : Id) (time : Time) : Prop :=
  ∃ r ∈ revisions, r.vault = vault ∧ r.asset = a ∧ time ≤ r.retainUntil

theorem mem_retain_cons {revisions : RevisionRefs} (new : RevisionRef) {r : RevisionRef} (hr : r ∈ revisions) :
    ∃ r' ∈ revisions.insertOr new new.extend, r'.key = r.key ∧ r.retainUntil ≤ r'.retainUntil := by
  have hmem (s : RevisionRef) := Table.mem_insertOr (t := revisions) (r := new) (s := s) new.key_extend
  by_cases hkey : r.key = new.key
  · exact ⟨new.extend r, (hmem _).mpr (.inl ⟨r, hr, hkey, rfl⟩), rfl, Nat.le_max_left _ _⟩
  · exact ⟨r, (hmem _).mpr (.inr (.inr ⟨hr, hkey⟩)), rfl, Nat.le_refl _⟩

theorem retain_row {revisions : RevisionRefs} (rows : List RevisionRef) {r : RevisionRef} (hr : r ∈ revisions) :
    ∃ r' ∈ retain revisions rows, r'.key = r.key ∧ r.retainUntil ≤ r'.retainUntil := by
  induction rows generalizing revisions r with
  | nil => exact ⟨r, hr, rfl, Nat.le_refl _⟩
  | cons new rows ih =>
    obtain ⟨s, hs, hkey, hle⟩ := mem_retain_cons new hr
    obtain ⟨r', hr', hkey', hle'⟩ := ih hs
    exact ⟨r', hr', hkey'.trans hkey, Nat.le_trans hle hle'⟩

theorem retain_new (revisions : RevisionRefs) {rows : List RevisionRef} {new : RevisionRef} (hnew : new ∈ rows) :
    ∃ r' ∈ retain revisions rows, r'.key = new.key ∧ new.retainUntil ≤ r'.retainUntil := by
  induction rows generalizing revisions with
  | nil => cases hnew
  | cons first rows ih =>
    rcases List.mem_cons.mp hnew with rfl | hnew
    · have hmem (s : RevisionRef) := Table.mem_insertOr (t := revisions) (r := new) (s := s) new.key_extend
      have hinserted : ∃ r ∈ revisions.insertOr new new.extend, r.key = new.key ∧ new.retainUntil ≤ r.retainUntil := by
        cases hget : revisions.get? new.key with
        | none => exact ⟨new, (hmem _).mpr (.inr (.inl ⟨Table.get?_eq_none.mp hget, rfl⟩)), rfl, Nat.le_refl _⟩
        | some old =>
          obtain ⟨hold, hkey⟩ := Table.mem_of_get? hget
          exact ⟨_, (hmem _).mpr (.inl ⟨old, hold, hkey, rfl⟩), hkey, Nat.le_max_right _ _⟩
      obtain ⟨r, hr, hkey, hle⟩ := hinserted
      obtain ⟨r', hr', hkey', hle'⟩ := retain_row rows hr
      exact ⟨r', hr', hkey'.trans hkey, Nat.le_trans hle hle'⟩
    · exact ih _ hnew

theorem RevisionRef.of_key {r s : RevisionRef} (h : r.key = s.key) : r.vault = s.vault ∧ r.asset = s.asset := by
  obtain ⟨hvault, -, -, hasset⟩ : _ ∧ _ ∧ _ ∧ _ := by simpa only [RevisionRef.key, Prod.mk.injEq] using h
  exact ⟨hvault, hasset⟩

theorem Covered.retain {revisions : RevisionRefs} {vault a : Id} {time : Time} (h : Covered revisions vault a time)
    (rows : List RevisionRef) : Covered (retain revisions rows) vault a time := by
  obtain ⟨r, hr, rfl, rfl, hle⟩ := h
  obtain ⟨r', hr', hkey, hle'⟩ := retain_row rows hr
  exact ⟨r', hr', (RevisionRef.of_key hkey).1, (RevisionRef.of_key hkey).2, Nat.le_trans hle hle'⟩

theorem covered_retained {revisions : RevisionRefs} {vault a : Id} {path commit : Text} {ids : List Id} {time : Time}
    (ha : a ∈ ids) : Covered (retainDocumentAssetIds revisions vault path commit ids time) vault a time := by
  have hrow : ⟨vault, path, commit, a, time⟩ ∈ ids.map fun a => (⟨vault, path, commit, a, time⟩ : RevisionRef) :=
    List.mem_map.mpr ⟨a, ha, rfl⟩
  obtain ⟨r, hr, hkey, hle⟩ := retain_new revisions hrow
  exact ⟨r, hr, (RevisionRef.of_key hkey).1, (RevisionRef.of_key hkey).2, hle⟩

/-- Each asset of the list has its live reference, and the rows before are still there. -/
theorem insertLive_spec {live : LiveRefs} {owner : DocumentAssetOwner} {vault : Id} {ids : List Id} :
    (∀ l ∈ live, l ∈ ids.foldl (fun t a => t.insertOr ⟨owner, vault, a⟩ id) live) ∧
    (∀ l ∈ ids.foldl (fun t a => t.insertOr ⟨owner, vault, a⟩ id) live, l ∈ live ∨ l.owner = owner ∧ l.vault = vault) ∧
    ((∀ l ∈ live, l.owner = owner → l.vault = vault) →
      ∀ a ∈ ids, ⟨owner, vault, a⟩ ∈ ids.foldl (fun t a => t.insertOr ⟨owner, vault, a⟩ id) live) := by
  induction ids generalizing live with
  | nil => exact ⟨fun _ hl => hl, fun _ hl => .inl hl, fun _ _ ha => absurd ha List.not_mem_nil⟩
  | cons a ids ih =>
    have hmem (l : LiveRef) : l ∈ live.insertOr ⟨owner, vault, a⟩ id ↔ _ := Table.mem_insertOr fun _ => rfl
    obtain ⟨hkept, hnew, hall⟩ := @ih (live.insertOr ⟨owner, vault, a⟩ id)
    have hold (l : LiveRef) (hl : l ∈ live) : l ∈ live.insertOr ⟨owner, vault, a⟩ id := by
      by_cases hkey : l.key = LiveRef.key ⟨owner, vault, a⟩
      · exact (hmem l).mpr (.inl ⟨l, hl, hkey, rfl⟩)
      · exact (hmem l).mpr (.inr (.inr ⟨hl, hkey⟩))
    have hback (l : LiveRef) (hl : l ∈ live.insertOr ⟨owner, vault, a⟩ id) : l ∈ live ∨ l = ⟨owner, vault, a⟩ := by
      rcases (hmem l).mp hl with ⟨_, hl, -, rfl⟩ | ⟨-, rfl⟩ | ⟨hl, -⟩
      · exact .inl hl
      · exact .inr rfl
      · exact .inl hl
    refine ⟨fun l hl => hkept l (hold l hl), fun l hl => ?_, fun hvault b hb => ?_⟩
    · rcases hnew l hl with hl | hl
      · rcases hback l hl with hl | rfl
        · exact .inl hl
        · exact .inr ⟨rfl, rfl⟩
      · exact .inr hl
    · have hvault' (l : LiveRef) (hl : l ∈ live.insertOr ⟨owner, vault, a⟩ id) (ho : l.owner = owner) : l.vault = vault := by
        rcases hback l hl with hl | rfl
        · exact hvault l hl ho
        · rfl
      rcases List.mem_cons.mp hb with rfl | hb
      · refine hkept _ ?_
        cases hget : live.get? (owner, b) with
        | none => exact (hmem _).mpr (.inr (.inl ⟨Table.get?_eq_none.mp hget, rfl⟩))
        | some l =>
          obtain ⟨hl, hkey⟩ := Table.mem_of_get? hget
          obtain ⟨ho, ha⟩ : l.owner = owner ∧ l.asset = b := by simpa only [LiveRef.key, Prod.mk.injEq] using hkey
          have hrow : l = ⟨owner, vault, b⟩ := by
            rw [← ho, ← ha, ← hvault l hl ho]
          exact hrow ▸ hold l hl
      · exact hall hvault' b hb

theorem mem_replaceLive_of_ne {live : LiveRefs} {owner : DocumentAssetOwner} {vault : Id} {ids : List Id} {l : LiveRef}
    (hl : l ∈ live) (hne : l.owner ≠ owner) : l ∈ replaceLive live owner vault ids :=
  insertLive_spec.1 l (Table.mem_deleteWhere.mpr ⟨hl, decide_eq_false fun h => hne h.1⟩)

theorem mem_replaceLive_of_mem {live : LiveRefs} {owner : DocumentAssetOwner} {vault a : Id} {ids : List Id}
    (hvault : ∀ l ∈ live, l.owner = owner → l.vault = vault) (ha : a ∈ ids) :
    ⟨owner, vault, a⟩ ∈ replaceLive live owner vault ids :=
  insertLive_spec.2.2 (fun l hl => hvault l (Table.mem_deleteWhere.mp hl).1) a ha

theorem of_mem_replaceLive {live : LiveRefs} {owner : DocumentAssetOwner} {vault : Id} {ids : List Id} {l : LiveRef}
    (hl : l ∈ replaceLive live owner vault ids) : l ∈ live ∨ l.owner = owner ∧ l.vault = vault :=
  (insertLive_spec.2.1 l hl).imp_left fun hl => (Table.mem_deleteWhere.mp hl).1

end Akb.Assets
