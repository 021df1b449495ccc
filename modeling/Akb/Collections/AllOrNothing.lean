import Akb.Collections.Vault
import Akb.Library.OuterTransaction

/-! Deletion of a collection. One transaction takes the contents apart; a native document is deleted by
the ledger's own service, which commits by itself. -/
namespace Akb.Collections
open Akb.Library Akb.Library.OuterTransaction Akb.Uri

/-- `delete`: the path is normalized; `revisionId` draws the Revision of a native deletion; `fault`
fails the statement of that number. -/
structure Request where
  path : Text
  recursive : Bool
  allowTableDelete : Bool
  nativeText : Bool
  revisionId : Id → Id
  fault : Nat → Option Failure

/-- `check_collection_delete` -/
def skillCollection : Text := "overview".toList

/-- The refusals behind the snapshot. -/
def refusal (q : Request) (v : Vault) : Option Failure :=
  let subs := v.subRows q.path
  let docs := (v.listDocsUnder q.path).length + (v.nativeDocsUnder q.path).length
  let files := v.listFilesUnder q.path
  let tables := v.listTablesUnder q.path
  if (v.target q.path).isNone ∧ subs = [] ∧ docs = 0 ∧ files = [] ∧ tables = [] then some .notFound
  else if q.recursive = false ∧ (subs ≠ [] ∨ docs ≠ 0 ∨ files ≠ [] ∨ tables ≠ []) then
    some (.notEmpty docs files.length subs.length tables.length)
  else if q.recursive ∧ tables ≠ [] ∧ q.allowTableDelete = false then some .forbidden
  else none

/-- The lock of the vault, the snapshot and its refusals. -/
def snapshot (q : Request) (v : Vault) : Action Failure Vault :=
  statement q.fault fun w =>
    match refusal q v with
    | some e => .error e
    | none => .ok w

/-- One native document: its own service deletes and commits, and the transaction cleans up. -/
def deleteNative (q : Request) (r : NativeDocument) : Action Failure Vault :=
  andThen (ownCommit q.fault fun w => w.publishDelete r.resourceId (q.revisionId r.resourceId))
    (statement q.fault fun w => .ok (w.cleanNative r))

/-- The clean-up of what the snapshot holds. -/
def cleanUp (q : Request) (v : Vault) : Action Failure Vault :=
  andThen (each (fun d => statement q.fault fun w => w.deleteLegacy d) (v.listDocsUnder q.path))
    (andThen (each (deleteNative q) (v.nativeDocsUnder q.path))
      (andThen (each (fun f => statement q.fault fun w => w.deleteFile q.nativeText f) (v.listFilesUnder q.path))
        (andThen (each (fun t => statement q.fault fun w => w.deleteTable t) (v.listTablesUnder q.path))
          (statement q.fault fun w =>
            w.deleteCollections ((v.subRows q.path).map Collection.id ++ ((v.target q.path).map Collection.id).toList)))))

/-- `CollectionService.delete`: the vault as a successful call leaves it, or what a raised error left. -/
def delete (q : Request) (v : Vault) : Except (Raised Failure Vault) Vault :=
  if q.path = skillCollection then .error ⟨.reservedSystemPath, v⟩
  else transaction (andThen (snapshot q v) (cleanUp q v)) v

/-! What a failed deletion of a collection leaves. The transaction rolls back; the native documents
that were deleted before stay deleted. -/
/-- No native document is deleted before the call fails: there is none under the path, a check
refuses the call, the fence refuses the rows of the catalogue under the path, or the statement at fault
comes before the first native deletion commits. -/
def Spared (q : Request) (v : Vault) : Prop :=
  v.nativeDocsUnder q.path = [] ∨ q.path = skillCollection ∨ (refusal q v).isSome ∨
    (v.fenced ∧ v.listDocsUnder q.path ≠ []) ∨ ∃ n ≤ (v.listDocsUnder q.path).length + 1, (q.fault n).isSome

/-- The call up to the first native document. -/
def opening (q : Request) (v : Vault) : Action Failure Vault :=
  andThen (snapshot q v) (each (fun d => statement q.fault fun w => w.deleteLegacy d) (v.listDocsUnder q.path))

/-- The call from the files on. -/
def closing (q : Request) (v : Vault) : Action Failure Vault :=
  andThen (each (fun f => statement q.fault fun w => w.deleteFile q.nativeText f) (v.listFilesUnder q.path))
    (andThen (each (fun t => statement q.fault fun w => w.deleteTable t) (v.listTablesUnder q.path))
      (statement q.fault fun w =>
        w.deleteCollections ((v.subRows q.path).map Collection.id ++ ((v.target q.path).map Collection.id).toList)))

theorem keeps_opening (q : Request) (v : Vault) : Keeps (opening q v) :=
  keeps_andThen (keeps_statement _ _) (keeps_each fun _ _ => keeps_statement _ _)

theorem keeps_closing (q : Request) (v : Vault) : Keeps (closing q v) :=
  keeps_andThen (keeps_each fun _ _ => keeps_statement _ _)
    (keeps_andThen (keeps_each fun _ _ => keeps_statement _ _) (keeps_statement _ _))

theorem andThen_assoc (f g h : Action Failure Vault) : andThen f (andThen g h) = andThen (andThen f g) h := by
  funext t
  simp only [andThen]
  cases f t <;> rfl

theorem delete_eq {q : Request} (v : Vault) (h : q.path ≠ skillCollection) :
    delete q v = transaction (andThen (opening q v) (andThen (each (deleteNative q) (v.nativeDocsUnder q.path)) (closing q v))) v := by
  rw [delete, if_neg h, opening, ← andThen_assoc]
  rfl

theorem deleteWithPublications_error {v : Vault} {d : Id} {e : Failure} (h : v.deleteWithPublications d = .error e) :
    v.fenced = true := by
  rw [Vault.deleteWithPublications] at h
  split at h
  · cases h
  · split at h
    · assumption
    · cases h

theorem deleteLegacy_error {v : Vault} {d : DocumentRow} {e : Failure} (h : v.deleteLegacy d = .error e) :
    v.fenced = true := by
  rw [Vault.deleteLegacy] at h
  have hf := deleteWithPublications_error h
  exact hf

theorem deleteLegacy_fenced {v v' : Vault} {d : DocumentRow} (h : v.deleteLegacy d = .ok v') : v'.fenced = v.fenced := by
  rw [Vault.deleteLegacy, Vault.deleteWithPublications] at h
  split at h
  · cases h
    rfl
  · split at h
    · cases h
    · cases h
      rfl

theorem opening_error {q : Request} {v : Vault} {r : Raised Failure Vault} (h : opening q v ⟨v, v, 0⟩ = .error r) :
    (refusal q v).isSome ∨ (v.fenced ∧ v.listDocsUnder q.path ≠ []) ∨
      ∃ n ≤ (v.listDocsUnder q.path).length + 1, (q.fault n).isSome := by
  rcases andThen_error h with h | ⟨u, hu, h⟩
  · rcases statement_error h with hf | hf
    · exact Or.inr (Or.inr ⟨0, Nat.zero_le _, hf⟩)
    · cases hr : refusal q v with
      | none => simp [hr] at hf
      | some e => exact Or.inl rfl
  · obtain ⟨-, hwork, -, hcount⟩ := statement_ok hu
    rw [Nat.zero_add] at hcount
    have hfenced : u.work.fenced = v.fenced := by
      cases hr : refusal q v with
      | none =>
        simp only [hr] at hwork
        rw [← Except.ok.inj hwork]
      | some e => simp [hr] at hwork
    rcases each_statement_error (P := fun w : Vault => w.fenced = v.fenced)
        (fun d _ w w' hw hok => (deleteLegacy_fenced hok).trans hw) hfenced h with ⟨n, hn, hf⟩ | ⟨d, hd, w, hw, he⟩
    · exact Or.inr (Or.inr ⟨n, by rw [hcount] at hn; omega, hf⟩)
    · exact Or.inr (Or.inl ⟨hw ▸ deleteLegacy_error he, List.ne_nil_of_mem hd⟩)

theorem deleteLegacy_of_fenced {v : Vault} {d : DocumentRow} (hf : v.fenced = true) (hd : d ∈ v.documents) :
    v.deleteLegacy d = .error .legacyWritesFenced := by
  have hget : v.documents.get? d.id = some d := Table.get?_eq_some.mpr ⟨hd, rfl⟩
  rw [Vault.deleteLegacy, Vault.deleteWithPublications]
  simp only [Vault.dropEdges, Vault.dropChunks, hget, hf, if_true]

theorem opening_ok {q : Request} {v : Vault} {t : Tx Vault} (h : opening q v ⟨v, v, 0⟩ = .ok t) :
    t.kept = v ∧ t.count = (v.listDocsUnder q.path).length + 1 ∧ refusal q v = none ∧
      (∀ n < (v.listDocsUnder q.path).length + 1, q.fault n = none) ∧ ¬ (v.fenced ∧ v.listDocsUnder q.path ≠ []) := by
  obtain ⟨u, hu, h⟩ := andThen_ok h
  obtain ⟨hfault, hwork, hkept, hcount⟩ := statement_ok hu
  obtain ⟨hk, hc, hn⟩ := each_statement_ok h
  rw [Nat.zero_add] at hcount
  have hrefusal : refusal q v = none := by
    cases hr : refusal q v with
    | none => rfl
    | some e => simp [hr] at hwork
  simp only [hrefusal] at hwork
  refine ⟨hk.trans hkept, by omega, hrefusal, fun n hlt => ?_, ?_⟩
  · rcases Nat.eq_zero_or_pos n with rfl | hpos
    · exact hfault
    · exact hn n (by omega) (by omega)
  · rintro ⟨hf, hne⟩
    obtain ⟨d, ds, hds⟩ := List.exists_cons_of_ne_nil hne
    rw [hds] at h
    obtain ⟨u', hu', -⟩ := andThen_ok h
    have hd : d ∈ v.documents := (List.mem_filter.mp (hds ▸ List.mem_cons_self : d ∈ v.listDocsUnder q.path)).1
    have hok := (statement_ok hu').2.1
    rw [← Except.ok.inj hwork, deleteLegacy_of_fenced hf hd] at hok
    cases hok

/-- The document is not live. -/
def Gone (resourceId : Id) (v : Vault) : Prop := ∀ r ∈ v.natives, r.resourceId = resourceId → r.live = false

theorem gone_publishDelete (v : Vault) (resourceId revisionId : Id) : Gone resourceId (v.publishDelete resourceId revisionId) := by
  intro r hr hid
  rcases Vault.mem_publishDelete.mp hr with ⟨s, -, -, rfl⟩ | ⟨-, hne⟩
  · rfl
  · exact absurd hid hne

theorem Gone.publishDelete {resourceId : Id} {v : Vault} (h : Gone resourceId v) (other revisionId : Id) :
    Gone resourceId (v.publishDelete other revisionId) := by
  intro r hr hid
  rcases Vault.mem_publishDelete.mp hr with ⟨s, -, -, rfl⟩ | ⟨hmem, -⟩
  · rfl
  · exact h r hmem hid

theorem gone_preserved (q : Request) (resourceId : Id) (r : NativeDocument) : Preserves (Gone resourceId) (deleteNative q r) :=
  preserves_andThen (preserves_ownCommit _ fun _ h => h.publishDelete _ _) ((keeps_statement _ _).preserves _)

/-- Once the deletion of a native document has committed, the document is gone whatever follows. -/
theorem gone_of_raised {q : Request} {v : Vault} {d : NativeDocument} {ds : List NativeDocument} {t : Tx Vault}
    {r : Raised Failure Vault} (hfault : q.fault t.count = none)
    (h : andThen (each (deleteNative q) (d :: ds)) (closing q v) t = .error r) : Gone d.resourceId r.kept := by
  rw [each, deleteNative, ← andThen_assoc, ← andThen_assoc] at h
  rcases andThen_error h with h | ⟨u, hu, h⟩
  · have hsome := (ownCommit_error h).1
    rw [hfault] at hsome
    cases hsome
  · have hrest : Preserves (Gone d.resourceId) (andThen (statement q.fault fun w => .ok (w.cleanNative d))
        (andThen (each (deleteNative q) ds) (closing q v))) :=
      preserves_andThen ((keeps_statement _ _).preserves _)
        (preserves_andThen (preserves_each fun r _ => gone_preserved q d.resourceId r) ((keeps_closing q v).preserves _))
    refine (hrest u ?_).1 r h
    rw [(ownCommit_ok hu).2]
    exact gone_publishDelete _ _ _

/-- A raised error leaves the vault as it was exactly when no native document was deleted before. -/
theorem raised_keeps_iff {q : Request} {v : Vault} {r : Raised Failure Vault} (h : delete q v = .error r) :
    r.kept = v ↔ Spared q v := by
  by_cases hpath : q.path = skillCollection
  · rw [delete, if_pos hpath] at h
    cases h
    exact iff_of_true rfl (Or.inr (Or.inl hpath))
  rw [delete_eq v hpath] at h
  cases hnatives : v.nativeDocsUnder q.path with
  | nil =>
    rw [hnatives] at h
    refine iff_of_true (transaction_keeps ?_ h) (Or.inl hnatives)
    exact keeps_andThen (keeps_opening q v) (keeps_andThen (keeps_each fun a ha => (by cases ha)) (keeps_closing q v))
  | cons d ds =>
    rw [hnatives, transaction] at h
    split at h
    · rename_i r' hraised
      cases h
      rcases andThen_error hraised with hopen | ⟨t, ht, hrest⟩
      · exact iff_of_true ((keeps_opening q v _).1 _ hopen) (Or.inr (Or.inr (opening_error hopen)))
      · obtain ⟨hkept, hcount, hrefusal, hfaults, hfence⟩ := opening_ok ht
        cases hfault : q.fault t.count with
        | some e =>
          have hspared : Spared q v := Or.inr (Or.inr (Or.inr (Or.inr ⟨t.count, by omega, by rw [hfault]; rfl⟩)))
          refine iff_of_true ?_ hspared
          simp [andThen, each, deleteNative, ownCommit, hfault] at hrest
          rw [← hrest]
          exact hkept
        | none =>
          have hlive : d ∈ v.natives ∧ d.live = true := by
            have hd : d ∈ v.nativeDocsUnder q.path := hnatives ▸ List.mem_cons_self
            rw [Vault.nativeDocsUnder] at hd
            split at hd
            · obtain ⟨hmem, hsel⟩ := List.mem_filter.mp hd
              exact ⟨hmem, (of_decide_eq_true hsel).1⟩
            · cases hd
          have hgone : Gone d.resourceId r.kept := gone_of_raised hfault hrest
          refine iff_of_false ?_ ?_
          · intro hsame
            have := hgone d (hsame ▸ hlive.1) rfl
            rw [hlive.2] at this
            cases this
          · rintro (hnil | hskill | hsome | hfenced | ⟨n, hn, hsome⟩)
            · rw [hnatives] at hnil
              cases hnil
            · exact hpath hskill
            · rw [hrefusal] at hsome
              cases hsome
            · exact hfence hfenced
            · rcases Nat.lt_or_ge n ((v.listDocsUnder q.path).length + 1) with hlt | hge
              · rw [hfaults n hlt] at hsome
                cases hsome
              · rw [show n = t.count by omega, hfault] at hsome
                cases hsome
    · cases h

/-- A vault of the native ledger: one document and one table in the collection `c`, and at the root a
table that refers to this table. -/
def linkedVault : Vault where
  name := ['v']
  native := true
  fenced := false
  collections := Table.empty.upsert ⟨"k1".toList, ['c']⟩
  documents := Table.empty
  natives := Table.empty.upsert ⟨"r1".toList, "c/x.md".toList, true, [⟨"v1".toList, none, "create", "c/x.md".toList⟩]⟩
  files := Table.empty
  tables := (Table.empty.upsert ⟨"t1".toList, ['t'], some "k1".toList, []⟩).upsert ⟨"t2".toList, ['u'], none, ["t1".toList]⟩
  edges := []
  publications := []
  chunks := []

def deleteC : Request := ⟨['c'], true, true, false, fun _ => "v2".toList, fun _ => none⟩

theorem raised_keeps_iff_linked :
    ∃ r, delete deleteC linkedVault = .error r ∧ (r.kept = linkedVault ↔ Spared deleteC linkedVault) := by
  have herror : (delete deleteC linkedVault).toOption.isNone := by decide
  cases h : delete deleteC linkedVault with
  | error r => exact ⟨r, rfl, raised_keeps_iff h⟩
  | ok v =>
    rw [h] at herror
    cases herror

/-- The error of a raised call, and which documents of the ledger are live in what it left. -/
def raisedLeaves : Except (Raised Failure Vault) Vault → Option (Failure × List Bool)
  | .error r => some (r.error, r.kept.natives.rows.map NativeDocument.live)
  | .ok _ => none

/-- The deletion is refused for the table that another one refers to, and the document is gone. -/
theorem refused_delete_takes_document :
    raisedLeaves (delete deleteC linkedVault) = some (.referencedTable ['t'], [false]) ∧
      linkedVault.natives.rows.map NativeDocument.live = [true] := by
  decide

end Akb.Collections
