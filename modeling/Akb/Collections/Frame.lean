import Akb.Collections.AllOrNothing

/-! What a successful deletion of a collection leaves: everything that is not under the path and does
not refer to something under it. -/
namespace Akb.Collections
open Akb.Library Akb.Library.OuterTransaction Akb.Uri

/-- Neither end of the edge is a resource under the path. -/
def EdgeClear (v : Vault) (p : Text) (e : Edge) : Prop :=
  (∀ d ∈ v.listDocsUnder p, e.sourceUri ≠ v.docUri d.path ∧ e.targetUri ≠ v.docUri d.path) ∧
  (∀ r ∈ v.nativeDocsUnder p, (e.sourceUri ≠ v.docUri r.currentPath ∧ e.targetUri ≠ v.docUri r.currentPath) ∧
    e.sourceResourceId ≠ some r.resourceId ∧ e.targetResourceId ≠ some r.resourceId) ∧
  (∀ f ∈ v.listFilesUnder p, e.sourceUri ≠ v.fileUri f ∧ e.targetUri ≠ v.fileUri f) ∧
  ∀ t ∈ v.listTablesUnder p, e.sourceUri ≠ v.tableUri t ∧ e.targetUri ≠ v.tableUri t

/-- The publication is of no resource under the path. -/
def PublicationClear (v : Vault) (p : Text) (q : Publication) : Prop :=
  (∀ d ∈ v.listDocsUnder p, q.documentId ≠ some d.id ∧ q.resourceUri ≠ some (v.docUri d.path)) ∧
  (∀ r ∈ v.nativeDocsUnder p, q.nativeDocumentId ≠ some r.resourceId) ∧
  ∀ f ∈ v.listFilesUnder p, q.resourceUri ≠ some (v.fileUri f)

/-- The chunk is of no resource under the path. -/
def ChunkClear (v : Vault) (p : Text) (c : Chunk) : Prop :=
  (∀ d ∈ v.listDocsUnder p, ¬ (c.sourceType = .document ∧ c.sourceId = d.id)) ∧
  (∀ r ∈ v.nativeDocsUnder p, ¬ (c.sourceType = .document ∧ c.sourceId = r.resourceId)) ∧
  (∀ f ∈ v.listFilesUnder p, ¬ (c.sourceType = .file ∧ c.sourceId = f.id)) ∧
  ∀ t ∈ v.listTablesUnder p, ¬ (c.sourceType = .table ∧ c.sourceId = t.id)

/-- `w` has lost nothing of `v` that is clear of the path, and has gained nothing live. -/
structure Spares (v : Vault) (p : Text) (w : Vault) : Prop where
  name : w.name = v.name
  native : w.native = v.native
  fenced : w.fenced = v.fenced
  collections : w.collections = v.collections
  documents : ∀ d ∈ w.documents, d ∈ v.documents
  documentsKept : ∀ d ∈ v.documents, ¬ Below p d.path → d ∈ w.documents
  natives : ∀ r ∈ w.natives, r.live = true → r ∈ v.natives
  nativesKept : ∀ r ∈ v.natives, r ∉ v.nativeDocsUnder p → r ∈ w.natives
  files : ∀ f ∈ w.files, f ∈ v.files
  filesKept : ∀ f ∈ v.files, f ∉ v.listFilesUnder p → f ∈ w.files
  tables : ∀ t ∈ w.tables, t ∈ v.tables
  tablesKept : ∀ t ∈ v.tables, t ∉ v.listTablesUnder p → t ∈ w.tables
  edges : ∀ e ∈ v.edges, EdgeClear v p e → e ∈ w.edges
  publications : ∀ q ∈ v.publications, PublicationClear v p q → q ∈ w.publications
  chunks : ∀ c ∈ v.chunks, ChunkClear v p c → c ∈ w.chunks
  noEdges : ∀ e ∈ w.edges, e ∈ v.edges
  noPublications : ∀ q ∈ w.publications, q ∈ v.publications
  noChunks : ∀ c ∈ w.chunks, c ∈ v.chunks

theorem Spares.refl (v : Vault) (p : Text) : Spares v p v := by
  constructor <;> tauto

variable {v w w' : Vault} {p : Text}

theorem Spares.docUri (h : Spares v p w) (path : Text) : w.docUri path = v.docUri path := by
  rw [Vault.docUri, Vault.docUri, h.name]

theorem Spares.fileUri (h : Spares v p w) (f : FileRow) : w.fileUri f = v.fileUri f := by
  rw [Vault.fileUri, Vault.fileUri, h.name, Vault.collectionPath, Vault.collectionPath, h.collections]

theorem Spares.tableUri (h : Spares v p w) (t : TableRow) : w.tableUri t = v.tableUri t := by
  rw [Vault.tableUri, Vault.tableUri, h.name, Vault.collectionPath, Vault.collectionPath, h.collections]

theorem mem_listDocsUnder {d : DocumentRow} : d ∈ v.listDocsUnder p ↔ d ∈ v.documents ∧ Below p d.path := by
  rw [Vault.listDocsUnder, List.mem_filter, decide_eq_true_eq]
  rfl

theorem mem_nativeDocsUnder {r : NativeDocument} :
    r ∈ v.nativeDocsUnder p ↔ v.native = true ∧ r ∈ v.natives ∧ r.live = true ∧ AtOrBelow p r.currentPath := by
  rw [Vault.nativeDocsUnder]
  split
  · rename_i hn
    rw [List.mem_filter, decide_eq_true_eq]
    exact ⟨fun h => ⟨hn, h.1, h.2⟩, fun h => ⟨h.2.1, h.2.2⟩⟩
  · rename_i hn
    exact ⟨fun h => (by cases h), fun h => absurd h.1 hn⟩

theorem mem_listFilesUnder {f : FileRow} :
    f ∈ v.listFilesUnder p ↔ f ∈ v.files ∧ f.kind = .file ∧ v.InCollection p f.collectionId := by
  rw [Vault.listFilesUnder, List.mem_filter, decide_eq_true_eq]
  rfl

theorem mem_listTablesUnder {t : TableRow} :
    t ∈ v.listTablesUnder p ↔ t ∈ v.tables ∧ v.InCollection p t.collectionId := by
  rw [Vault.listTablesUnder, List.mem_filter, decide_eq_true_eq]
  rfl

theorem Spares.dropChunks (h : Spares v p w) {sourceType : SourceType} {id : Id}
    (hc : ∀ c, ChunkClear v p c → ¬ (c.sourceType = sourceType ∧ c.sourceId = id)) : Spares v p (w.dropChunks sourceType id) :=
  { h with
    chunks := fun c hc' hclear => List.mem_filter.mpr ⟨h.chunks c hc' hclear, decide_eq_true (hc c hclear)⟩
    noChunks := fun c hmem => h.noChunks c (List.mem_filter.mp hmem).1 }

theorem Spares.dropEdges (h : Spares v p w) (uri : Text)
    (he : ∀ e, EdgeClear v p e → e.sourceUri ≠ uri ∧ e.targetUri ≠ uri) : Spares v p (w.dropEdges uri) :=
  { h with
    edges := fun e hmem hclear => by
      refine List.mem_filter.mpr ⟨h.edges e hmem hclear, decide_eq_true ?_⟩
      rw [not_or]
      exact he e hclear
    noEdges := fun e hmem => h.noEdges e (List.mem_filter.mp hmem).1 }

theorem Spares.dropPublications (h : Spares v p w) (uri : Text)
    (hq : ∀ q, PublicationClear v p q → q.resourceUri ≠ some uri) : Spares v p (w.dropPublications uri) :=
  { h with
    publications := fun q hmem hclear =>
      List.mem_filter.mpr ⟨h.publications q hmem hclear, decide_eq_true (hq q hclear)⟩
    noPublications := fun q hmem => h.noPublications q (List.mem_filter.mp hmem).1 }

theorem deleteWithPublications_spares {d : DocumentRow} (hd : d ∈ v.listDocsUnder p) (h : Spares v p w)
    (hok : w.deleteWithPublications d.id = .ok w') : Spares v p w' ∧ ∀ x ∈ w'.documents, x.id ≠ d.id := by
  rw [Vault.deleteWithPublications] at hok
  split at hok
  · rename_i hget
    cases hok
    exact ⟨h, Table.get?_eq_none.mp hget⟩
  · rename_i row hget
    obtain ⟨hrow, hid⟩ := Table.get?_eq_some.mp hget
    obtain rfl := Table.eq_of_key (h.documents row hrow) (mem_listDocsUnder.mp hd).1 hid
    split at hok
    · cases hok
    · cases hok
      have hpub := h.dropPublications (w.docUri row.path)
        (fun q hq => by rw [h.docUri]; exact (hq.1 row hd).2)
      refine ⟨{ hpub with
        documents := fun x hx => h.documents x (Table.mem_deleteWhere.mp hx).1
        documentsKept := ?_
        publications := ?_
        noPublications := fun q hq => hpub.noPublications q (List.mem_filter.mp hq).1 }, fun x hx => by simpa using (Table.mem_deleteWhere.mp hx).2⟩
      · intro x hx hclear
        refine Table.mem_deleteWhere.mpr ⟨h.documentsKept x hx hclear, decide_eq_false fun hsame => hclear ?_⟩
        rw [Table.eq_of_key hx (mem_listDocsUnder.mp hd).1 hsame]
        exact (mem_listDocsUnder.mp hd).2
      · intro q hmem hclear
        exact List.mem_filter.mpr ⟨hpub.publications q hmem hclear, decide_eq_true (hclear.1 row hd).1⟩

theorem deleteLegacy_spares {d : DocumentRow} (hd : d ∈ v.listDocsUnder p) (h : Spares v p w)
    (hok : w.deleteLegacy d = .ok w') : Spares v p w' ∧ ∀ x ∈ w'.documents, x.id ≠ d.id := by
  refine deleteWithPublications_spares hd ?_ hok
  refine (h.dropChunks fun c hc => hc.1 d hd).dropEdges _ fun e he => ?_
  rw [show (w.docUri d.path) = v.docUri d.path from h.docUri d.path]
  exact he.1 d hd

theorem publishDelete_spares {r : NativeDocument} (hr : r ∈ v.nativeDocsUnder p) (h : Spares v p w) (revisionId : Id) :
    Spares v p (w.publishDelete r.resourceId revisionId) := by
  refine { h with
    natives := ?_
    nativesKept := ?_
    publications := ?_
    noPublications := fun q hq => h.noPublications q (List.mem_filter.mp hq).1 }
  · intro x hx hlive
    rcases Vault.mem_publishDelete.mp hx with ⟨s, -, -, rfl⟩ | ⟨hmem, -⟩
    · cases hlive
    · exact h.natives x hmem hlive
  · intro x hx hout
    refine Vault.mem_publishDelete.mpr (Or.inr ⟨h.nativesKept x hx hout, fun hsame => hout ?_⟩)
    rw [Table.eq_of_key hx (mem_nativeDocsUnder.mp hr).2.1 hsame]
    exact hr
  · intro q hmem hclear
    exact List.mem_filter.mpr ⟨h.publications q hmem hclear, decide_eq_true (hclear.2.1 r hr)⟩

theorem cleanNative_spares {r : NativeDocument} (hr : r ∈ v.nativeDocsUnder p) (h : Spares v p w) :
    Spares v p (w.cleanNative r) := by
  have hchunks := h.dropChunks (fun c hc => hc.2.1 r hr)
  have hsub : ∀ e ∈ (w.cleanNative r).edges, e ∈ w.edges := by
    intro e hmem
    change e ∈ ite _ _ _ at hmem
    split at hmem
    · exact (List.mem_filter.mp (List.mem_filter.mp hmem).1).1
    · exact (List.mem_filter.mp hmem).1
  refine { hchunks with edges := ?_, noEdges := fun e hmem => h.noEdges e (hsub e hmem) }
  intro e hmem hclear
  have howned : e ∈ (w.dropChunks .document r.resourceId).edges.filter
      (fun e => ¬ (e.sourceResourceId = some r.resourceId ∨ e.targetResourceId = some r.resourceId)) := by
    refine List.mem_filter.mpr ⟨hchunks.edges e hmem hclear, decide_eq_true ?_⟩
    rw [not_or]
    exact (hclear.2.1 r hr).2
  change e ∈ ite _ _ _
  split
  · refine List.mem_filter.mpr ⟨howned, decide_eq_true ?_⟩
    rw [hchunks.docUri]
    rintro (⟨hs, -⟩ | ⟨ht, -⟩)
    · exact (hclear.2.1 r hr).1.1 hs
    · exact (hclear.2.1 r hr).1.2 ht
  · exact howned

theorem deleteFile_spares {f : FileRow} {nativeText : Bool} (hf : f ∈ v.listFilesUnder p) (h : Spares v p w)
    (hok : w.deleteFile nativeText f = .ok w') : Spares v p w' ∧ ∀ x ∈ w'.files, x.id ≠ f.id := by
  have hleft : Spares v p { ((w.dropEdges (w.fileUri f)).dropPublications (w.fileUri f)).dropChunks .file f.id with
      files := w.files.deleteWhere (fun g => g.id = f.id) } := by
    have hclean := ((h.dropEdges (w.fileUri f) (fun e he => by rw [h.fileUri]; exact he.2.2.1 f hf)).dropPublications
      (w.fileUri f) (fun q hq => by rw [h.fileUri]; exact hq.2.2 f hf)).dropChunks (fun c hc => hc.2.2.1 f hf)
    refine { hclean with
      files := fun x hx => h.files x (Table.mem_deleteWhere.mp hx).1
      filesKept := ?_ }
    intro x hx hout
    refine Table.mem_deleteWhere.mpr ⟨h.filesKept x hx hout, decide_eq_false fun hsame => hout ?_⟩
    rw [Table.eq_of_key hx (mem_listFilesUnder.mp hf).1 hsame]
    exact hf
  have hgone : ∀ x ∈ w.files.deleteWhere (fun g => g.id = f.id), x.id ≠ f.id := fun x hx => by
    simpa using (Table.mem_deleteWhere.mp hx).2
  rw [Vault.deleteFile] at hok
  split at hok
  · cases hok
    exact ⟨hleft, hgone⟩
  · split at hok
    · split at hok
      · cases hok
        exact ⟨hleft, hgone⟩
      · cases hok
    · split at hok
      · cases hok
        exact ⟨hleft, hgone⟩
      · cases hok

theorem deleteTable_spares {t : TableRow} (ht : t ∈ v.listTablesUnder p) (h : Spares v p w)
    (hok : w.deleteTable t = .ok w') : Spares v p w' ∧ ∀ x ∈ w'.tables, x.id ≠ t.id := by
  rw [Vault.deleteTable] at hok
  split at hok
  · cases hok
  · cases hok
    have hclean := (h.dropChunks (fun c hc => hc.2.2.2 t ht)).dropEdges (w.tableUri t)
      (fun e he => by rw [h.tableUri]; exact he.2.2.2 t ht)
    refine ⟨{ hclean with
      tables := fun x hx => h.tables x (Table.mem_deleteWhere.mp hx).1
      tablesKept := ?_ }, fun x hx => by simpa using (Table.mem_deleteWhere.mp hx).2⟩
    intro x hx hout
    refine Table.mem_deleteWhere.mpr ⟨h.tablesKept x hx hout, decide_eq_false fun hsame => hout ?_⟩
    rw [Table.eq_of_key hx (mem_listTablesUnder.mp ht).1 hsame]
    exact ht

/-- Nothing of the vault's contents has come to life. -/
structure Shrinks (w w' : Vault) : Prop where
  documents : ∀ d ∈ w'.documents, d ∈ w.documents
  natives : ∀ r ∈ w'.natives, r.live = true → r ∈ w.natives
  files : ∀ f ∈ w'.files, f ∈ w.files
  tables : ∀ t ∈ w'.tables, t ∈ w.tables

theorem Shrinks.refl (w : Vault) : Shrinks w w := ⟨fun _ h => h, fun _ h _ => h, fun _ h => h, fun _ h => h⟩

theorem Shrinks.trans {u : Vault} (h : Shrinks u w) (h' : Shrinks w w') : Shrinks u w' where
  documents d hd := h.documents d (h'.documents d hd)
  natives r hr hl := h.natives r (h'.natives r hr hl) hl
  files f hf := h.files f (h'.files f hf)
  tables t ht := h.tables t (h'.tables t ht)

theorem deleteLegacy_shrinks {d : DocumentRow} (h : w.deleteLegacy d = .ok w') : Shrinks w w' := by
  rw [Vault.deleteLegacy, Vault.deleteWithPublications] at h
  split at h
  · cases h
    exact ⟨fun _ h => h, fun _ h _ => h, fun _ h => h, fun _ h => h⟩
  · split at h
    · cases h
    · cases h
      exact ⟨fun x hx => (Table.mem_deleteWhere.mp hx).1, fun _ h _ => h, fun _ h => h, fun _ h => h⟩

theorem deleteNative_shrinks (w : Vault) (r : NativeDocument) (revisionId : Id) :
    Shrinks w ((w.publishDelete r.resourceId revisionId).cleanNative r) := by
  refine ⟨fun _ h => h, ?_, fun _ h => h, fun _ h => h⟩
  intro x hx hlive
  rcases Vault.mem_publishDelete.mp hx with ⟨s, -, -, rfl⟩ | ⟨hmem, -⟩
  · cases hlive
  · exact hmem

theorem deleteFile_shrinks {f : FileRow} {nativeText : Bool} (h : w.deleteFile nativeText f = .ok w') : Shrinks w w' := by
  have hleft : Shrinks w { ((w.dropEdges (w.fileUri f)).dropPublications (w.fileUri f)).dropChunks .file f.id with
      files := w.files.deleteWhere (fun g => g.id = f.id) } :=
    ⟨fun _ h => h, fun _ h _ => h, fun x hx => (Table.mem_deleteWhere.mp hx).1, fun _ h => h⟩
  rw [Vault.deleteFile] at h
  split at h
  · cases h
    exact hleft
  · split at h
    · split at h
      · cases h
        exact hleft
      · cases h
    · split at h
      · cases h
        exact hleft
      · cases h

theorem deleteTable_shrinks {t : TableRow} (h : w.deleteTable t = .ok w') : Shrinks w w' := by
  rw [Vault.deleteTable] at h
  split at h
  · cases h
  · cases h
    exact ⟨fun _ h => h, fun _ h _ => h, fun _ h => h, fun x hx => (Table.mem_deleteWhere.mp hx).1⟩

/-- What the loops of a successful call have left when the collection rows are deleted. -/
structure Cleared (q : Request) (v w : Vault) : Prop where
  spares : Spares v q.path w
  documents : ∀ d ∈ v.listDocsUnder q.path, ∀ x ∈ w.documents, x.id ≠ d.id
  natives : ∀ r ∈ v.nativeDocsUnder q.path, ∀ x ∈ w.natives, x.resourceId = r.resourceId → x.live = false
  files : ∀ f ∈ v.listFilesUnder q.path, ∀ x ∈ w.files, x.id ≠ f.id
  tables : ∀ t ∈ v.listTablesUnder q.path, ∀ x ∈ w.tables, x.id ≠ t.id

theorem deleteNative_ok {q : Request} {r : NativeDocument} {t t' : Tx Vault} (h : deleteNative q r t = .ok t') :
    t'.work = (t.work.publishDelete r.resourceId (q.revisionId r.resourceId)).cleanNative r := by
  obtain ⟨u, hu, h⟩ := andThen_ok h
  rw [(ownCommit_ok hu).2] at h
  exact (Except.ok.inj (statement_ok h).2.1).symm

/-- The rows that the end of the call deletes. -/
def collectionIds (q : Request) (v : Vault) : List Id :=
  (v.subRows q.path).map Collection.id ++ ((v.target q.path).map Collection.id).toList

/-- A successful call: no check refuses it, the loops clear the path, and the collection rows go. -/
theorem delete_ok {q : Request} {v v' : Vault} (h : delete q v = .ok v') :
    q.path ≠ skillCollection ∧ refusal q v = none ∧
      ∃ w, Cleared q v w ∧ w.deleteCollections (collectionIds q v) = .ok v' := by
  have hskill : q.path ≠ skillCollection := by
    intro hskill
    rw [delete, if_pos hskill] at h
    cases h
  rw [delete, if_neg hskill] at h
  obtain ⟨t, ht, rfl⟩ := transaction_ok h
  obtain ⟨t₁, h₁, ht⟩ := andThen_ok ht
  obtain ⟨-, hwork, -, -⟩ := statement_ok h₁
  have hrefusal : refusal q v = none := by
    cases hr : refusal q v with
    | none => rfl
    | some e => simp [hr] at hwork
  simp only [hrefusal] at hwork
  obtain ⟨t₂, h₂, ht⟩ := andThen_ok ht
  obtain ⟨t₃, h₃, ht⟩ := andThen_ok ht
  obtain ⟨t₄, h₄, ht⟩ := andThen_ok ht
  obtain ⟨t₅, h₅, ht⟩ := andThen_ok ht
  have hstart : Spares v q.path t₁.work := by
    rw [← Except.ok.inj hwork]
    exact Spares.refl v q.path
  obtain ⟨hs₂, -, hdocs⟩ := each_work (I := Spares v q.path) (R := Shrinks) (Q := fun (d : DocumentRow) w => ∀ x ∈ w.documents, x.id ≠ d.id)
    Shrinks.refl (fun _ _ _ h h' => h.trans h') (fun d w w' hr hq x hx => hq x (hr.documents x hx))
    (fun d hd t t' hs hok => by
      have hw := (statement_ok hok).2.1
      obtain ⟨hs', hgone⟩ := deleteLegacy_spares hd hs hw
      exact ⟨hs', deleteLegacy_shrinks hw, hgone⟩) hstart h₂
  obtain ⟨hs₃, hr₃, hnatives⟩ := each_work (I := Spares v q.path) (R := Shrinks)
    (Q := fun (r : NativeDocument) w => ∀ x ∈ w.natives, x.resourceId = r.resourceId → x.live = false)
    Shrinks.refl (fun _ _ _ h h' => h.trans h')
    (fun r w w' hr hq x hx hid => by
      by_contra hlive
      have hlive' : x.live = true := by simpa using hlive
      rw [hq x (hr.natives x hx hlive') hid] at hlive'
      cases hlive')
    (fun r hr t t' hs hok => by
      rw [deleteNative_ok hok]
      exact ⟨cleanNative_spares hr (publishDelete_spares hr hs _), deleteNative_shrinks _ _ _,
        gone_publishDelete _ _ _⟩) hs₂ h₃
  obtain ⟨hs₄, hr₄, hfiles⟩ := each_work (I := Spares v q.path) (R := Shrinks) (Q := fun (f : FileRow) w => ∀ x ∈ w.files, x.id ≠ f.id)
    Shrinks.refl (fun _ _ _ h h' => h.trans h') (fun f w w' hr hq x hx => hq x (hr.files x hx))
    (fun f hf t t' hs hok => by
      have hw := (statement_ok hok).2.1
      obtain ⟨hs', hgone⟩ := deleteFile_spares hf hs hw
      exact ⟨hs', deleteFile_shrinks hw, hgone⟩) hs₃ h₄
  obtain ⟨hs₅, hr₅, htables⟩ := each_work (I := Spares v q.path) (R := Shrinks) (Q := fun (t : TableRow) w => ∀ x ∈ w.tables, x.id ≠ t.id)
    Shrinks.refl (fun _ _ _ h h' => h.trans h') (fun t w w' hr hq x hx => hq x (hr.tables x hx))
    (fun t ht u u' hs hok => by
      have hw := (statement_ok hok).2.1
      obtain ⟨hs', hgone⟩ := deleteTable_spares ht hs hw
      exact ⟨hs', deleteTable_shrinks hw, hgone⟩) hs₄ h₅
  have hlater := hr₄.trans hr₅
  refine ⟨hskill, hrefusal, t₅.work, ⟨hs₅, ?_, ?_, ?_, htables⟩, (statement_ok ht).2.1⟩
  · exact fun d hd x hx => hdocs d hd x ((hr₃.trans hlater).documents x hx)
  · intro r hr x hx hid
    by_contra hlive
    have hlive' : x.live = true := by simpa using hlive
    rw [hnatives r hr x (hlater.natives x hx hlive') hid] at hlive'
    cases hlive'
  · exact fun f hf x hx => hfiles f hf x (hr₅.files x hx)

end Akb.Collections
