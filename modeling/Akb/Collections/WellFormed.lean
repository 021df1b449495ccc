import Akb.Collections.Writes

/-! What every operation on a vault keeps: one row for each path of the catalogue and of the
collections, rows in the collection that their path names, and publications whose URI is that of the
document they are bound to. -/
namespace Akb.Collections
open Akb.Library Akb.Library.OuterTransaction Akb.Uri

/-- Attachments are in no collection, and a table is known by its name. -/
structure WellNamed (files : Table FileRow FileRow.id) (tables : Table TableRow TableRow.id) : Prop where
  fileId : ∀ f ∈ files, '/' ∉ f.id
  attachment : ∀ f ∈ files, f.kind = .attachment → f.collectionId = none
  tableName : ∀ t ∈ tables, '/' ∉ t.name
  oneTable : ∀ t ∈ tables, ∀ t' ∈ tables, t.name = t'.name → t = t'

structure WellFormed (v : Vault) : Prop where
  onePath : ∀ c ∈ v.collections, ∀ c' ∈ v.collections, c.path = c'.path → c = c'
  oneDocument : ∀ d ∈ v.documents, ∀ d' ∈ v.documents, d.path = d'.path → d = d'
  inCollection : ∀ d ∈ v.documents, ∀ id ∈ d.collectionId, ∃ c ∈ v.collections, c.id = id ∧ Below c.path d.path
  bound : ∀ p ∈ v.publications, ∀ id ∈ p.documentId, ∃ d ∈ v.documents, d.id = id ∧ p.resourceUri = some (v.docUri d.path)
  nativeBound : ∀ p ∈ v.publications, ∀ id ∈ p.nativeDocumentId,
    ∃ r ∈ v.natives, r.resourceId = id ∧ r.live = true ∧ p.resourceUri = some (v.docUri r.currentPath)
  oneBinding : ∀ p ∈ v.publications, p.documentId = none ∨ p.nativeDocumentId = none
  leaves : WellNamed v.files v.tables
  legacy : v.native = false → v.fenced = false ∧ ∀ r, r ∉ v.natives
  fresh : v.native = true → v.fenced = true ∨ ∀ d, d ∉ v.documents

theorem wellFormed_empty (name : Text) (native : Bool) : WellFormed (emptyVault name native) where
  onePath c hc := absurd hc (Table.not_mem_empty c)
  oneDocument d hd := absurd hd (Table.not_mem_empty d)
  inCollection d hd := absurd hd (Table.not_mem_empty d)
  bound _ hp := absurd hp List.not_mem_nil
  nativeBound _ hp := absurd hp List.not_mem_nil
  oneBinding _ hp := absurd hp List.not_mem_nil
  leaves := ⟨fun f hf => absurd hf (Table.not_mem_empty f), fun f hf => absurd hf (Table.not_mem_empty f),
    fun t ht => absurd ht (Table.not_mem_empty t), fun t ht => absurd ht (Table.not_mem_empty t)⟩
  legacy _ := ⟨rfl, Table.not_mem_empty⟩
  fresh _ := Or.inr Table.not_mem_empty

/-- Fewer files and tables, with the same names, each where it was or in no collection. -/
theorem WellNamed.thin {files files' : Table FileRow FileRow.id} {tables tables' : Table TableRow TableRow.id}
    (h : WellNamed files tables)
    (hf : ∀ f ∈ files', ∃ a ∈ files, a.id = f.id ∧ a.kind = f.kind ∧ (a.collectionId = none → f.collectionId = none))
    (ht : ∀ t ∈ tables', ∃ a ∈ tables, a.id = t.id ∧ a.name = t.name) : WellNamed files' tables' where
  fileId f hmem := by
    obtain ⟨a, ha, hid, -⟩ := hf f hmem
    exact hid ▸ h.fileId a ha
  attachment f hmem hkind := by
    obtain ⟨a, ha, -, hk, hnone⟩ := hf f hmem
    exact hnone (h.attachment a ha (hk.trans hkind))
  tableName t hmem := by
    obtain ⟨a, ha, -, hname⟩ := ht t hmem
    exact hname ▸ h.tableName a ha
  oneTable t hmem t' hmem' he := by
    obtain ⟨a, ha, hid, hname⟩ := ht t hmem
    obtain ⟨a', ha', hid', hname'⟩ := ht t' hmem'
    have hsame := h.oneTable a ha a' ha' (hname.trans (he.trans hname'.symm))
    exact Table.eq_of_key hmem hmem' (hid.symm.trans (hsame ▸ hid'))

theorem WellNamed.thinFiles {files files' : Table FileRow FileRow.id} {tables : Table TableRow TableRow.id}
    (h : WellNamed files tables) (hf : ∀ f ∈ files', f ∈ files) : WellNamed files' tables :=
  h.thin (fun f hmem => ⟨f, hf f hmem, rfl, rfl, fun hn => hn⟩) (fun t ht => ⟨t, ht, rfl, rfl⟩)

theorem WellNamed.thinTables {files : Table FileRow FileRow.id} {tables tables' : Table TableRow TableRow.id}
    (h : WellNamed files tables) (ht : ∀ t ∈ tables', t ∈ tables) : WellNamed files tables' :=
  h.thin (fun f hf => ⟨f, hf, rfl, rfl, fun hn => hn⟩) (fun t hmem => ⟨t, ht t hmem, rfl, rfl⟩)

variable {v w : Vault}

theorem docUri_congr (h : w.name = v.name) : w.docUri = v.docUri := by
  funext path
  rw [Vault.docUri, Vault.docUri, h]

/-- Fewer publications and files, other edges, chunks and tables. -/
theorem WellFormed.thin (h : WellFormed v) (hname : w.name = v.name) (hnative : w.native = v.native)
    (hfenced : w.fenced = v.fenced) (hc : w.collections = v.collections) (hd : w.documents = v.documents)
    (hn : w.natives = v.natives) (hp : ∀ p ∈ w.publications, p ∈ v.publications) (hl : WellNamed w.files w.tables) :
    WellFormed w where
  onePath := hc ▸ h.onePath
  oneDocument := hd ▸ h.oneDocument
  inCollection := by
    rw [hc, hd]
    exact h.inCollection
  bound p hmem id hid := by
    rw [hd, docUri_congr hname]
    exact h.bound p (hp p hmem) id hid
  nativeBound p hmem id hid := by
    rw [hn, docUri_congr hname]
    exact h.nativeBound p (hp p hmem) id hid
  oneBinding p hmem := h.oneBinding p (hp p hmem)
  leaves := hl
  legacy := by
    rw [hnative, hfenced, hn]
    exact h.legacy
  fresh := by
    rw [hnative, hfenced, hd]
    exact h.fresh

theorem WellFormed.deleteLegacy {d : DocumentRow} (h : WellFormed v)
    (hok : v.deleteLegacy d = .ok w) : WellFormed w := by
  rw [Vault.deleteLegacy, Vault.deleteWithPublications] at hok
  split at hok
  · cases hok
    exact h.thin rfl rfl rfl rfl rfl rfl (fun _ hp => hp) h.leaves
  · split at hok
    · cases hok
    · cases hok
      refine ⟨h.onePath, ?_, ?_, ?_, ?_, ?_, h.leaves, h.legacy, ?_⟩
      · exact fun a ha b hb => h.oneDocument a (Table.mem_deleteWhere.mp ha).1 b (Table.mem_deleteWhere.mp hb).1
      · exact fun a ha => h.inCollection a (Table.mem_deleteWhere.mp ha).1
      · intro p hp id hid
        obtain ⟨hp, hne⟩ := List.mem_filter.mp hp
        obtain ⟨a, ha, rfl, huri⟩ := h.bound p (List.mem_filter.mp hp).1 id hid
        refine ⟨a, Table.mem_deleteWhere.mpr ⟨ha, decide_eq_false fun hsame => ?_⟩, rfl, huri⟩
        exact of_decide_eq_true hne (hsame ▸ hid)
      · intro p hp id hid
        exact h.nativeBound p (List.mem_filter.mp (List.mem_filter.mp hp).1).1 id hid
      · exact fun p hp => h.oneBinding p (List.mem_filter.mp (List.mem_filter.mp hp).1).1
      · exact fun hn => (h.fresh hn).imp_right fun hno a ha => hno a (Table.mem_deleteWhere.mp ha).1

theorem WellFormed.publishDelete (h : WellFormed v) (resourceId revisionId : Id) :
    WellFormed (v.publishDelete resourceId revisionId) := by
  refine ⟨h.onePath, h.oneDocument, h.inCollection, ?_, ?_, ?_, h.leaves, ?_, h.fresh⟩
  · exact fun p hp => h.bound p (List.mem_filter.mp hp).1
  · intro p hp id hid
    obtain ⟨hp, hne⟩ := List.mem_filter.mp hp
    obtain ⟨r, hr, rfl, hlive, huri⟩ := h.nativeBound p hp id hid
    refine ⟨r, Vault.mem_publishDelete.mpr (Or.inr ⟨hr, fun hsame => ?_⟩), rfl, hlive, huri⟩
    exact of_decide_eq_true hne (hsame ▸ hid)
  · exact fun p hp => h.oneBinding p (List.mem_filter.mp hp).1
  · intro hn
    refine ⟨(h.legacy hn).1, fun r hr => ?_⟩
    rcases Vault.mem_publishDelete.mp hr with ⟨s, hs, -, -⟩ | ⟨hmem, -⟩
    · exact (h.legacy hn).2 s hs
    · exact (h.legacy hn).2 r hmem

theorem WellFormed.deleteFile {f : FileRow} {nativeText : Bool} (h : WellFormed v)
    (hok : v.deleteFile nativeText f = .ok w) : WellFormed w := by
  have hleft : WellFormed { ((v.dropEdges (v.fileUri f)).dropPublications (v.fileUri f)).dropChunks .file f.id with
      files := v.files.deleteWhere (fun g => g.id = f.id) } :=
    h.thin rfl rfl rfl rfl rfl rfl (fun p hp => (List.mem_filter.mp hp).1)
      (h.leaves.thinFiles fun g hg => (Table.mem_deleteWhere.mp hg).1)
  rw [Vault.deleteFile] at hok
  split at hok
  · cases hok
    exact hleft
  · split at hok
    · split at hok
      · cases hok
        exact hleft
      · cases hok
    · split at hok
      · cases hok
        exact hleft
      · cases hok

theorem WellFormed.deleteTable {t : TableRow} (h : WellFormed v) (hok : v.deleteTable t = .ok w) : WellFormed w := by
  rw [Vault.deleteTable] at hok
  split at hok
  · cases hok
  · cases hok
    exact h.thin rfl rfl rfl rfl rfl rfl (fun p hp => hp)
      (h.leaves.thinTables fun u hu => (Table.mem_deleteWhere.mp hu).1)

theorem unlinked_of_notMem {ids : List Id} {collectionId : Option Id} (h : ∀ c ∈ collectionId, c ∉ ids) :
    Vault.unlinked ids collectionId = collectionId := by
  rw [Vault.unlinked, if_neg]
  rintro ⟨c, hc, hmem⟩
  exact h c hc hmem

theorem mem_unlinked {ids : List Id} {collectionId : Option Id} {c : Id} (h : c ∈ Vault.unlinked ids collectionId) :
    c ∈ collectionId ∧ c ∉ ids := by
  rw [Vault.unlinked] at h
  split at h
  · cases h
  · rename_i hno
    exact ⟨h, fun hmem => hno ⟨c, h, hmem⟩⟩

/-- The rows behind `ON DELETE SET NULL`. -/
theorem deleteCollections_ok {ids : List Id} (hok : v.deleteCollections ids = .ok w) :
    w.name = v.name ∧ w.native = v.native ∧ w.fenced = v.fenced ∧ w.natives = v.natives ∧ w.edges = v.edges ∧
      w.publications = v.publications ∧ w.chunks = v.chunks ∧
      (∀ c, c ∈ w.collections ↔ c ∈ v.collections ∧ c.id ∉ ids) ∧
      (∀ d, d ∈ w.documents ↔ ∃ a ∈ v.documents, d = { a with collectionId := Vault.unlinked ids a.collectionId }) ∧
      (∀ f, f ∈ w.files ↔ ∃ a ∈ v.files, f = { a with collectionId := Vault.unlinked ids a.collectionId }) ∧
      ∀ t, t ∈ w.tables ↔ ∃ a ∈ v.tables, t = { a with collectionId := Vault.unlinked ids a.collectionId } := by
  rw [Vault.deleteCollections] at hok
  split at hok
  · cases hok
  · cases hok
    refine ⟨rfl, rfl, rfl, rfl, rfl, rfl, rfl, fun c => ?_, fun d => ?_, fun f => ?_, fun t => ?_⟩
    · simp only [Table.mem_deleteWhere, decide_eq_false_iff_not]
    · simp [Table.mem_updateWhere]
    · simp [Table.mem_updateWhere]
    · simp [Table.mem_updateWhere]

theorem WellFormed.deleteCollections {ids : List Id} (h : WellFormed v) (hok : v.deleteCollections ids = .ok w) :
    WellFormed w := by
  obtain ⟨hname, hnative, hfenced, hnatives, -, hpubs, -, hcolls, hdocs, hfiles, htables⟩ := deleteCollections_ok hok
  refine ⟨?_, ?_, ?_, ?_, ?_, hpubs ▸ h.oneBinding, ?_, hnative ▸ hfenced ▸ hnatives ▸ h.legacy, ?_⟩
  · exact fun c hc c' hc' => h.onePath c ((hcolls c).mp hc).1 c' ((hcolls c').mp hc').1
  · intro d hd d' hd' hpath
    obtain ⟨a, ha, rfl⟩ := (hdocs d).mp hd
    obtain ⟨b, hb, rfl⟩ := (hdocs d').mp hd'
    rw [h.oneDocument a ha b hb hpath]
  · intro d hd id hid
    obtain ⟨a, ha, rfl⟩ := (hdocs d).mp hd
    obtain ⟨hid, hno⟩ := mem_unlinked hid
    obtain ⟨c, hc, rfl, hbelow⟩ := h.inCollection a ha id hid
    exact ⟨c, (hcolls c).mpr ⟨hc, hno⟩, rfl, hbelow⟩
  · intro p hp id hid
    obtain ⟨a, ha, rfl, huri⟩ := h.bound p (hpubs ▸ hp) id hid
    exact ⟨_, (hdocs _).mpr ⟨a, ha, rfl⟩, rfl, by rw [docUri_congr hname]; exact huri⟩
  · intro p hp id hid
    rw [hnatives, docUri_congr hname]
    exact h.nativeBound p (hpubs ▸ hp) id hid
  · refine h.leaves.thin (fun f hf => ?_) (fun t ht => ?_)
    · obtain ⟨a, ha, rfl⟩ := (hfiles f).mp hf
      refine ⟨a, ha, rfl, rfl, fun hnone => ?_⟩
      rw [hnone]
      rfl
    · obtain ⟨a, ha, rfl⟩ := (htables t).mp ht
      exact ⟨a, ha, rfl, rfl⟩
  · rw [hnative, hfenced]
    refine fun hn => (h.fresh hn).imp_right fun hno d hd => ?_
    obtain ⟨a, ha, -⟩ := (hdocs d).mp hd
    exact hno a ha

theorem WellFormed.delete (h : WellFormed v) (q : Request) :
    (∀ r, delete q v = .error r → WellFormed r.kept) ∧ ∀ w, delete q v = .ok w → WellFormed w := by
  rw [Collections.delete]
  split
  · exact ⟨fun r hr => (by cases hr; exact h), fun w hw => by cases hw⟩
  · refine Upholds.transaction (upholds_andThen ?_ (upholds_andThen ?_ (upholds_andThen ?_ (upholds_andThen ?_
      (upholds_andThen ?_ ?_))))) h
    · refine upholds_statement _ fun s s' hs hok => ?_
      split at hok
      · cases hok
      · cases hok
        exact hs
    · exact upholds_each fun d _ => upholds_statement _ fun s s' hs hok => hs.deleteLegacy hok
    · refine upholds_each fun r _ => upholds_andThen (upholds_ownCommit _ fun s hs => hs.publishDelete _ _) ?_
      refine upholds_statement _ fun s s' hs hok => ?_
      cases hok
      exact hs.thin rfl rfl rfl rfl rfl rfl (fun _ hp => hp) hs.leaves
    · exact upholds_each fun f _ => upholds_statement _ fun s s' hs hok => hs.deleteFile hok
    · exact upholds_each fun t _ => upholds_statement _ fun s s' hs hok => hs.deleteTable hok
    · exact upholds_statement _ fun s s' hs hok => hs.deleteCollections hok

/-- One more collection row, at a path without one. -/
theorem WellFormed.insertCollection {c : Collection} {collections : Table Collection Collection.id} (h : WellFormed v)
    (hfree : v.target c.path = none) (hok : v.collections.insert? c = some collections) :
    WellFormed { v with collections } := by
  have hmem := (Table.insert?_eq_some hok).2
  have hpath : ∀ k ∈ v.collections, k.path ≠ c.path := fun k hk => by
    simpa using List.find?_eq_none.mp hfree k hk
  refine { h with onePath := ?_, inCollection := ?_ }
  · intro k hk k' hk' he
    rcases (hmem k).mp hk with rfl | hk
    · rcases (hmem k').mp hk' with rfl | hk'
      · rfl
      · exact absurd he.symm (hpath k' hk')
    · rcases (hmem k').mp hk' with rfl | hk'
      · exact absurd he (hpath k hk)
      · exact h.onePath k hk k' hk' he
  · intro d hd id hid
    obtain ⟨k, hk, heq⟩ := h.inCollection d hd id hid
    exact ⟨k, (hmem k).mpr (Or.inr hk), heq⟩
theorem WellFormed.getOrCreate {path : Text} {newId id : Id} (h : WellFormed v) (hok : v.getOrCreate path newId = some (w, id)) :
    WellFormed w ∧ w = { v with collections := w.collections } ∧ ∃ c ∈ w.collections, c.id = id ∧ c.path = path := by
  rw [Vault.getOrCreate] at hok
  split at hok
  · rename_i c hc
    cases hok
    exact ⟨h, rfl, c, List.mem_of_find?_eq_some hc, rfl, by simpa using List.find?_some hc⟩
  · rename_i hfree
    obtain ⟨collections, hins, heq⟩ := Option.map_eq_some_iff.mp hok
    cases heq
    exact ⟨h.insertCollection hfree hins, rfl, ⟨newId, path⟩, ((Table.insert?_eq_some hins).2 _).mpr (Or.inl rfl), rfl, rfl⟩

theorem WellFormed.getOrCreate? {path : Option Text} {newId : Id} {id : Option Id} (h : WellFormed v)
    (hok : v.getOrCreate? newId path = some (w, id)) :
    WellFormed w ∧ w = { v with collections := w.collections } ∧
      ∀ i ∈ id, ∃ c ∈ w.collections, c.id = i ∧ path = some c.path := by
  cases path with
  | none =>
    cases hok
    exact ⟨h, rfl, fun i hi => by cases hi⟩
  | some path =>
    obtain ⟨⟨w', id'⟩, hget, heq⟩ := Option.map_eq_some_iff.mp hok
    cases heq
    obtain ⟨hw, hv, c, hc, hid, hpath⟩ := h.getOrCreate hget
    exact ⟨hw, hv, fun i hi => ⟨c, hc, hid.trans (Option.some.inj hi), by rw [hpath]⟩⟩

theorem below_of_directory {path dir : Text} (h : Vault.directory path = some dir) : Below dir path := by
  rw [Vault.directory] at h
  split at h
  · rename_i hslash
    cases h
    obtain ⟨as, bs, hrev, hnot⟩ := List.eq_append_cons_of_mem (List.mem_reverse.mpr hslash)
    have hpath : path = bs.reverse ++ '/' :: as.reverse := by
      rw [← List.reverse_reverse path, hrev]
      simp
    have hbase : '/' ∉ as.reverse := fun hm => hnot (List.mem_reverse.mp hm)
    rw [hpath, rsplit_append _ hbase]
    exact ⟨as.reverse, by simp⟩
  · cases h

/-- A row of the catalogue at a free path, in the collection that the path names. -/
theorem WellFormed.placeDocument (row : DocumentRow) {documents : Table DocumentRow DocumentRow.id} (h : WellFormed v)
    (hmem : ∀ d, d ∈ documents ↔ d = row ∨ (d ∈ v.documents ∧ d.id ≠ row.id)) (hfree : v.FreePath row.path)
    (hcoll : ∀ i ∈ row.collectionId, ∃ c ∈ v.collections, c.id = i ∧ Vault.directory row.path = some c.path)
    {publications : List Publication}
    (hbound : ∀ p ∈ publications, ∀ id ∈ p.documentId, ∃ d ∈ documents, d.id = id ∧ p.resourceUri = some (v.docUri d.path))
    (hnative : ∀ p ∈ publications, ∀ id ∈ p.nativeDocumentId,
      ∃ r ∈ v.natives, r.resourceId = id ∧ r.live = true ∧ p.resourceUri = some (v.docUri r.currentPath))
    (hone : ∀ p ∈ publications, p.documentId = none ∨ p.nativeDocumentId = none) (hlegacy : v.native = false) :
    WellFormed { v with documents, publications } := by
  have hfresh : v.native = true → v.fenced = true ∨ ∀ d, d ∉ documents := fun hn =>
    absurd (hlegacy.symm.trans hn) (by decide)
  refine { h with
    oneDocument := ?_
    inCollection := ?_
    bound := hbound
    nativeBound := hnative
    oneBinding := hone
    fresh := hfresh }
  · intro d hd d' hd' he
    rcases (hmem d).mp hd with rfl | ⟨hd, -⟩
    · rcases (hmem d').mp hd' with rfl | ⟨hd', -⟩
      · rfl
      · exact absurd he.symm (hfree d' hd')
    · rcases (hmem d').mp hd' with rfl | ⟨hd', -⟩
      · exact absurd he (hfree d hd)
      · exact h.oneDocument d hd d' hd' he
  · intro d hd i hi
    rcases (hmem d).mp hd with rfl | ⟨hd, -⟩
    · obtain ⟨c, hc, hid, hdir⟩ := hcoll i hi
      exact ⟨c, hc, hid, below_of_directory hdir⟩
    · exact h.inCollection d hd i hi

theorem WellFormed.putDocument {id path newId commit : Text} (h : WellFormed v)
    (hok : v.putDocument id path newId commit = some w) : WellFormed w := by
  rw [Vault.putDocument] at hok
  split at hok
  · rename_i hfree
    obtain ⟨⟨u, c⟩, hget, hok⟩ := Option.bind_eq_some_iff.mp hok
    obtain ⟨documents, hins, rfl⟩ := Option.map_eq_some_iff.mp hok
    obtain ⟨hu, hv, hcoll⟩ := h.getOrCreate? hget
    obtain ⟨hnew, hmem⟩ := Table.insert?_eq_some hins
    refine hu.placeDocument ⟨id, path, c, commit⟩ ?_ ?_ hcoll ?_ hu.nativeBound hu.oneBinding ?_
    · intro d
      rw [hmem]
      exact or_congr_right ⟨fun hd => ⟨hd, hnew d hd⟩, And.left⟩
    · rw [hv]
      exact hfree.2.1
    · intro p hp i hi
      obtain ⟨d, hd, heq⟩ := hu.bound p hp i hi
      exact ⟨d, (hmem d).mpr (Or.inr hd), heq⟩
    · rw [hv]
      exact hfree.1
  · cases hok

end Akb.Collections
