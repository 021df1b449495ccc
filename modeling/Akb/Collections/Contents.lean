import Akb.Collections.Resources
import Akb.Collections.Seeded

/-! Deletion of a collection touches what lies under its path. The catalogue's rows that the cutover
keeps count as contents too, and an empty collection with such rows is refused. -/
namespace Akb.Collections
open Akb.Library Akb.Library.OuterTransaction Akb.Uri Resource

/-- `w` is `v` without what lies at or under the path. -/
structure TouchesContents (v : Vault) (p : Text) (w : Vault) : Prop where
  gone : ∀ s, LiveIn w s → ¬ s.Under w p
  goneCollections : ∀ c ∈ w.collections, ¬ AtOrBelow p c.path
  keptCollections : ∀ c ∈ v.collections, ¬ AtOrBelow p c.path → c ∈ w.collections
  kept : ∀ s, LiveIn v s → ¬ s.AtOrUnder v p → LiveIn w s
  collection : ∀ s, LiveIn v s → ¬ s.AtOrUnder v p → w.collectionPath s.collectionId = v.collectionPath s.collectionId
  chunks : ∀ s, LiveIn v s → ¬ s.AtOrUnder v p → ∀ c, HasChunk c s → (c ∈ w.chunks ↔ c ∈ v.chunks)
  publications : ∀ s, LiveIn v s → ¬ s.AtOrUnder v p → ∀ q, HasPublication v q s →
    (q ∈ w.publications ↔ q ∈ v.publications)
  edges : ∀ s, LiveIn v s → ¬ s.AtOrUnder v p → ∀ e, HasEdge v e s →
    (∀ s', LiveIn v s' → s'.AtOrUnder v p → ¬ HasEdge v e s') → (e ∈ w.edges ↔ e ∈ v.edges)

/-- The row exists, and nothing live lies under it. -/
def Empty (v : Vault) (p : Text) : Prop :=
  (∃ c ∈ v.collections, c.path = p) ∧ (∀ c ∈ v.collections, ¬ Below p c.path) ∧ ∀ s, LiveIn v s → ¬ s.Under v p

/-- No row of the catalogue that the cutover kept lies under the path, and no live document of the
ledger has the path itself. -/
def NoPhantom (v : Vault) (p : Text) : Prop :=
  (v.native = true → ∀ d ∈ v.documents, ¬ Below p d.path) ∧ ∀ r ∈ v.natives, r.live = true → r.currentPath ≠ p

/-- What is asked of the deletion of a collection. -/
def DeletesContents (q : Request) (v : Vault) : Prop :=
  (∀ w, delete q v = .ok w → TouchesContents v q.path w) ∧
    (q.recursive = false → ((∃ w, delete q v = .ok w) ↔ Empty v q.path))

variable {v w w' : Vault} {p : Text} {q : Request}

theorem inCollection_iff {collectionId : Option Id} :
    v.InCollection p collectionId ↔ ∃ c ∈ v.collections, collectionId = some c.id ∧ AtOrBelow p c.path := by
  rw [Vault.InCollection, Vault.collectionPath]
  constructor
  · rintro ⟨path, hpath, hunder⟩
    obtain ⟨i, hi, hget⟩ := Option.bind_eq_some_iff.mp hpath
    obtain ⟨c, hrow, rfl⟩ := Option.map_eq_some_iff.mp hget
    obtain ⟨hc, rfl⟩ := Table.get?_eq_some.mp hrow
    exact ⟨c, hc, hi, hunder⟩
  · rintro ⟨c, hc, rfl, hunder⟩
    exact ⟨c.path, by rw [Option.bind_some, Table.get?_eq_some.mpr ⟨hc, rfl⟩]; rfl, hunder⟩

theorem mem_subRows {c : Collection} : c ∈ v.subRows p ↔ c ∈ v.collections ∧ Below p c.path := by
  rw [Vault.subRows, List.mem_filter, decide_eq_true_eq]
  rfl

theorem mem_collectionIds (h : WellFormed v) {i : Id} :
    i ∈ collectionIds q v ↔ ∃ c ∈ v.collections, c.id = i ∧ AtOrBelow q.path c.path := by
  rw [collectionIds, List.mem_append, List.mem_map, Option.mem_toList, Option.map_eq_some_iff]
  constructor
  · rintro (⟨c, hc, rfl⟩ | ⟨c, hc, rfl⟩)
    · exact ⟨c, (mem_subRows.mp hc).1, rfl, Or.inr (mem_subRows.mp hc).2⟩
    · exact ⟨c, List.mem_of_find?_eq_some hc, rfl, Or.inl (by simpa using List.find?_some hc)⟩
  · rintro ⟨c, hc, rfl, hpath | hbelow⟩
    · right
      cases hfind : v.target q.path with
      | none => exact absurd hpath (by simpa using List.find?_eq_none.mp hfind c hc)
      | some c' =>
        have hpath' : c'.path = q.path := by simpa using List.find?_some hfind
        exact ⟨c', rfl, by rw [h.onePath c hc c' (List.mem_of_find?_eq_some hfind) (hpath.trans hpath'.symm)]⟩
    · exact Or.inl ⟨c, mem_subRows.mpr ⟨hc, hbelow⟩, rfl⟩

theorem below_of_below {c path : Text} (h : AtOrBelow p c) (hc : Below c path) : Below p path := by
  rcases h with rfl | h
  · exact hc
  · obtain ⟨r, rfl⟩ := h
    obtain ⟨s, rfl⟩ := hc
    exact ⟨r ++ '/' :: s, by simp⟩

/-! ### A successful call -/

/-- The catalogue has no row under the path where the ledger has the documents. -/
theorem no_rows_of_ok (h : WellFormed v) (hok : delete q v = .ok w) (hn : v.native = true) : v.listDocsUnder q.path = [] := by
  rw [delete_eq v (delete_ok hok).1] at hok
  obtain ⟨t, ht, -⟩ := transaction_ok hok
  obtain ⟨u, hu, -⟩ := andThen_ok ht
  obtain ⟨-, -, -, -, hfence⟩ := opening_ok hu
  rcases h.fresh hn with hfenced | hnone
  · by_contra hrows
    exact hfence ⟨hfenced, hrows⟩
  · by_contra hrows
    obtain ⟨d, hd⟩ := List.exists_mem_of_ne_nil _ hrows
    exact hnone d (mem_listDocsUnder.mp hd).1

/-- What the loops of a successful call take is live and at or under the path. -/
theorem taken_of_ok (h : WellFormed v) (hok : delete q v = .ok w) :
    (∀ d ∈ v.listDocsUnder q.path, LiveIn v (.legacy d) ∧ AtOrUnder v q.path (.legacy d)) ∧
    (∀ r ∈ v.nativeDocsUnder q.path, LiveIn v (.native r) ∧ AtOrUnder v q.path (.native r)) ∧
    (∀ f ∈ v.listFilesUnder q.path, LiveIn v (.file f) ∧ AtOrUnder v q.path (.file f)) ∧
    ∀ t ∈ v.listTablesUnder q.path, LiveIn v (.table t) ∧ AtOrUnder v q.path (.table t) := by
  refine ⟨?_, ?_, ?_, ?_⟩
  · intro d hd
    obtain ⟨hmem, hbelow⟩ := mem_listDocsUnder.mp hd
    refine ⟨⟨?_, hmem⟩, Or.inr hbelow⟩
    by_contra hn
    rw [no_rows_of_ok h hok (by simpa using hn)] at hd
    cases hd
  · intro r hr
    obtain ⟨hn, hmem, hlive, hunder⟩ := mem_nativeDocsUnder.mp hr
    exact ⟨⟨hn, hmem, hlive⟩, hunder⟩
  · intro f hf
    obtain ⟨hmem, -, hin⟩ := mem_listFilesUnder.mp hf
    exact ⟨hmem, hin⟩
  · intro t ht
    obtain ⟨hmem, hin⟩ := mem_listTablesUnder.mp ht
    exact ⟨hmem, hin⟩

/-- A chunk belongs to one resource. -/
theorem resource_of_chunk {c : Chunk} {s s' : Resource} (hs : LiveIn v s) (hs' : LiveIn v s') (hc : HasChunk c s)
    (hc' : HasChunk c s') : s = s' := by
  cases s with
  | legacy d =>
    cases s' with
    | legacy d' => exact congrArg _ (Table.eq_of_key hs.2 hs'.2 (hc.2.symm.trans hc'.2))
    | native r' => exact absurd (hs.1.symm.trans hs'.1) (by decide)
    | file f' => exact absurd (hc.1.symm.trans hc'.1) (by decide)
    | table t' => exact absurd (hc.1.symm.trans hc'.1) (by decide)
  | native r =>
    cases s' with
    | legacy d' => exact absurd (hs'.1.symm.trans hs.1) (by decide)
    | native r' => exact congrArg _ (Table.eq_of_key hs.2.1 hs'.2.1 (hc.2.symm.trans hc'.2))
    | file f' => exact absurd (hc'.1 ▸ hc.1) (by decide)
    | table t' => exact absurd (hc'.1 ▸ hc.1) (by decide)
  | file f =>
    cases s' with
    | legacy d' => exact absurd (hc.1.symm.trans hc'.1) (by decide)
    | native r' => exact absurd (hc.1 ▸ hc'.1) (by decide)
    | file f' => exact congrArg _ (Table.eq_of_key hs hs' (hc.2.symm.trans hc'.2))
    | table t' => exact absurd (hc.1.symm.trans hc'.1) (by decide)
  | table t =>
    cases s' with
    | legacy d' => exact absurd (hc.1.symm.trans hc'.1) (by decide)
    | native r' => exact absurd (hc.1 ▸ hc'.1) (by decide)
    | file f' => exact absurd (hc.1.symm.trans hc'.1) (by decide)
    | table t' => exact congrArg _ (Table.eq_of_key hs hs' (hc.2.symm.trans hc'.2))

theorem chunkClear_of_outside (h : WellFormed v) (hok : delete q v = .ok w) {s : Resource} (hs : LiveIn v s)
    (hout : ¬ s.AtOrUnder v q.path) {c : Chunk} (hc : HasChunk c s) : ChunkClear v q.path c := by
  have hclear : ∀ s', LiveIn v s' → s'.AtOrUnder v q.path → ¬ HasChunk c s' := by
    intro s' hs' hunder hc'
    exact hout (resource_of_chunk hs hs' hc hc' ▸ hunder)
  obtain ⟨hdocs, hnatives, hfiles, htables⟩ := taken_of_ok h hok
  refine ⟨fun d hd => ?_, fun r hr => ?_, fun f hf => ?_, fun t ht => ?_⟩
  · exact hclear _ (hdocs d hd).1 (hdocs d hd).2
  · exact fun hc => hclear _ (hnatives r hr).1 (hnatives r hr).2 ⟨Or.inl hc.1, hc.2⟩
  · exact hclear _ (hfiles f hf).1 (hfiles f hf).2
  · exact hclear _ (htables t ht).1 (htables t ht).2

theorem publicationClear_of_outside (h : WellFormed v) (hok : delete q v = .ok w) {s : Resource} (hs : LiveIn v s)
    (hout : ¬ s.AtOrUnder v q.path) {b : Publication} (hb : b ∈ v.publications) (hpub : HasPublication v b s) :
    PublicationClear v q.path b := by
  have huri : b.resourceUri = some (s.uri v) := hpub.elim id (resourceUri_of_binds h hb hs)
  have hclear : ∀ s', LiveIn v s' → s'.AtOrUnder v q.path → ¬ HasPublication v b s' := by
    intro s' hs' hunder hpub'
    have huri' : b.resourceUri = some (s'.uri v) := hpub'.elim id (resourceUri_of_binds h hb hs')
    exact hout (atOrUnder_of_uri h hs' hs (Option.some.inj (huri'.symm.trans huri)) hunder)
  obtain ⟨hdocs, hnatives, hfiles, -⟩ := taken_of_ok h hok
  refine ⟨fun d hd => ?_, fun r hr => ?_, fun f hf => ?_⟩
  · have hno := hclear _ (hdocs d hd).1 (hdocs d hd).2
    exact ⟨fun hc => hno (Or.inr hc), fun hc => hno (Or.inl hc)⟩
  · exact fun hc => hclear _ (hnatives r hr).1 (hnatives r hr).2 (Or.inr hc)
  · exact fun hc => hclear _ (hfiles f hf).1 (hfiles f hf).2 (Or.inl hc)

theorem edgeClear_of_whole (h : WellFormed v) (hok : delete q v = .ok w) {e : Edge}
    (hwhole : ∀ s, LiveIn v s → s.AtOrUnder v q.path → ¬ HasEdge v e s) : EdgeClear v q.path e := by
  obtain ⟨hdocs, hnatives, hfiles, htables⟩ := taken_of_ok h hok
  refine ⟨fun d hd => ?_, fun r hr => ?_, fun f hf => ?_, fun t ht => ?_⟩
  · have hno := hwhole _ (hdocs d hd).1 (hdocs d hd).2
    exact ⟨fun hc => hno (Or.inl (Or.inl hc)), fun hc => hno (Or.inl (Or.inr hc))⟩
  · have hno := hwhole _ (hnatives r hr).1 (hnatives r hr).2
    exact ⟨⟨fun hc => hno (Or.inl (Or.inl hc)), fun hc => hno (Or.inl (Or.inr hc))⟩,
      fun hc => hno (Or.inr (Or.inl hc)), fun hc => hno (Or.inr (Or.inr hc))⟩
  · have hno := hwhole _ (hfiles f hf).1 (hfiles f hf).2
    exact ⟨fun hc => hno (Or.inl (Or.inl hc)), fun hc => hno (Or.inl (Or.inr hc))⟩
  · have hno := hwhole _ (htables t ht).1 (htables t ht).2
    exact ⟨fun hc => hno (Or.inl (Or.inl hc)), fun hc => hno (Or.inl (Or.inr hc))⟩

theorem collectionId_of_outside (h : WellFormed v) {s : Resource} (hs : LiveIn v s) (hout : ¬ s.AtOrUnder v q.path) :
    ∀ i ∈ s.collectionId, i ∉ collectionIds q v := by
  intro i hi hmem
  obtain ⟨c, hc, rfl, hunder⟩ := (mem_collectionIds h).mp hmem
  cases s with
  | legacy d =>
    obtain ⟨c', hc', hid, hbelow⟩ := h.inCollection d hs.2 c.id hi
    obtain rfl := Table.eq_of_key hc' hc hid
    exact hout (Or.inr (below_of_below hunder hbelow))
  | native r => cases hi
  | file f => exact hout (inCollection_iff.mpr ⟨c, hc, hi, hunder⟩)
  | table t => exact hout (inCollection_iff.mpr ⟨c, hc, hi, hunder⟩)

theorem touchesContents_of_ok (h : WellFormed v) (hok : delete q v = .ok w) : TouchesContents v q.path w := by
  obtain ⟨-, -, u, hcleared, hlast⟩ := delete_ok hok
  obtain ⟨hname, hnative, -, hnatives, hedges, hpubs, hchunks, hcolls, hdocs, hfiles, htables⟩ := deleteCollections_ok hlast
  have hsp := hcleared.spares
  have hgone : ∀ c ∈ w.collections, ¬ AtOrBelow q.path c.path := by
    intro c hc hunder
    obtain ⟨hc, hno⟩ := (hcolls c).mp hc
    rw [hsp.collections] at hc
    exact hno ((mem_collectionIds h).mpr ⟨c, hc, rfl, hunder⟩)
  have hkeptc : ∀ c ∈ v.collections, ¬ AtOrBelow q.path c.path → c ∈ w.collections := by
    intro c hc hout
    refine (hcolls c).mpr ⟨hsp.collections ▸ hc, fun hmem => hout ?_⟩
    obtain ⟨c', hc', hid, hunder⟩ := (mem_collectionIds h).mp hmem
    exact Table.eq_of_key hc' hc hid ▸ hunder
  refine ⟨?_, hgone, hkeptc, ?_, ?_, ?_, ?_, ?_⟩
  · intro s hs hunder
    cases s with
    | legacy d =>
      obtain ⟨a, ha, rfl⟩ := (hdocs d).mp hs.2
      exact hcleared.documents a (mem_listDocsUnder.mpr ⟨hsp.documents a ha, hunder⟩) a ha rfl
    | native r =>
      obtain ⟨hn, hr, hlive⟩ := hs
      rw [hnatives] at hr
      have hmem := mem_nativeDocsUnder.mpr ⟨(hsp.native.symm.trans hnative.symm).trans hn, hsp.natives r hr hlive, hlive,
        Or.inr hunder⟩
      rw [hcleared.natives r hmem r hr rfl] at hlive
      cases hlive
    | file f =>
      obtain ⟨c, hc, -, hin⟩ := inCollection_iff.mp hunder
      exact hgone c hc hin
    | table t =>
      obtain ⟨c, hc, -, hin⟩ := inCollection_iff.mp hunder
      exact hgone c hc hin
  · intro s hs hout
    have hunlinked := unlinked_of_notMem (collectionId_of_outside h hs hout)
    cases s with
    | legacy d =>
      refine ⟨hnative.trans (hsp.native.trans hs.1), (hdocs d).mpr ⟨d, ?_, ?_⟩⟩
      · exact hsp.documentsKept d hs.2 fun hbelow => hout (Or.inr hbelow)
      · rw [show Vault.unlinked _ d.collectionId = d.collectionId from hunlinked]
    | native r =>
      refine ⟨hnative.trans (hsp.native.trans hs.1), hnatives ▸ hsp.nativesKept r hs.2.1 fun hmem => hout ?_, hs.2.2⟩
      exact (mem_nativeDocsUnder.mp hmem).2.2.2
    | file f =>
      refine (hfiles f).mpr ⟨f, hsp.filesKept f hs fun hmem => hout (mem_listFilesUnder.mp hmem).2.2, ?_⟩
      rw [show Vault.unlinked _ f.collectionId = f.collectionId from hunlinked]
    | table t =>
      refine (htables t).mpr ⟨t, hsp.tablesKept t hs fun hmem => hout (mem_listTablesUnder.mp hmem).2, ?_⟩
      rw [show Vault.unlinked _ t.collectionId = t.collectionId from hunlinked]
  · intro s hs hout
    cases hi : s.collectionId with
    | none => rfl
    | some i =>
      rw [Vault.collectionPath, Vault.collectionPath, Option.bind_some, Option.bind_some]
      cases hget : v.collections.get? i with
      | none =>
        rw [Table.get?_eq_none.mpr]
        intro c hc
        exact Table.get?_eq_none.mp hget c (hsp.collections ▸ ((hcolls c).mp hc).1)
      | some c =>
        obtain ⟨hc, rfl⟩ := Table.get?_eq_some.mp hget
        rw [Table.get?_eq_some.mpr ⟨(hcolls c).mpr ⟨hsp.collections ▸ hc, ?_⟩, rfl⟩]
        exact collectionId_of_outside h hs hout c.id hi
  · intro s hs hout c hc
    rw [hchunks]
    exact ⟨hsp.noChunks c, fun hmem => hsp.chunks c hmem (chunkClear_of_outside h hok hs hout hc)⟩
  · intro s hs hout b hb
    rw [hpubs]
    exact ⟨hsp.noPublications b, fun hmem => hsp.publications b hmem (publicationClear_of_outside h hok hs hout hmem hb)⟩
  · intro s hs hout e he hwhole
    rw [hedges]
    exact ⟨hsp.noEdges e, fun hmem => hsp.edges e hmem (edgeClear_of_whole h hok hwhole)⟩

/-! ### A call without `recursive` -/

theorem empty_of_ok (h : WellFormed v) (hrec : q.recursive = false) (hok : delete q v = .ok w) :
    Empty v q.path ∧ NoPhantom v q.path := by
  obtain ⟨-, hrefusal, -⟩ := delete_ok hok
  rw [refusal] at hrefusal
  split at hrefusal
  · cases hrefusal
  rename_i hfound
  split at hrefusal
  · cases hrefusal
  rename_i hcount
  have hall : v.subRows q.path = [] ∧ (v.listDocsUnder q.path).length + (v.nativeDocsUnder q.path).length = 0 ∧
      v.listFilesUnder q.path = [] ∧ v.listTablesUnder q.path = [] := by tauto
  obtain ⟨hsubs, hdocs, hfiles, htables⟩ := hall
  have hrows : v.listDocsUnder q.path = [] := List.eq_nil_of_length_eq_zero (by omega)
  have hnatives : v.nativeDocsUnder q.path = [] := List.eq_nil_of_length_eq_zero (by omega)
  obtain ⟨c, hc⟩ : ∃ c, v.target q.path = some c := by
    cases htarget : v.target q.path with
    | none => exact absurd ⟨by rw [htarget]; rfl, hsubs, hdocs, hfiles, htables⟩ hfound
    | some c => exact ⟨c, rfl⟩
  have hrow : ∀ d ∈ v.documents, ¬ Below q.path d.path := fun d hd hbelow =>
    List.not_mem_nil (hrows ▸ mem_listDocsUnder.mpr ⟨hd, hbelow⟩)
  have hnative : v.native = true → ∀ r ∈ v.natives, r.live = true → ¬ AtOrBelow q.path r.currentPath :=
    fun hn r hr hlive hunder => List.not_mem_nil (hnatives ▸ mem_nativeDocsUnder.mpr ⟨hn, hr, hlive, hunder⟩)
  refine ⟨⟨⟨c, List.mem_of_find?_eq_some hc, by simpa using List.find?_some hc⟩, ?_, ?_⟩, ?_, ?_⟩
  · intro k hk hbelow
    exact List.not_mem_nil (hsubs ▸ mem_subRows.mpr ⟨hk, hbelow⟩)
  · intro s hs hunder
    cases s with
    | legacy d => exact hrow d hs.2 hunder
    | native r => exact hnative hs.1 r hs.2.1 hs.2.2 (Or.inr hunder)
    | file f =>
      cases hkind : f.kind with
      | file => exact List.not_mem_nil (hfiles ▸ mem_listFilesUnder.mpr ⟨hs, hkind, hunder⟩)
      | attachment =>
        obtain ⟨k, -, hid, -⟩ := inCollection_iff.mp hunder
        rw [h.leaves.attachment f hs hkind] at hid
        cases hid
    | table t => exact List.not_mem_nil (htables ▸ mem_listTablesUnder.mpr ⟨hs, hunder⟩)
  · exact fun _ => hrow
  · intro r hr hlive hpath
    cases hn : v.native with
    | false => exact (h.legacy hn).2 r hr
    | true => exact hnative hn r hr hlive (Or.inl hpath)

theorem ok_of_empty (h : WellFormed v) (hseed : Seeded v) (hfault : ∀ n, q.fault n = none) (hempty : Empty v q.path)
    (hphantom : NoPhantom v q.path) : ∃ w, delete q v = .ok w := by
  obtain ⟨⟨c, hc, hpath⟩, hsubs, hlive⟩ := hempty
  have hrow : ∀ d ∈ v.documents, ¬ Below q.path d.path := by
    intro d hd hbelow
    cases hn : v.native with
    | false => exact hlive (.legacy d) ⟨hn, hd⟩ hbelow
    | true => exact hphantom.1 hn d hd hbelow
  have hskill : q.path ≠ skillCollection := by
    intro hskill
    obtain ⟨d, hd, hdpath⟩ := hseed ⟨c, hc, hpath.trans hskill⟩
    exact hrow d hd (hskill ▸ hdpath ▸ reserved_vaultSkillPath)
  have hrows : v.listDocsUnder q.path = [] :=
    List.eq_nil_iff_forall_not_mem.mpr fun d hd => hrow d (mem_listDocsUnder.mp hd).1 (mem_listDocsUnder.mp hd).2
  have hnatives : v.nativeDocsUnder q.path = [] := by
    refine List.eq_nil_iff_forall_not_mem.mpr fun r hr => ?_
    obtain ⟨hn, hmem, hl, hat | hbelow⟩ := mem_nativeDocsUnder.mp hr
    · exact hphantom.2 r hmem hl hat
    · exact hlive (.native r) ⟨hn, hmem, hl⟩ hbelow
  have hfiles : v.listFilesUnder q.path = [] := List.eq_nil_iff_forall_not_mem.mpr fun f hf =>
    hlive (.file f) (mem_listFilesUnder.mp hf).1 (mem_listFilesUnder.mp hf).2.2
  have htables : v.listTablesUnder q.path = [] := List.eq_nil_iff_forall_not_mem.mpr fun t ht =>
    hlive (.table t) (mem_listTablesUnder.mp ht).1 (mem_listTablesUnder.mp ht).2
  have hsub : v.subRows q.path = [] := List.eq_nil_iff_forall_not_mem.mpr fun k hk =>
    hsubs k (mem_subRows.mp hk).1 (mem_subRows.mp hk).2
  have htarget : (v.target q.path).isNone = false := by
    rw [Option.isNone_eq_false_iff, Vault.target, List.find?_isSome]
    exact ⟨c, hc, decide_eq_true hpath⟩
  have hrefusal : refusal q v = none := by
    simp [refusal, hsub, hrows, hnatives, hfiles, htables, htarget]
  have hfence : ¬ (v.fenced ∧ ∃ d ∈ v.documents.rows, ∃ i ∈ d.collectionId, i ∈ collectionIds q v) := by
    rintro ⟨-, d, hd, i, hi, hmem⟩
    obtain ⟨k, hk, hid, hbelow⟩ := h.inCollection d hd i hi
    obtain ⟨k', hk', hid', hunder⟩ := (mem_collectionIds h).mp hmem
    obtain rfl := Table.eq_of_key hk hk' (hid.trans hid'.symm)
    exact hrow d hd (below_of_below hunder hbelow)
  have hdelete : ∃ w, v.deleteCollections (collectionIds q v) = .ok w := by
    rw [Vault.deleteCollections, if_neg hfence]
    exact ⟨_, rfl⟩
  obtain ⟨w, hw⟩ := hdelete
  rw [collectionIds] at hw
  refine ⟨w, ?_⟩
  rw [delete, if_neg hskill]
  simp only [transaction, andThen, snapshot, statement, hfault, hrefusal, cleanUp, hrows, hnatives, hfiles, htables, each, hw]

/-- The deletion does what is asked of it, a call without `recursive` on an empty collection apart
under whose path the catalogue has kept rows, or whose path a live document of the ledger has. -/
theorem deletes_contents_iff (hv : Reachable v) (hfault : ∀ n, q.fault n = none) :
    DeletesContents q v ↔ (q.recursive = false → Empty v q.path → NoPhantom v q.path) := by
  have h := hv.wellFormed
  constructor
  · rintro ⟨-, hiff⟩ hrec hempty
    obtain ⟨w, hok⟩ := (hiff hrec).mpr hempty
    exact (empty_of_ok h hrec hok).2
  · intro hphantom
    refine ⟨fun w hok => touchesContents_of_ok h hok, fun hrec => ⟨?_, fun hempty => ?_⟩⟩
    · rintro ⟨w, hok⟩
      exact (empty_of_ok h hrec hok).1
    · exact ok_of_empty h hv.seeded hfault hempty (hphantom hrec hempty)

/-- Two documents, the cutover, and a move of the first one away from its collection. -/
def movedAway : List Op :=
  [.putDocument ['1'] "c/x.md".toList ['k'] ['a'], .putDocument ['2'] "e/y.md".toList ['l'] ['b'],
    .cutover [] (fun i => i), .nativeMove ['1'] "d/x.md".toList ['m']]

def movedVault : Vault := List.foldl Vault.next (emptyVault ['v'] false) movedAway

theorem movedVault_reachable : Reachable movedVault := ⟨['v'], false, movedAway, rfl⟩

def request (path : Text) (recursive : Bool) : Request := ⟨path, recursive, false, false, fun i => i, fun _ => none⟩

theorem deletes_contents_iff_recursive : DeletesContents (request ['e'] true) movedVault :=
  (deletes_contents_iff movedVault_reachable (fun _ => rfl)).mpr (fun hrec => by cases hrec)

theorem empty_movedVault : Empty movedVault ['c'] := by
  refine ⟨by decide +kernel, by decide, fun s hs => ?_⟩
  cases s with
  | legacy d => exact absurd hs.1 (by decide +kernel)
  | native r =>
    have hnone : ∀ r ∈ movedVault.natives.rows, ¬ Below ['c'] r.currentPath := by decide
    exact hnone r hs.2.1
  | file f =>
    have hnone : movedVault.files.rows = [] := by decide +kernel
    exact absurd (hnone ▸ hs : f ∈ []) List.not_mem_nil
  | table t =>
    have hnone : movedVault.tables.rows = [] := by decide
    exact absurd (hnone ▸ hs : t ∈ []) List.not_mem_nil

/-- The row that the cutover kept for the moved document counts as contents of its old collection. -/
theorem kept_row_refuses_deletion :
    Reachable movedVault ∧ ((delete (request ['c'] false) movedVault).toOption.isNone) ∧
      ¬ DeletesContents (request ['c'] false) movedVault := by
  have hrefused : (delete (request ['c'] false) movedVault).toOption.isNone := by decide +kernel
  refine ⟨movedVault_reachable, hrefused, ?_⟩
  rintro ⟨-, hiff⟩
  obtain ⟨w, hok⟩ := (hiff rfl).mpr empty_movedVault
  rw [hok] at hrefused
  cases hrefused

end Akb.Collections
