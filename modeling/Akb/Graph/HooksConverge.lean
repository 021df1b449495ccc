import Akb.Graph.HookRuns

/-! Links, unlinks and hooks in any order: once no hook is due, the rows between live documents
are the links in force. -/
namespace Akb.Graph
open Akb.Library Akb.Uri
variable {v : Vault} {s : NativeState}

theorem resolveDocumentEndpoint_none {c : Catalog} {path : Text} (h : c.resolveDocumentEndpoint path = some ⟨path, none⟩) :
    ∃ d ∈ c.documents, d.path = path := by
  unfold Catalog.resolveDocumentEndpoint at h
  split at h
  · rename_i hlegacy
    obtain ⟨d, hd, hpath⟩ := List.any_eq_true.mp hlegacy
    exact ⟨d, hd, of_decide_eq_true hpath⟩
  · split at h
    · obtain ⟨d, -, hd⟩ := Option.map_eq_some_iff.mp h
      cases hd
    · cases h

/-- No document has the URI of a table or a file. -/
theorem Catalog.Ends.not_docUri {l : Ledger} {e : Endpoint} (h : (v.catalog l).Ends e) (htype : e.type ≠ .doc) (path : Text) :
    docUri v.base.vaultName path ≠ e.uri := by
  rcases h with ⟨hdoc, -⟩ | ⟨-, i, coll, ⟨-, hi, huri⟩ | ⟨-, ⟨f, -, rfl⟩, huri⟩⟩
  · exact absurd hdoc htype
  · rw [huri]
    exact docUri_ne_leafUri (v.tables i hi) (by decide) (by decide)
  · rw [huri]
    exact docUri_ne_leafUri (leaf_file f).slash (by decide) (by decide)

theorem joinedPair_eq_some {ends : Endpoint × Endpoint} {relation : String} {k : Uuid × Uuid × String} :
    joinedPair (.ok ends) relation = some k ↔
      ends.1.resourceId = some k.1 ∧ ends.2.resourceId = some k.2.1 ∧ relation = k.2.2 := by
  obtain ⟨a, b, relation'⟩ := k
  simp [joinedPair, Option.bind_eq_some_iff, Prod.ext_iff]

theorem stamped_live {l : Ledger} {uri : Text} {id : Option Uuid} (h : (v.catalog l).Stamps uri id) {r : Uuid} (hr : id = some r) :
    ∃ d ∈ l.live, d.resourceId = r ∧ uri = docUri v.base.vaultName d.currentPath := by
  obtain ⟨d, hd, hid, huri⟩ := h r hr
  exact ⟨d, hd, hid, huri.symm⟩

/-! ### Links -/

section Link
variable {ends : Endpoint × Endpoint} {relation : String} {createdBy : Option String} {metadata : String}

/-- The end of a link in a column. -/
def endOf (ends : Endpoint × Endpoint) : Column → Endpoint
  | .source => ends.1
  | .target => ends.2

/-- The row under the triple of a link carries the identities of its ends. -/
theorem linked_row {c : Catalog} {e : Edge}
    (h : e ∈ s.edges.insertOr (explicitEdge c ends.1 ends.2 relation createdBy metadata)
      (Edge.relinked (explicitEdge c ends.1 ends.2 relation createdBy metadata))) :
    (e ∈ s.edges ∧ e.key ≠ (ends.1.uri, ends.2.uri, relation)) ∨
      (e.key = (ends.1.uri, ends.2.uri, relation) ∧ e.kind = .explicit ∧
        (∀ column, e.resourceId column = (endOf ends column).resourceId ∧ e.uri column = (endOf ends column).uri) ∧
        ((∀ column, e.type column = (endOf ends column).type) ∧ e.vaultId = c.vaultId ∨
          ∃ old ∈ s.edges, old.key = e.key ∧ (∀ column, e.type column = old.type column) ∧ e.vaultId = old.vaultId)) := by
  rcases (Table.mem_insertOr (Edge.key_relinked _)).mp h with ⟨old, hold, hkey, rfl⟩ | ⟨-, rfl⟩ | he
  · refine .inr ⟨hkey, rfl, fun column => ?_, .inr ⟨old, hold, rfl, fun column => ?_, rfl⟩⟩
    · cases column
      · exact ⟨rfl, congrArg Prod.fst hkey⟩
      · exact ⟨rfl, congrArg (fun k => k.2.1) hkey⟩
    · cases column <;> rfl
  · refine .inr ⟨rfl, rfl, fun column => ?_, .inl ⟨fun column => ?_, rfl⟩⟩
    · cases column <;> exact ⟨rfl, rfl⟩
    · cases column <;> rfl
  · exact .inl he

theorem Upheld.link (h : Upheld v s) (hends : (v.catalog s.ledger).Ends ends.1 ∧ (v.catalog s.ledger).Ends ends.2)
    (hfree : ∀ e ∈ s.edges, e.key = (ends.1.uri, ends.2.uri, relation) → e.OfLivePair s.ledger →
      e.ids = (ends.1.resourceId, ends.2.resourceId)) :
    Upheld v { s with
      edges := s.edges.insertOr (explicitEdge (v.catalog s.ledger) ends.1 ends.2 relation createdBy metadata)
        (Edge.relinked (explicitEdge (v.catalog s.ledger) ends.1 ends.2 relation createdBy metadata))
      linked := (joinedPair (.ok ends) relation).toList ++ s.linked } := by
  have hend : ∀ column, (v.catalog s.ledger).Ends (endOf ends column) := by
    rintro (_ | _)
    · exact hends.1
    · exact hends.2
  have hrow := link_row s.edges
    (explicitEdge (v.catalog s.ledger) ends.1 ends.2 relation createdBy metadata) rfl
  refine ⟨fun a b relation' ha hb => ⟨fun hk => ?_, ?_⟩, fun column e he d hd hid hdue => ?_, fun e he => ?_, fun e he => ?_,
    fun k hk => ?_, fun column e he r hr => ?_, fun column e he htype => ?_, h.deleted⟩
  · rcases List.mem_append.mp hk with hk | hk
    · obtain ⟨hsid, htid, hrel⟩ := joinedPair_eq_some.mp (Option.mem_toList.mp hk)
      obtain ⟨e, he, hkey, hkind, hs, ht⟩ := hrow
      exact ⟨e, he, ⟨hkind, Prod.ext (hs.trans hsid) (ht.trans htid)⟩, (congrArg (fun k => k.2.2) hkey).trans hrel⟩
    · obtain ⟨e, he, hjoins, hrel⟩ := (h.exact a b relation' ha hb).mp hk
      by_cases hkey : e.key = (ends.1.uri, ends.2.uri, relation)
      · have hlive : e.OfLivePair s.ledger := by
          obtain ⟨⟨da, hda, rfl⟩, db, hdb, rfl⟩ := And.intro ha hb
          obtain ⟨hsid, htid⟩ := Prod.mk.inj hjoins.2
          exact ⟨⟨da, hda, hsid⟩, db, hdb, htid⟩
        obtain ⟨e', he', hkey', hkind, hs, ht⟩ := hrow
        have hids : e'.ids = e.ids := (Prod.ext hs ht : e'.ids = (ends.1.resourceId, ends.2.resourceId)).trans
          (hfree e he hkey hlive).symm
        refine ⟨e', he', ⟨hkind, hids.trans hjoins.2⟩, ?_⟩
        exact (congrArg (fun k => k.2.2) (hkey'.trans hkey.symm)).trans hrel
      · exact ⟨e, link_keeps he hkey, hjoins, hrel⟩
  · rintro ⟨e, he, hjoins, hrel⟩
    rcases linked_row he with ⟨he, -⟩ | ⟨hkey, -, hcolumns, -⟩
    · exact List.mem_append_right _ ((h.exact a b relation' ha hb).mpr ⟨e, he, hjoins, hrel⟩)
    · refine List.mem_append_left _ (Option.mem_toList.mpr (joinedPair_eq_some.mpr ⟨?_, ?_, ?_⟩))
      · exact (hcolumns .source).1.symm.trans (Prod.mk.inj hjoins.2).1
      · exact (hcolumns .target).1.symm.trans (Prod.mk.inj hjoins.2).2
      · exact (congrArg (fun k => k.2.2) hkey).symm.trans hrel
  · rcases linked_row he with ⟨he, -⟩ | ⟨-, -, hcolumns, -⟩
    · exact h.current column e he d hd hid hdue
    · obtain ⟨d', hd', hid', huri⟩ := stamped_live (hend column).stamps ((hcolumns column).1.symm.trans hid)
      rw [(hcolumns column).2, huri, List.inj_on_of_nodup_map s.ledger.ids hd' hd hid']
  · rcases linked_row he with ⟨he, -⟩ | ⟨-, hkind, -⟩
    · exact h.explicit e he
    · exact hkind
  · rcases linked_row he with ⟨he, -⟩ | ⟨-, -, -, ⟨-, hvault⟩ | ⟨old, hold, -, -, hvault⟩⟩
    · exact h.vault e he
    · exact hvault
    · exact hvault.trans (h.vault old hold)
  · rcases List.mem_append.mp hk with hk | hk
    · obtain ⟨hsid, htid, -⟩ := joinedPair_eq_some.mp (Option.mem_toList.mp hk)
      obtain ⟨da, hda, ha, -⟩ := stamped_live hends.1.stamps hsid
      obtain ⟨db, hdb, hb, -⟩ := stamped_live hends.2.stamps htid
      exact ⟨ha ▸ s.ledger.used da hda, hb ▸ s.ledger.used db hdb⟩
    · exact h.linkedKnown k hk
  · rcases linked_row he with ⟨he, -⟩ | ⟨-, -, hcolumns, -⟩
    · exact h.rowsKnown column e he r hr
    · obtain ⟨d, hd, hid, -⟩ := stamped_live (hend column).stamps ((hcolumns column).1.symm.trans hr)
      exact hid ▸ s.ledger.used d hd
  · rcases linked_row he with ⟨he, -⟩ | ⟨-, -, hcolumns, htypes⟩
    · exact h.unstamped column e he htype
    · by_cases hdoc : (endOf ends column).type = .doc
      · rcases hend column with ⟨-, path, huri, hpath⟩ | ⟨-, i, coll, ⟨htable, -⟩ | ⟨hfile, -⟩⟩
        · refine ⟨path, (hcolumns column).2.trans huri, fun hnone => ?_⟩
          rw [← (hcolumns column).1, hnone] at hpath
          exact resolveDocumentEndpoint_none (c := v.catalog s.ledger) hpath
        · rw [hdoc] at htable
          cases htable
        · rw [hdoc] at hfile
          cases hfile
      · rcases htypes with ⟨hnew, -⟩ | ⟨old, hold, hkey, hsame, -⟩
        · exact absurd ((hnew column).symm.trans htype) hdoc
        · obtain ⟨path, huri, -⟩ := h.unstamped column old hold ((hsame column).symm.trans htype)
          have hcolumn : old.uri column = e.uri column := by
            cases column
            · exact congrArg Prod.fst hkey
            · exact congrArg (fun k => k.2.1) hkey
          exact absurd (huri.symm.trans (hcolumn.trans (hcolumns column).2)) ((hend column).not_docUri hdoc path)

end Link

/-! ### Unlinks -/

theorem Upheld.unlink (h : Upheld v s) {ends : Text × Text} {relation : Option String}
    (hown : ∀ e ∈ s.edges, e.OfLivePair s.ledger → matchesRelation relation e.relationType →
      ((e.sourceUri, e.targetUri) = ends ↔
        e.ids = ((v.catalog s.ledger).identityAt ends.1, (v.catalog s.ledger).identityAt ends.2))) :
    Upheld v { s with
      edges := s.edges.deleteWhere (unlinks (v.catalog s.ledger) ends.1 ends.2 relation)
      linked := s.linked.filter (fun k => !(v.catalog s.ledger).denotes ends relation k) } := by
  have hsub {e : Edge} (he : e ∈ s.edges.deleteWhere (unlinks (v.catalog s.ledger) ends.1 ends.2 relation)) : e ∈ s.edges :=
    (Table.mem_deleteWhere.mp he).1
  -- a row between live documents is deleted exactly when its link is unlinked
  have hagree : ∀ e ∈ s.edges, ∀ a b, e.Joins a b → s.ledger.IsLive a → s.ledger.IsLive b →
      unlinks (v.catalog s.ledger) ends.1 ends.2 relation e = (v.catalog s.ledger).denotes ends relation (a, b, e.relationType) := by
    intro e he a b hjoins ha hb
    obtain ⟨hsid, htid⟩ := Prod.mk.inj hjoins.2
    have hlive : e.OfLivePair s.ledger := by
      obtain ⟨⟨da, hda, rfl⟩, db, hdb, rfl⟩ := And.intro ha hb
      exact ⟨⟨da, hda, hsid⟩, db, hdb, htid⟩
    have hvault : e.vaultId = (v.catalog s.ledger).vaultId := h.vault e he
    by_cases hrel : matchesRelation relation e.relationType = true
    · have hiff := hown e he hlive hrel
      rw [hjoins.2, Prod.ext_iff, Prod.ext_iff] at hiff
      simp only [unlinks, Catalog.denotes, hvault, hjoins.1, hrel, decide_true, Bool.and_true]
      rw [Bool.eq_iff_iff, Bool.and_eq_true, Bool.and_eq_true]
      simp only [decide_eq_true_eq]
      rw [hiff, eq_comm (a := some a), eq_comm (a := some b)]
    · simp [unlinks, Catalog.denotes, hrel]
  refine ⟨fun a b relation' ha hb => ?_, fun column e he => h.current column e (hsub he), fun e he => h.explicit e (hsub he),
    fun e he => h.vault e (hsub he), fun k hk => h.linkedKnown k (List.mem_filter.mp hk).1,
    fun column e he => h.rowsKnown column e (hsub he), fun column e he => h.unstamped column e (hsub he), h.deleted⟩
  rw [List.mem_filter, h.exact a b relation' ha hb, Bool.not_eq_true']
  constructor
  · rintro ⟨⟨e, he, hjoins, rfl⟩, hkept⟩
    exact ⟨e, Table.mem_deleteWhere.mpr ⟨he, (hagree e he a b hjoins ha hb).trans hkept⟩, hjoins, rfl⟩
  · rintro ⟨e, he, hjoins, rfl⟩
    obtain ⟨he, hkept⟩ := Table.mem_deleteWhere.mp he
    exact ⟨⟨e, he, hjoins, rfl⟩, (hagree e he a b hjoins ha hb).symm.trans hkept⟩

/-! ### Runs -/

theorem Upheld.step (h : Upheld v s) {op : NativeOp} (hop : s.Untangled v op) : Upheld v (s.step v op) := by
  cases op with
  | create r path =>
    simp only [NativeState.step]
    cases hl : s.ledger.create? r path with
    | none => exact h
    | some l => exact h.create hl
  | move r path adopt =>
    simp only [NativeState.step]
    split
    · cases hl : s.ledger.move? r path with
      | none => exact h
      | some l => exact h.move hl
    · exact h
  | remove r =>
    simp only [NativeState.step]
    split
    · rename_i path hhead
      exact h.remove hhead
    · exact h
  | hook hook =>
    simp only [NativeState.step]
    split
    · rename_i hissued
      cases hook with
      | sync r adoptPath => exact h.sync hop
      | delete r path => exact h.purge hissued
    · exact h
  | link sourceUri targetUri relation createdBy metadata =>
    simp only [NativeState.step]
    split
    · rename_i r hr
      obtain ⟨ends, hends, -, hedges⟩ := linkResources_ok hr
      obtain ⟨-, hs, ht⟩ := linkEnds_ok hends
      rw [hends, hedges]
      refine h.link ⟨hs, ht⟩ (hop ends ?_)
      rw [show linkEnds (v.catalog s.ledger) v.base.vaultName sourceUri targetUri = .ok ends from hends]
      rfl
    · exact h
  | unlink sourceUri targetUri relation =>
    simp only [NativeState.step]
    split
    · rename_i r hr
      obtain ⟨ends, hends, hreply, hedges⟩ := unlinkResources_ok hr
      rw [hreply, hedges]
      refine h.unlink (hop ends ?_)
      rw [hends]
      rfl
    · exact h

/-- In a run of commits, links, unlinks and hooks in any order whose steps meet no row of another
pair, once every hook has run the rows between live documents are the links in force, at the
current URIs. -/
theorem hooks_converge (v : Vault) (ops : List NativeOp)
    (hops : Meets (NativeState.step v) (NativeState.Untangled v) NativeState.start ops)
    (hdue : (ops.foldl (NativeState.step v) NativeState.start).due = []) :
    (ops.foldl (NativeState.step v) NativeState.start).Converged v := by
  refine Upheld.converged ?_ hdue
  refine Run.invariant (fun s op t hs hstep => ?_) hops.run upheld_start
  obtain ⟨rfl, hop⟩ := hstep
  exact hs.step hop

/-! ### Two runs -/

/-- A vault without legacy documents, tables and files. -/
def nativeVault : Vault := ⟨⟨7, ['v'], [], true, [], [], []⟩, by simp⟩

def sourceUri : Text := "akb://v/doc/x.md".toList

def targetUri : Text := "akb://v/doc/t.md".toList

/-- A linked document moves, and the hooks run late and in another order. -/
def movedRun : List NativeOp :=
  [.create 2 "t.md".toList, .create 3 "x.md".toList, .link sourceUri targetUri "depends_on" none none,
    .move 3 "a.md".toList true, .hook (.sync 3 (some "x.md".toList)), .hook (.sync 2 none), .hook (.sync 3 none)]

theorem movedRun_converges : (movedRun.foldl (NativeState.step nativeVault) NativeState.start).Converged nativeVault :=
  hooks_converge nativeVault movedRun (by decide) (by decide)

/-- A document moves to the path of a deleted one while the delete hook is still due: the row of the
deleted document displaces the row of the moved one. -/
def takenOverRun : List NativeOp :=
  [.create 1 "a.md".toList, .create 2 "t.md".toList, .create 3 "x.md".toList,
    .link "akb://v/doc/a.md".toList targetUri "depends_on" none none, .link sourceUri targetUri "depends_on" none none,
    .remove 1, .move 3 "a.md".toList true, .hook (.sync 3 (some "x.md".toList)), .hook (.delete 1 "a.md".toList),
    .hook (.sync 1 none), .hook (.sync 2 none), .hook (.sync 3 none)]

theorem takenOverRun_loses_edge :
    (takenOverRun.foldl (NativeState.step nativeVault) NativeState.start).due = [] ∧
      ¬ (takenOverRun.foldl (NativeState.step nativeVault) NativeState.start).Converged nativeVault := by
  refine ⟨by decide, fun hconverged => ?_⟩
  obtain ⟨e, he, -⟩ := (hconverged.exact 3 2 "depends_on" (by decide) (by decide)).mp (by decide)
  have hrows : (takenOverRun.foldl (NativeState.step nativeVault) NativeState.start).edges.rows = [] := by decide
  rw [Table.mem_def, hrows] at he
  exact absurd he List.not_mem_nil

end Akb.Graph
