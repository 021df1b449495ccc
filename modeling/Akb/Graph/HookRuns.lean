import Akb.Graph.Convergence

/-! A hook that runs keeps what every state keeps, provided that it leads no row onto a row of
another pair. -/
namespace Akb.Graph
open Akb.Library Akb.Uri
variable {v : Vault} {s : NativeState} {edges edges' : Edges} {vaultId : Uuid} {column : Column} {r : Uuid} {newUri : Text}

/-! ### One column -/

@[simp] theorem Edge.withUri_ids (e : Edge) (uri : Text) (column : Column) : (e.withUri uri column).ids = e.ids := by
  cases column <;> rfl

@[simp] theorem Edge.withUri_kind (e : Edge) (uri : Text) (column : Column) : (e.withUri uri column).kind = e.kind := by
  cases column <;> rfl

@[simp] theorem Edge.withUri_vaultId (e : Edge) (uri : Text) (column : Column) :
    (e.withUri uri column).vaultId = e.vaultId := by
  cases column <;> rfl

@[simp] theorem Edge.withUri_relationType (e : Edge) (uri : Text) (column : Column) :
    (e.withUri uri column).relationType = e.relationType := by
  cases column <;> rfl

@[simp] theorem Edge.withUri_type (e : Edge) (uri : Text) (column column' : Column) :
    (e.withUri uri column).type column' = e.type column' := by
  cases column <;> cases column' <;> rfl

@[simp] theorem Edge.withUri_uri (e : Edge) (uri : Text) (column : Column) : (e.withUri uri column).uri column = uri := by
  cases column <;> rfl

theorem Edge.withUri_uri_of_ne (e : Edge) (uri : Text) {column column' : Column} (h : column' ≠ column) :
    (e.withUri uri column).uri column' = e.uri column' := by
  cases column <;> cases column' <;> first | rfl | exact absurd rfl h

theorem Edge.resourceId_of_ids {e e' : Edge} (h : e.ids = e'.ids) (column : Column) :
    e.resourceId column = e'.resourceId column := by
  obtain ⟨hs, ht⟩ := Prod.mk.inj h
  cases column
  · exact hs
  · exact ht

/-- The rows of the document that are not at its URI yet. -/
def Astray (vaultId : Uuid) (column : Column) (r : Uuid) (newUri : Text) (e : Edge) : Prop :=
  e.vaultId = vaultId ∧ e.resourceId column = some r ∧ e.uri column ≠ newUri

instance (vaultId : Uuid) (column : Column) (r : Uuid) (newUri : Text) (e : Edge) :
    Decidable (Astray vaultId column r newUri e) := inferInstanceAs (Decidable (_ ∧ _ ∧ _))

/-- The rows stay, but those astray are led to the URI, or dropped where another row stands there. -/
theorem mem_repoint (h : repointEdgeColumn vaultId column r newUri edges = some edges') (e' : Edge) :
    e' ∈ edges' ↔ ∃ e ∈ edges, (¬ Astray vaultId column r newUri e ∧ e' = e) ∨
      (Astray vaultId column r newUri e ∧ (∀ x ∈ edges, blocks vaultId column newUri e x = false) ∧
        e' = e.withUri newUri column) := by
  simp only [repointEdgeColumn] at h
  split at h
  · cases h
    have hselect : ∀ e : Edge, repoints vaultId column r newUri edges.rows e = true ↔
        Astray vaultId column r newUri e ∧ ∀ x ∈ edges, blocks vaultId column newUri e x = false := by
      intro e
      simp [repoints, Astray, Table.mem_def, and_assoc]
    have hastray : ∀ e : Edge, (e.vaultId = vaultId && e.resourceId column = some r && !decide (e.uri column = newUri)) = false ↔
        ¬ Astray vaultId column r newUri e := by
      intro e
      simp [Astray]
    rw [Table.mem_deleteWhere, hastray, Table.mem_def, List.mem_map]
    constructor
    · rintro ⟨⟨e, he, rfl⟩, hnot⟩
      by_cases hrep : repoints vaultId column r newUri edges.rows e = true
      · exact ⟨e, he, .inr ⟨((hselect e).mp hrep).1, ((hselect e).mp hrep).2, by rw [if_pos hrep]⟩⟩
      · rw [if_neg hrep] at hnot ⊢
        exact ⟨e, he, .inl ⟨hnot, rfl⟩⟩
    · rintro ⟨e, he, ⟨hnot, rfl⟩ | ⟨hast, hfree, rfl⟩⟩
      · have hrep : ¬ repoints vaultId column r newUri edges.rows e' = true := fun hrep => hnot ((hselect e').mp hrep).1
        exact ⟨⟨e', he, by rw [if_neg hrep]⟩, hnot⟩
      · refine ⟨⟨e, he, by rw [if_pos ((hselect e).mpr ⟨hast, hfree⟩)]⟩, fun hast' => ?_⟩
        exact hast'.2.2 (e.withUri_uri newUri column)
  · cases h

/-- What leading a column leaves of a row: everything but the URI in that column. -/
structure Led (column : Column) (r : Uuid) (newUri : Text) (e e' : Edge) : Prop where
  ids : e'.ids = e.ids
  kind : e'.kind = e.kind
  vaultId : e'.vaultId = e.vaultId
  relationType : e'.relationType = e.relationType
  type : ∀ column', e'.type column' = e.type column'
  uri : ∀ column', e'.uri column' = e.uri column' ∨ (column' = column ∧ e.resourceId column = some r ∧ e'.uri column = newUri)

theorem repoint_from (h : repointEdgeColumn vaultId column r newUri edges = some edges') {e' : Edge} (he' : e' ∈ edges') :
    ∃ e ∈ edges, Led column r newUri e e' := by
  obtain ⟨e, he, ⟨-, rfl⟩ | ⟨hast, -, rfl⟩⟩ := (mem_repoint h e').mp he'
  · exact ⟨e', he, rfl, rfl, rfl, rfl, fun _ => rfl, fun _ => .inl rfl⟩
  · refine ⟨e, he, by simp, by simp, by simp, by simp, by simp, fun column' => ?_⟩
    by_cases hcol : column' = column
    · exact .inr ⟨hcol, hast.2.1, e.withUri_uri newUri column⟩
    · exact .inl (e.withUri_uri_of_ne newUri hcol)

/-- Afterwards every row of the document is at its URI. -/
theorem repoint_at (h : repointEdgeColumn vaultId column r newUri edges = some edges') (hv : ∀ e ∈ edges, e.vaultId = vaultId)
    {e' : Edge} (he' : e' ∈ edges') (hr : e'.resourceId column = some r) : e'.uri column = newUri := by
  obtain ⟨e, he, ⟨hnot, rfl⟩ | ⟨-, -, rfl⟩⟩ := (mem_repoint h e').mp he'
  · exact Classical.not_not.mp fun hne => hnot ⟨hv e' he, hr, hne⟩
  · exact e.withUri_uri newUri column

/-- Where rows stay apart, a dropped row leaves a row of the same pair behind. -/
theorem repoint_keeps {l : Ledger} (h : repointEdgeColumn vaultId column r newUri edges = some edges')
    (hapart : Apart l column r newUri edges.rows) {e : Edge} (he : e ∈ edges) (hlive : e.OfLivePair l) :
    ∃ e' ∈ edges', e'.ids = e.ids ∧ e'.relationType = e.relationType := by
  by_cases hast : Astray vaultId column r newUri e
  · by_cases hfree : ∀ x ∈ edges, blocks vaultId column newUri e x = false
    · exact ⟨e.withUri newUri column, (mem_repoint h _).mpr ⟨e, he, .inr ⟨hast, hfree, rfl⟩⟩, by simp, by simp⟩
    · push Not at hfree
      obtain ⟨x, hx, hblocks⟩ := hfree
      simp only [blocks, ne_eq, Bool.not_eq_false, Bool.and_eq_true, decide_eq_true_eq] at hblocks
      obtain ⟨⟨⟨-, huri⟩, hother⟩, hrel⟩ := hblocks
      refine ⟨x, (mem_repoint h x).mpr ⟨x, hx, .inl ⟨fun hx' => hx'.2.2 huri, rfl⟩⟩, ?_, hrel⟩
      exact hapart e he x hx hast.2.1 hast.2.2 hlive huri hother hrel
  · exact ⟨e, (mem_repoint h e).mpr ⟨e, he, .inl ⟨hast, rfl⟩⟩, rfl, rfl⟩

/-! ### Both columns -/

/-- What a sync leaves of a row: everything but the URIs of the document. -/
structure Synced (r : Uuid) (newUri : Text) (e e' : Edge) : Prop where
  ids : e'.ids = e.ids
  kind : e'.kind = e.kind
  vaultId : e'.vaultId = e.vaultId
  relationType : e'.relationType = e.relationType
  type : ∀ column, e'.type column = e.type column
  uri : ∀ column, e'.uri column = e.uri column ∨ (e.resourceId column = some r ∧ e'.uri column = newUri)
  at_uri : ∀ column, e'.resourceId column = some r → e'.uri column = newUri

theorem repoint_both {mid : Edges} (hsource : repointEdgeColumn vaultId .source r newUri edges = some mid)
    (htarget : repointEdgeColumn vaultId .target r newUri mid = some edges') (hv : ∀ e ∈ edges, e.vaultId = vaultId)
    {e' : Edge} (he' : e' ∈ edges') : ∃ e ∈ edges, Synced r newUri e e' := by
  obtain ⟨m, hm, hme⟩ := repoint_from htarget he'
  obtain ⟨e, he, hem⟩ := repoint_from hsource hm
  have hvmid : ∀ m ∈ mid, m.vaultId = vaultId := by
    intro m hm
    obtain ⟨e, he, hem⟩ := repoint_from hsource hm
    exact hem.vaultId.trans (hv e he)
  have hsourceUri : e'.uri .source = m.uri .source := (hme.uri .source).resolve_right (by simp)
  refine ⟨e, he, hme.ids.trans hem.ids, hme.kind.trans hem.kind, hme.vaultId.trans hem.vaultId,
    hme.relationType.trans hem.relationType, fun column => (hme.type column).trans (hem.type column), fun column => ?_,
    fun column hr => ?_⟩
  · cases column with
    | source =>
      rw [hsourceUri]
      exact (hem.uri .source).imp_right And.right
    | target =>
      have htargetUri : m.uri .target = e.uri .target := (hem.uri .target).resolve_right (by simp)
      rw [← htargetUri, ← Edge.resourceId_of_ids hem.ids]
      exact (hme.uri .target).imp_right And.right
  · cases column with
    | source =>
      rw [hsourceUri]
      exact repoint_at hsource hv hm ((Edge.resourceId_of_ids hme.ids .source) ▸ hr)
    | target => exact repoint_at htarget hvmid he' hr

/-- The first statement leaves rows as `led` describes them. -/
theorem repoint_source_led (h : repointEdgeColumn vaultId .source r newUri edges = some edges')
    (hv : ∀ e ∈ edges, e.vaultId = vaultId) {e' : Edge} (he' : e' ∈ edges') : e' ∈ edges.rows.map (Edge.led r newUri) := by
  obtain ⟨e, he, ⟨hnot, rfl⟩ | ⟨hast, -, rfl⟩⟩ := (mem_repoint h e').mp he'
  · refine List.mem_map.mpr ⟨e', he, ?_⟩
    unfold Edge.led
    split
    · rename_i hr
      have huri : e'.sourceUri = newUri := Classical.not_not.mp fun hne => hnot ⟨hv e' he, hr, hne⟩
      rw [← huri]
      rfl
    · rfl
  · exact List.mem_map.mpr ⟨e, he, if_pos hast.2.1⟩

theorem Edge.OfLivePair.of_ids {l : Ledger} {e e' : Edge} (h : e.OfLivePair l) (hids : e'.ids = e.ids) : e'.OfLivePair l := by
  obtain ⟨hs, ht⟩ := Prod.mk.inj hids
  exact ⟨hs ▸ h.1, ht ▸ h.2⟩

theorem repoint_both_keeps {l : Ledger} {mid : Edges}
    (hsource : repointEdgeColumn vaultId .source r newUri edges = some mid)
    (htarget : repointEdgeColumn vaultId .target r newUri mid = some edges') (hv : ∀ e ∈ edges, e.vaultId = vaultId)
    (hapart : Apart l .source r newUri edges.rows ∧ Apart l .target r newUri (edges.rows.map (Edge.led r newUri)))
    {e : Edge} (he : e ∈ edges) (hlive : e.OfLivePair l) :
    ∃ e' ∈ edges', e'.ids = e.ids ∧ e'.relationType = e.relationType := by
  obtain ⟨m, hm, hids, hrel⟩ := repoint_keeps hsource hapart.1 he hlive
  have hmid : Apart l .target r newUri mid.rows := fun a ha b hb =>
    hapart.2 a (repoint_source_led hsource hv ha) b (repoint_source_led hsource hv hb)
  obtain ⟨e', he', hids', hrel'⟩ := repoint_keeps htarget hmid hm (hlive.of_ids hids)
  exact ⟨e', he', hids'.trans hids, hrel'.trans hrel⟩

/-! ### The hooks -/

/-- An unstamped document end belongs to a legacy document, so nothing is adopted. -/
theorem Upheld.adopt (h : Upheld v s) (path : Text) :
    adoptNativeDocumentEdges (v.catalog s.ledger) r path s.edges = s.edges := by
  unfold adoptNativeDocumentEdges
  split
  · rename_i hfree
    have hnone : ∀ column, ∀ e ∈ s.edges, (e.vaultId = (v.catalog s.ledger).vaultId &&
        e.uri column = docUri (v.catalog s.ledger).vaultName path && e.type column = .doc && e.resourceId column = none) = false := by
      intro column e he
      refine Bool.eq_false_iff.mpr fun hsel => ?_
      simp only [Bool.and_eq_true, decide_eq_true_eq] at hsel
      obtain ⟨⟨⟨-, huri⟩, htype⟩, hid⟩ := hsel
      obtain ⟨path', huri', hlegacy⟩ := h.unstamped column e he htype
      obtain ⟨d, hd, hpath⟩ := hlegacy hid
      have hsame : path' = path := docUri_injective _ (huri'.symm.trans huri)
      have hdocs : (v.catalog s.ledger).documents.any (fun d => d.path = path) = true :=
        List.any_eq_true.mpr ⟨d, hd, by rw [hpath, hsame]; exact decide_eq_true rfl⟩
      simp [Catalog.unclaimed, hdocs] at hfree
    have hcolumn : ∀ column, adoptColumn (v.catalog s.ledger).vaultId column r (docUri (v.catalog s.ledger).vaultName path)
        s.edges = s.edges := fun column => Table.updateWhere_of_none _ (hnone column)
    rw [hcolumn, hcolumn]
  · rfl

/-- The hooks of other documents stay due. -/
theorem due_of_erase {hook : Hook} {d : Uuid} (hne : ∀ adoptPath, hook ≠ .sync d adoptPath)
    (h : ∀ adoptPath, Hook.sync d adoptPath ∉ s.due.erase hook) (adoptPath : Option Text) : Hook.sync d adoptPath ∉ s.due :=
  fun hin => h adoptPath ((List.mem_erase_of_ne fun heq => hne adoptPath heq.symm).mpr hin)

/-- A sync leads one column and then the other. -/
theorem Upheld.sync_some (h : Upheld v s) {path : Text} {adoptPath : Option Text}
    (hsync : syncNativeDocumentEdgeUris (v.catalog s.ledger) r path adoptPath s.edges = some edges') :
    ∃ mid, repointEdgeColumn (v.catalog s.ledger).vaultId .source r (docUri (v.catalog s.ledger).vaultName path) s.edges = some mid ∧
      repointEdgeColumn (v.catalog s.ledger).vaultId .target r (docUri (v.catalog s.ledger).vaultName path) mid = some edges' := by
  cases adoptPath with
  | none => exact Option.bind_eq_some_iff.mp hsync
  | some old =>
    simp only [syncNativeDocumentEdgeUris, h.adopt, ite_self] at hsync
    exact Option.bind_eq_some_iff.mp hsync

/-- The three ways a sync ends: the document is gone, its rows are led, or a statement fails. -/
theorem runHook_sync (adoptPath : Option Text) :
    (s.ledger.head? r = none ∧ s.runHook v (.sync r adoptPath) = { s with due := s.due.erase (.sync r adoptPath) }) ∨
    (∃ path edges', s.ledger.head? r = some path ∧
      syncNativeDocumentEdgeUris (v.catalog s.ledger) r path adoptPath s.edges = some edges' ∧
      s.runHook v (.sync r adoptPath) = { s with edges := edges', due := s.due.erase (.sync r adoptPath) }) ∨
    s.runHook v (.sync r adoptPath) = s := by
  cases hhead : s.ledger.head? r with
  | none => exact .inl ⟨rfl, by simp only [NativeState.runHook, hhead]⟩
  | some path =>
    cases hsync : syncNativeDocumentEdgeUris (v.catalog s.ledger) r path adoptPath s.edges with
    | none => exact .inr (.inr (by simp only [NativeState.runHook, hhead, hsync]))
    | some edges' => exact .inr (.inl ⟨path, edges', rfl, hsync, by simp only [NativeState.runHook, hhead, hsync]⟩)

theorem Upheld.sync (h : Upheld v s) {adoptPath : Option Text} (hapart : s.Untangled v (.hook (.sync r adoptPath))) :
    Upheld v (s.runHook v (.sync r adoptPath)) := by
  rcases runHook_sync (v := v) (s := s) (r := r) adoptPath with ⟨hhead, hrun⟩ | ⟨path, edges', hhead, hsync, hrun⟩ | hrun
  · rw [hrun]
    refine ⟨h.exact, fun column e he d hd hid hdue => ?_, h.explicit, h.vault, h.linkedKnown, h.rowsKnown, h.unstamped,
      h.deleted⟩
    refine h.current column e he d hd hid (due_of_erase (fun adoptPath' heq => ?_) hdue)
    cases heq
    exact Ledger.head?_eq_none hhead ⟨d, hd, rfl⟩
  · rw [hrun]
    obtain ⟨mid, hsource, htarget⟩ := h.sync_some hsync
    have hv : ∀ e ∈ s.edges, e.vaultId = (v.catalog s.ledger).vaultId := h.vault
    have hfrom {e' : Edge} (he' : e' ∈ edges') := repoint_both hsource htarget hv he'
    refine ⟨fun a b relation ha hb => (h.exact a b relation ha hb).trans ⟨?_, ?_⟩, fun column e' he' d hd hid hdue => ?_,
      fun e' he' => ?_, fun e' he' => ?_, h.linkedKnown, fun column e' he' r' hr' => ?_, fun column e' he' htype => ?_,
      h.deleted⟩
    · rintro ⟨e, he, ⟨-, hids⟩, hrel⟩
      have hlive : e.OfLivePair s.ledger := by
        obtain ⟨⟨da, hda, rfl⟩, db, hdb, rfl⟩ := And.intro ha hb
        obtain ⟨hsid, htid⟩ := Prod.mk.inj hids
        exact ⟨⟨da, hda, hsid⟩, db, hdb, htid⟩
      obtain ⟨e', he', hids', hrel'⟩ := repoint_both_keeps hsource htarget hv (hapart path hhead) he hlive
      obtain ⟨e₀, he₀, hsynced⟩ := hfrom he'
      exact ⟨e', he', ⟨hsynced.kind.trans (h.explicit e₀ he₀), hids'.trans hids⟩, hrel'.trans hrel⟩
    · rintro ⟨e', he', ⟨-, hids⟩, hrel⟩
      obtain ⟨e, he, hsynced⟩ := hfrom he'
      exact ⟨e, he, ⟨h.explicit e he, hsynced.ids.symm.trans hids⟩, hsynced.relationType.symm.trans hrel⟩
    · obtain ⟨e, he, hsynced⟩ := hfrom he'
      by_cases hd' : d.resourceId = r
      · have hpath : d = ⟨r, path⟩ :=
          List.inj_on_of_nodup_map s.ledger.ids hd (Ledger.head?_eq_some.mp hhead) hd'
        rw [hsynced.at_uri column (hd' ▸ hid), hpath]
        rfl
      · have hold : e.resourceId column = some d.resourceId :=
          (Edge.resourceId_of_ids hsynced.ids column).symm.trans hid
        rcases hsynced.uri column with huri | ⟨hr', -⟩
        · rw [huri]
          refine h.current column e he d hd hold (due_of_erase (fun adoptPath' heq => ?_) hdue)
          cases heq
          exact hd' rfl
        · rw [hold] at hr'
          cases hr'
          exact absurd rfl hd'
    · obtain ⟨e, he, hsynced⟩ := hfrom he'
      exact hsynced.kind.trans (h.explicit e he)
    · obtain ⟨e, he, hsynced⟩ := hfrom he'
      exact hsynced.vaultId.trans (h.vault e he)
    · obtain ⟨e, he, hsynced⟩ := hfrom he'
      exact h.rowsKnown column e he r' ((Edge.resourceId_of_ids hsynced.ids column).symm.trans hr')
    · obtain ⟨e, he, hsynced⟩ := hfrom he'
      rw [Edge.resourceId_of_ids hsynced.ids column]
      rcases hsynced.uri column with huri | ⟨hr', huri⟩
      · rw [huri]
        exact h.unstamped column e he ((hsynced.type column).symm.trans htype)
      · exact ⟨path, huri, fun hnone => by rw [hr'] at hnone; cases hnone⟩
  · rw [hrun]
    exact h

/-- A delete hook only drops rows that have no live document at one end. -/
theorem mem_deleteEdges {c : Catalog} {path : Text} {e : Edge} :
    (e ∈ deleteNativeDocumentEdges c r path edges → e ∈ edges) ∧
      (∀ a b, e.ids = (some a, some b) → a ≠ r → b ≠ r → e ∈ edges → e ∈ deleteNativeDocumentEdges c r path edges) := by
  constructor
  · intro he
    simp only [deleteNativeDocumentEdges] at he
    split at he
    · exact (Table.mem_deleteWhere.mp (Table.mem_deleteWhere.mp he).1).1
    · exact (Table.mem_deleteWhere.mp he).1
  · intro a b hids ha hb he
    obtain ⟨hs, ht⟩ := Prod.mk.inj hids
    have hleft : e ∈ edges.deleteWhere (fun e => e.vaultId = c.vaultId &&
        (e.sourceResourceId = some r || e.targetResourceId = some r)) :=
      Table.mem_deleteWhere.mpr ⟨he, by simp [hs, ht, ha, hb]⟩
    simp only [deleteNativeDocumentEdges]
    split
    · exact Table.mem_deleteWhere.mpr ⟨hleft, by simp [hs, ht]⟩
    · exact hleft

theorem Upheld.purge (h : Upheld v s) {path : Text} (hissued : Hook.delete r path ∈ s.issued) :
    Upheld v (s.runHook v (.delete r path)) := by
  obtain ⟨-, hdead⟩ := h.deleted r path hissued
  have hne : ∀ a, s.ledger.IsLive a → a ≠ r := by
    rintro a ha rfl
    exact hdead ha
  have hsub {e : Edge} (he : e ∈ deleteNativeDocumentEdges (v.catalog s.ledger) r path s.edges) : e ∈ s.edges :=
    mem_deleteEdges.1 he
  refine ⟨fun a b relation ha hb => (h.exact a b relation ha hb).trans ⟨?_, ?_⟩, fun column e he d hd hid hdue => ?_,
    fun e he => h.explicit e (hsub he), fun e he => h.vault e (hsub he), h.linkedKnown,
    fun column e he => h.rowsKnown column e (hsub he), fun column e he => h.unstamped column e (hsub he), h.deleted⟩
  · rintro ⟨e, he, hjoins, hrel⟩
    exact ⟨e, mem_deleteEdges.2 a b hjoins.2 (hne a ha) (hne b hb) he, hjoins, hrel⟩
  · rintro ⟨e, he, hjoins, hrel⟩
    exact ⟨e, hsub he, hjoins, hrel⟩
  · exact h.current column e (hsub he) d hd hid (due_of_erase (by simp) hdue)

end Akb.Graph
