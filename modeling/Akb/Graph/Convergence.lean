import Akb.Graph.Hooks

/-! Once every hook has run, the rows between live documents are the links in force, at the
current URIs, provided that no step meets a row that another pair of documents left at its URIs. -/
namespace Akb.Graph
open Akb.Library Akb.Uri
variable (v : Vault)

namespace Edge

def ids (e : Edge) : Option Uuid × Option Uuid := (e.sourceResourceId, e.targetResourceId)

/-- An explicit row that carries the identities of both ends. -/
def Joins (e : Edge) (a b : Uuid) : Prop := e.kind = .explicit ∧ e.ids = (some a, some b)

instance (e : Edge) (a b : Uuid) : Decidable (e.Joins a b) := inferInstanceAs (Decidable (_ ∧ _))

/-- Both ends are live documents. -/
def OfLivePair (l : Ledger) (e : Edge) : Prop :=
  (∃ d ∈ l.live, e.sourceResourceId = some d.resourceId) ∧ ∃ d ∈ l.live, e.targetResourceId = some d.resourceId

instance (l : Ledger) (e : Edge) : Decidable (e.OfLivePair l) :=
  @instDecidableAnd _ _ (List.decidableBEx (fun d : NativeDocument => e.sourceResourceId = some d.resourceId) l.live)
    (List.decidableBEx (fun d : NativeDocument => e.targetResourceId = some d.resourceId) l.live)

end Edge

/-- The explicit rows between live documents are the links in force, and carry the current URIs. -/
structure NativeState.Converged (s : NativeState) : Prop where
  exact : ∀ a b relation, s.ledger.IsLive a → s.ledger.IsLive b →
    ((a, b, relation) ∈ s.linked ↔ ∃ e ∈ s.edges, e.Joins a b ∧ e.relationType = relation)
  current : ∀ e ∈ s.edges, ∀ a b, e.Joins a b → ∀ da ∈ s.ledger.live, da.resourceId = a →
    ∀ db ∈ s.ledger.live, db.resourceId = b →
      e.sourceUri = docUri v.base.vaultName da.currentPath ∧ e.targetUri = docUri v.base.vaultName db.currentPath

/-! ### The condition on a step -/

/-- Leading the rows of a document to its URI meets no row of another pair there. -/
def Apart (l : Ledger) (column : Column) (resourceId : Uuid) (newUri : Text) (rows : List Edge) : Prop :=
  ∀ e ∈ rows, ∀ x ∈ rows, e.resourceId column = some resourceId → e.uri column ≠ newUri → e.OfLivePair l →
    x.uri column = newUri → x.uri column.other = e.uri column.other → x.relationType = e.relationType → x.ids = e.ids

instance (l : Ledger) (column : Column) (resourceId : Uuid) (newUri : Text) (rows : List Edge) :
    Decidable (Apart l column resourceId newUri rows) :=
  List.decidableBAll (fun e : Edge => ∀ x ∈ rows, e.resourceId column = some resourceId → e.uri column ≠ newUri →
    e.OfLivePair l → x.uri column = newUri → x.uri column.other = e.uri column.other → x.relationType = e.relationType →
      x.ids = e.ids) rows

/-- A row as the first of the two statements of a sync leaves it. -/
def Edge.led (resourceId : Uuid) (newUri : Text) (e : Edge) : Edge :=
  if e.sourceResourceId = some resourceId then e.withUri newUri .source else e

/-- What the step needs of the rows it finds: a sync leads no row onto a row of another pair, a link
takes over no row of another live pair, and an unlink finds the rows of the resources that its URIs
stand for, and no others, at these URIs. -/
def NativeState.Untangled (s : NativeState) : NativeOp → Prop
  | .hook (.sync r _) => ∀ path ∈ s.ledger.head? r,
      Apart s.ledger .source r (docUri v.base.vaultName path) s.edges.rows ∧
        Apart s.ledger .target r (docUri v.base.vaultName path) (s.edges.rows.map (Edge.led r (docUri v.base.vaultName path)))
  | .link sourceUri targetUri relationType _ _ =>
    ∀ ends ∈ (linkEnds (v.catalog s.ledger) v.base.vaultName sourceUri targetUri).toOption, ∀ e ∈ s.edges.rows,
      e.key = (ends.1.uri, ends.2.uri, relationType) → e.OfLivePair s.ledger →
        e.ids = (ends.1.resourceId, ends.2.resourceId)
  | .unlink sourceUri targetUri relationType =>
    ∀ ends ∈ (unlinkEnds (v.catalog s.ledger) sourceUri targetUri).toOption, ∀ e ∈ s.edges.rows, e.OfLivePair s.ledger →
      matchesRelation relationType e.relationType →
        ((e.sourceUri, e.targetUri) = ends ↔
          e.ids = ((v.catalog s.ledger).identityAt ends.1, (v.catalog s.ledger).identityAt ends.2))
  | _ => True

instance NativeState.decidableUntangled (s : NativeState) : (op : NativeOp) → Decidable (s.Untangled v op)
  | .hook (.sync _ _) => Option.decidableForallMem _
  | .hook (.delete _ _) => .isTrue trivial
  | .link _ _ _ _ _ => @Option.decidableForallMem _ _ (fun _ => List.decidableBAll _ _) _
  | .unlink _ _ _ => @Option.decidableForallMem _ _ (fun _ => List.decidableBAll _ _) _
  | .create _ _ => .isTrue trivial
  | .move _ _ _ => .isTrue trivial
  | .remove _ => .isTrue trivial

/-! ### What every state keeps -/

structure Upheld (s : NativeState) : Prop where
  exact : ∀ a b relation, s.ledger.IsLive a → s.ledger.IsLive b →
    ((a, b, relation) ∈ s.linked ↔ ∃ e ∈ s.edges, e.Joins a b ∧ e.relationType = relation)
  /-- A document without a due sync has its rows at its current URI. -/
  current : ∀ column, ∀ e ∈ s.edges, ∀ d ∈ s.ledger.live, e.resourceId column = some d.resourceId →
    (∀ adoptPath, Hook.sync d.resourceId adoptPath ∉ s.due) → e.uri column = docUri v.base.vaultName d.currentPath
  explicit : ∀ e ∈ s.edges, e.kind = .explicit
  vault : ∀ e ∈ s.edges, e.vaultId = v.base.vaultId
  linkedKnown : ∀ k ∈ s.linked, k.1 ∈ s.ledger.known ∧ k.2.1 ∈ s.ledger.known
  rowsKnown : ∀ column, ∀ e ∈ s.edges, ∀ r, e.resourceId column = some r → r ∈ s.ledger.known
  /-- An end of type document without identity is a legacy document. -/
  unstamped : ∀ column, ∀ e ∈ s.edges, e.type column = .doc → ∃ path, e.uri column = docUri v.base.vaultName path ∧
    (e.resourceId column = none → ∃ d ∈ v.base.documents, d.path = path)
  /-- Only dead documents have a delete hook. -/
  deleted : ∀ r path, Hook.delete r path ∈ s.issued → r ∈ s.ledger.known ∧ ¬ s.ledger.IsLive r

variable {v} {s : NativeState}

theorem Upheld.converged (h : Upheld v s) (hdue : s.due = []) : s.Converged v where
  exact := h.exact
  current := by
    intro e he a b hjoins da hda ha db hdb hb
    have hids := Prod.mk.inj hjoins.2
    have hsettled : ∀ r adoptPath, Hook.sync r adoptPath ∉ s.due := by simp [hdue]
    exact ⟨h.current .source e he da hda (ha ▸ hids.1) (hsettled _), h.current .target e he db hdb (hb ▸ hids.2) (hsettled _)⟩

theorem upheld_start : Upheld v NativeState.start where
  exact := by
    rintro a b relation ⟨d, hd, -⟩
    cases hd
  current := by
    rintro column e he
    cases he
  explicit := by
    rintro e he
    cases he
  vault := by
    rintro e he
    cases he
  linkedKnown := by
    rintro k hk
    cases hk
  rowsKnown := by
    rintro column e he
    cases he
  unstamped := by
    rintro column e he
    cases he
  deleted := by
    rintro r path hd
    cases hd

/-! ### Commits -/

theorem Ledger.create?_some {l l' : Ledger} {r : Uuid} {path : Text} (h : l.create? r path = some l') :
    r ∉ l.known ∧ l'.live = ⟨r, path⟩ :: l.live ∧ l'.known = r :: l.known := by
  unfold Ledger.create? at h
  split at h
  · rename_i hfree
    cases h
    exact ⟨hfree.1, rfl, rfl⟩
  · cases h

theorem Ledger.move?_some {l l' : Ledger} {r : Uuid} {path : Text} (h : l.move? r path = some l') :
    l.IsLive r ∧ l'.live = ⟨r, path⟩ :: (l.delete r).live ∧ l'.known = r :: l.known := by
  unfold Ledger.move? at h
  split at h
  · rename_i hfree
    cases h
    exact ⟨hfree.1, rfl, rfl⟩
  · cases h

theorem Ledger.head?_eq_some {l : Ledger} {r : Uuid} {path : Text} :
    l.head? r = some path ↔ ⟨r, path⟩ ∈ l.live := by
  constructor
  · intro h
    obtain ⟨d, hd, rfl⟩ := Option.map_eq_some_iff.mp h
    have hid : d.resourceId = r := by simpa using List.find?_some hd
    exact hid ▸ List.mem_of_find?_eq_some hd
  · intro h
    unfold Ledger.head?
    cases hfind : l.live.find? (fun d => d.resourceId = r) with
    | none => exact absurd (decide_eq_true rfl) (List.find?_eq_none.mp hfind ⟨r, path⟩ h)
    | some d =>
      have hid : d.resourceId = r := by simpa using List.find?_some hfind
      have hd := List.inj_on_of_nodup_map l.ids (List.mem_of_find?_eq_some hfind) h hid
      rw [hd]
      rfl

theorem Ledger.head?_eq_none {l : Ledger} {r : Uuid} (h : l.head? r = none) : ¬ l.IsLive r := by
  rintro ⟨d, hd, rfl⟩
  rw [head?_eq_some.mpr (show (⟨d.resourceId, d.currentPath⟩ : NativeDocument) ∈ l.live from hd)] at h
  cases h

/-- A new document has no rows and no links. -/
theorem Upheld.create (h : Upheld v s) {r : Uuid} {path : Text} {l : Ledger} (hl : s.ledger.create? r path = some l) :
    Upheld v (s.commit (.sync r none) (some l)) := by
  obtain ⟨hfresh, hlive, hknown⟩ := Ledger.create?_some hl
  have hisLive : ∀ a, l.IsLive a → a = r ∨ s.ledger.IsLive a := by
    rintro a ⟨d, hd, rfl⟩
    rw [hlive] at hd
    rcases List.mem_cons.mp hd with rfl | hd
    · exact .inl rfl
    · exact .inr ⟨d, hd, rfl⟩
  refine ⟨fun a b relation ha hb => ?_, fun column e he d hd hr hdue => ?_, h.explicit, h.vault, fun k hk => ?_,
    fun column e he r' hr' => ?_, h.unstamped, fun r' path' hissued => ?_⟩
  · by_cases hnew : a = r ∨ b = r
    · have hold : a ∉ s.ledger.known ∨ b ∉ s.ledger.known := by
        rcases hnew with rfl | rfl
        · exact .inl hfresh
        · exact .inr hfresh
      constructor
      · intro hk
        obtain ⟨hka, hkb⟩ := h.linkedKnown _ hk
        exact absurd hold (not_or.mpr ⟨not_not.mpr hka, not_not.mpr hkb⟩)
      · rintro ⟨e, he, ⟨-, hids⟩, -⟩
        have hka := h.rowsKnown .source e he a (Prod.mk.inj hids).1
        have hkb := h.rowsKnown .target e he b (Prod.mk.inj hids).2
        exact absurd hold (not_or.mpr ⟨not_not.mpr hka, not_not.mpr hkb⟩)
    · obtain ⟨hna, hnb⟩ := not_or.mp hnew
      exact h.exact a b relation ((hisLive a ha).resolve_left hna) ((hisLive b hb).resolve_left hnb)
  · rw [show (s.commit (.sync r none) (some l)).ledger.live = l.live from rfl, hlive] at hd
    rcases List.mem_cons.mp hd with rfl | hd
    · exact absurd (h.rowsKnown column e he r hr) hfresh
    · exact h.current column e he d hd hr fun adoptPath hin => hdue adoptPath (List.mem_cons_of_mem _ hin)
  · rw [show (s.commit (.sync r none) (some l)).ledger.known = l.known from rfl, hknown]
    exact (h.linkedKnown k hk).imp (List.mem_cons_of_mem _) (List.mem_cons_of_mem _)
  · rw [show (s.commit (.sync r none) (some l)).ledger.known = l.known from rfl, hknown]
    exact List.mem_cons_of_mem _ (h.rowsKnown column e he r' hr')
  · obtain ⟨hk, hdead⟩ := h.deleted r' path' ((List.mem_cons.mp hissued).resolve_left (by simp))
    refine ⟨?_, fun hlive' => ?_⟩
    · rw [show (s.commit (.sync r none) (some l)).ledger.known = l.known from rfl, hknown]
      exact List.mem_cons_of_mem _ hk
    · rcases hisLive r' hlive' with rfl | hlive'
      · exact hfresh hk
      · exact hdead hlive'

/-- A move changes no identity, and leaves a due sync. -/
theorem Upheld.move (h : Upheld v s) {r : Uuid} {path : Text} {adoptPath : Option Text} {l : Ledger}
    (hl : s.ledger.move? r path = some l) : Upheld v (s.commit (.sync r adoptPath) (some l)) := by
  obtain ⟨hr, hlive, hknown⟩ := Ledger.move?_some hl
  have hisLive : ∀ a, l.IsLive a → s.ledger.IsLive a := by
    rintro a ⟨d, hd, rfl⟩
    rw [hlive] at hd
    rcases List.mem_cons.mp hd with rfl | hd
    · exact hr
    · exact ⟨d, (Ledger.mem_delete.mp hd).1, rfl⟩
  refine ⟨fun a b relation ha hb => h.exact a b relation (hisLive a ha) (hisLive b hb),
    fun column e he d hd hid hdue => ?_, h.explicit, h.vault, fun k hk => ?_, fun column e he r' hr' => ?_, h.unstamped,
    fun r' path' hissued => ?_⟩
  · rw [show (s.commit (.sync r adoptPath) (some l)).ledger.live = l.live from rfl, hlive] at hd
    rcases List.mem_cons.mp hd with rfl | hd
    · exact absurd List.mem_cons_self (hdue adoptPath)
    · exact h.current column e he d (Ledger.mem_delete.mp hd).1 hid fun a hin => hdue a (List.mem_cons_of_mem _ hin)
  · rw [show (s.commit (.sync r adoptPath) (some l)).ledger.known = l.known from rfl, hknown]
    exact (h.linkedKnown k hk).imp (List.mem_cons_of_mem _) (List.mem_cons_of_mem _)
  · rw [show (s.commit (.sync r adoptPath) (some l)).ledger.known = l.known from rfl, hknown]
    exact List.mem_cons_of_mem _ (h.rowsKnown column e he r' hr')
  · obtain ⟨hk, hdead⟩ := h.deleted r' path' ((List.mem_cons.mp hissued).resolve_left (by simp))
    refine ⟨?_, fun hlive' => hdead (hisLive r' hlive')⟩
    rw [show (s.commit (.sync r adoptPath) (some l)).ledger.known = l.known from rfl, hknown]
    exact List.mem_cons_of_mem _ hk

theorem Upheld.remove (h : Upheld v s) {r : Uuid} {path : Text} (hhead : s.ledger.head? r = some path) :
    Upheld v (s.commit (.delete r path) (some (s.ledger.delete r))) := by
  have hisLive : ∀ a, (s.ledger.delete r).IsLive a → s.ledger.IsLive a ∧ a ≠ r := by
    rintro a ⟨d, hd, rfl⟩
    obtain ⟨hd, hne⟩ := Ledger.mem_delete.mp hd
    exact ⟨⟨d, hd, rfl⟩, hne⟩
  refine ⟨fun a b relation ha hb => h.exact a b relation (hisLive a ha).1 (hisLive b hb).1,
    fun column e he d hd hid hdue => ?_, h.explicit, h.vault, h.linkedKnown, h.rowsKnown, h.unstamped,
    fun r' path' hissued => ?_⟩
  · exact h.current column e he d (Ledger.mem_delete.mp hd).1 hid fun a hin => hdue a (List.mem_cons_of_mem _ hin)
  · rcases List.mem_cons.mp hissued with heq | hissued
    · cases heq
      exact ⟨s.ledger.used _ (Ledger.head?_eq_some.mp hhead), fun hlive' => (hisLive _ hlive').2 rfl⟩
    · obtain ⟨hk, hdead⟩ := h.deleted r' path' hissued
      exact ⟨hk, fun hlive' => hdead (hisLive r' hlive').1⟩

end Akb.Graph
