import Akb.Native.Publication

/-! Paths and live aliases of a namespace stay unambiguous, over both surfaces. -/
namespace Akb.Native
open Akb.Library

/-- No path of a namespace has two owners, live or by alias. -/
structure NamespaceInvariant (l : Ledger) : Prop where
  live_path : ∀ r ∈ l.resources, ∀ s ∈ l.resources, r.Live → s.Live → r.namespaceId = s.namespaceId →
    r.currentPath = s.currentPath → r = s
  alias_path : ∀ a b, l.HasLiveAlias a → l.HasLiveAlias b → a.namespaceId = b.namespaceId →
    a.oldPath = b.oldPath → a = b
  disjoint : ∀ a, l.HasLiveAlias a → ∀ r ∈ l.resources, r.Live → a.namespaceId = r.namespaceId →
    a.oldPath ≠ r.currentPath
  owner : ∀ a, l.HasLiveAlias a → ∃ r ∈ l.resources, r.Live ∧ r.resourceId = a.resourceId ∧
    r.namespaceId = a.namespaceId ∧ r.surface = a.surface

theorem namespaceInvariant_empty : NamespaceInvariant .empty := by
  constructor <;> simp [Ledger.empty, Ledger.HasLiveAlias]

section Step
variable {l l' : Ledger} {resource : Resource} {rev : Revision}

/-- A live Resource that a step leaves has its path to itself among the others. -/
theorem PathChange.clear (h : NamespaceInvariant l) (hpath : PathChange l l' resource) (hlive : resource.Live) :
    ∀ s ∈ l.resources, s.Live → s.resourceId ≠ resource.resourceId → s.namespaceId = resource.namespaceId →
      s.currentPath ≠ resource.currentPath := by
  intro s hs hsl hid hn
  cases hpath with
  | taken _ free _ _ => exact free s hs hsl hn
  | kept _ old hold oldLive samePath _ =>
    obtain ⟨hmem, hoid, hons, _⟩ := hold
    intro hp
    have he := h.live_path s hs old hmem hsl oldLive (hn.trans hons.symm) (hp.trans samePath.symm)
    exact hid (he ▸ hoid)
  | moved _ _ _ _ free _ _ _ => exact free s hs hsl hn
  | dropped dead _ _ _ => exact absurd hlive dead

theorem live_path_step (h : NamespaceInvariant l) (hext : Extends l l' resource rev) (hpath : PathChange l l' resource) :
    ∀ r ∈ l'.resources, ∀ s ∈ l'.resources, r.Live → s.Live → r.namespaceId = s.namespaceId →
      r.currentPath = s.currentPath → r = s := by
  intro r hr s hs hrl hsl hn hp
  rcases (hext.resources r).mp hr with rfl | ⟨hr, hrid⟩
  · rcases (hext.resources s).mp hs with rfl | ⟨hs, hsid⟩
    · rfl
    · exact absurd hp.symm (hpath.clear h hrl s hs hsl hsid hn.symm)
  · rcases (hext.resources s).mp hs with rfl | ⟨hs, _⟩
    · exact absurd hp (hpath.clear h hsl r hr hrl hrid hn)
    · exact h.live_path r hr s hs hrl hsl hn hp

theorem alias_path_step (h : NamespaceInvariant l) (hpath : PathChange l l' resource) :
    ∀ a b, l'.HasLiveAlias a → l'.HasLiveAlias b → a.namespaceId = b.namespaceId → a.oldPath = b.oldPath → a = b := by
  intro a b ha hb hn hp
  cases hpath with
  | taken _ _ _ aliases => exact h.alias_path a b ((aliases a).mp ha).1 ((aliases b).mp hb).1 hn hp
  | kept _ _ _ _ _ aliases => exact h.alias_path a b ((aliases a).mp ha) ((aliases b).mp hb) hn hp
  | dropped _ _ _ aliases => exact h.alias_path a b ((aliases a).mp ha).1 ((aliases b).mp hb).1 hn hp
  | moved _ old hold oldLive _ left leftAt aliases =>
    obtain ⟨hmem, _, hons, _⟩ := hold
    -- No other live alias can sit where the Resource was: that path was live.
    have hleft : ∀ c, l.HasLiveAlias c → c.namespaceId = left.namespaceId → c.oldPath ≠ left.oldPath := by
      intro c hc hcn
      rw [leftAt.2.2.1]
      exact h.disjoint c hc old hmem oldLive (hcn.trans (leftAt.1.trans hons.symm))
    rcases (aliases a).mp ha with rfl | ⟨ha, _⟩
    · rcases (aliases b).mp hb with rfl | ⟨hb, _⟩
      · rfl
      · exact absurd hp.symm (hleft b hb hn.symm)
    · rcases (aliases b).mp hb with rfl | ⟨hb, _⟩
      · exact absurd hp (hleft a ha hn)
      · exact h.alias_path a b ha hb hn hp

theorem disjoint_step (h : NamespaceInvariant l) (hext : Extends l l' resource rev) (hpath : PathChange l l' resource) :
    ∀ a, l'.HasLiveAlias a → ∀ r ∈ l'.resources, r.Live → a.namespaceId = r.namespaceId →
      a.oldPath ≠ r.currentPath := by
  intro a ha r hr hrl hn
  rcases (hext.resources r).mp hr with rfl | ⟨hr, hrid⟩
  · cases hpath with
    | taken _ _ _ aliases => exact fun hp => ((aliases a).mp ha).2 ⟨hn, hp⟩
    | kept _ old hold oldLive samePath aliases =>
      rw [← samePath]
      exact h.disjoint a ((aliases a).mp ha) old hold.1 oldLive (hn.trans hold.2.2.1.symm)
    | dropped dead _ _ _ => exact absurd hrl dead
    | moved _ old hold oldLive free left leftAt aliases =>
      rcases (aliases a).mp ha with rfl | ⟨_, hout⟩
      · rw [leftAt.2.2.1]
        exact free old hold.1 oldLive hold.2.2.1
      · exact fun hp => hout ⟨hn, hp⟩
  · cases hpath with
    | taken _ _ _ aliases => exact h.disjoint a ((aliases a).mp ha).1 r hr hrl hn
    | kept _ _ _ _ _ aliases => exact h.disjoint a ((aliases a).mp ha) r hr hrl hn
    | dropped _ _ _ aliases => exact h.disjoint a ((aliases a).mp ha).1 r hr hrl hn
    | moved _ old hold oldLive _ left leftAt aliases =>
      rcases (aliases a).mp ha with rfl | ⟨ha, _⟩
      · rw [leftAt.2.2.1]
        intro hp
        have he := h.live_path old hold.1 r hr oldLive hrl (hold.2.2.1.trans (leftAt.1.symm.trans hn)) hp
        exact hrid (he ▸ hold.2.1)
      · exact h.disjoint a ha r hr hrl hn

/-- An owner that a live successor replaces keeps its namespace and surface. -/
theorem owner_succeeds (h : NamespaceInvariant l) (hext : Extends l l' resource rev) {old : Resource}
    (hold : Succeeds l old resource) (hlive : resource.Live) {a : PathAlias} (ha : l.HasLiveAlias a) :
    ∃ r ∈ l'.resources, r.Live ∧ r.resourceId = a.resourceId ∧ r.namespaceId = a.namespaceId ∧
      r.surface = a.surface := by
  obtain ⟨r, hr, hrl, hid, hn, hsurface⟩ := h.owner a ha
  by_cases he : r.resourceId = resource.resourceId
  · obtain ⟨hmem, hoid, hons, hosurface⟩ := hold
    have hro := Table.eq_of_key hr hmem (he.trans hoid.symm)
    rw [hro] at hid hn hsurface
    exact ⟨resource, (hext.resources _).mpr (Or.inl rfl), hlive, hoid.symm.trans hid, hons.symm.trans hn,
      hosurface.symm.trans hsurface⟩
  · exact ⟨r, (hext.resources r).mpr (Or.inr ⟨hr, he⟩), hrl, hid, hn, hsurface⟩

theorem owner_step (h : NamespaceInvariant l) (hext : Extends l l' resource rev) (hpath : PathChange l l' resource) :
    ∀ a, l'.HasLiveAlias a → ∃ r ∈ l'.resources, r.Live ∧ r.resourceId = a.resourceId ∧
      r.namespaceId = a.namespaceId ∧ r.surface = a.surface := by
  intro a ha
  cases hpath with
  | taken _ _ idle aliases =>
    obtain ⟨r, hr, hrl, hspec⟩ := h.owner a ((aliases a).mp ha).1
    exact ⟨r, (hext.resources r).mpr (Or.inr ⟨hr, idle r hr hrl⟩), hrl, hspec⟩
  | kept live old hold _ _ aliases => exact owner_succeeds h hext hold live ((aliases a).mp ha)
  | moved live old hold _ _ left leftAt aliases =>
    rcases (aliases a).mp ha with rfl | ⟨ha, _⟩
    · exact ⟨resource, (hext.resources _).mpr (Or.inl rfl), live, leftAt.2.2.2.symm, leftAt.1.symm, leftAt.2.1.symm⟩
    · exact owner_succeeds h hext hold live ha
  | dropped _ old hold aliases =>
    obtain ⟨ha, hout⟩ := (aliases a).mp ha
    obtain ⟨r, hr, hrl, hid, hn, hsurface⟩ := h.owner a ha
    by_cases he : r.resourceId = resource.resourceId
    · obtain ⟨hmem, hoid, hons, hosurface⟩ := hold
      have hro := Table.eq_of_key hr hmem (he.trans hoid.symm)
      rw [hro] at hid hn hsurface
      exact absurd ⟨hn.symm.trans hons, hsurface.symm.trans hosurface, hid.symm.trans hoid⟩ hout
    · exact ⟨r, (hext.resources r).mpr (Or.inr ⟨hr, he⟩), hrl, hid, hn, hsurface⟩

end Step

/-- After every sequence of mutations from the empty ledger, of any namespace,
surface and kind of reference: a path has at most one live owner and at most one
live alias, a live alias never shadows a live path, and it belongs to a live
Resource of its surface. -/
theorem namespace_unambiguous (rt : Runtime) (steps : List (Draws × NativeCall)) :
    NamespaceInvariant (performAll rt .empty steps) :=
  performAll_invariant rt (fun _ _ _ _ h hext hpath => ⟨live_path_step h hext hpath, alias_path_step h hpath,
    disjoint_step h hext hpath, owner_step h hext hpath⟩) steps namespaceInvariant_empty

end Akb.Native
