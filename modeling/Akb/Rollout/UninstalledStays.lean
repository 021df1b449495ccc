import Akb.Rollout.Lifecycle
import Akb.Rollout.BatchGate

/-! What is uninstalled stays so until a restore or a fresh installation, as long as neither a worker
blocks it nor a request overlooks that it has been uninstalled. -/
namespace Akb.Rollout
open Akb.Library
variable {κ ω : Type} [LinearOrder κ]

namespace Control
variable {s s' : Control κ ω}

/-- No worker blocks the job of a target whose installation is uninstalled, and no request is
carried out for an installation that was uninstalled after it had been read. -/
def Heeds (s : Control κ ω) : ControlAction κ ω → Prop
  | .processTarget w execution _ => ∀ t, s.ledger.workers w = .working t → s.ledger.blocks t execution = true →
      ∀ i ∈ s.ledger.installations, i.id = t.installationId → i.lifecycle ≠ .uninstalled
  | .persistRequest appId _ _ => ∀ q, s.requests appId = some q →
      ∀ i ∈ s.ledger.installations, i.id ∈ q.installationIds → i.lifecycle ≠ .uninstalled
  | _ => True

theorem persistRolloutJob_keeps {appId releaseId key jobId : κ} {targets : List (κ × κ)}
    (h : s.persistRolloutJob appId releaseId key jobId targets = some s')
    (hlive : ∀ t ∈ targets, ∀ i ∈ s.ledger.installations, i.id = t.2 → i.lifecycle ≠ .uninstalled) : s.Keeps s' := by
  obtain ⟨-, h⟩ := Option.ite_none_left_eq_some.mp h
  obtain ⟨ledger, hledger, h⟩ := Option.bind_eq_some_iff.mp h
  obtain ⟨-, hs'⟩ := Option.ite_none_right_eq_some.mp h
  cases hs'
  refine .of_ledger (Ledger.insertJob_kept hledger ?_)
  intro e he
  obtain ⟨t, ht, rfl⟩ := List.mem_map.mp he
  exact hlive t ht

theorem enqueue_keeps {appId installationId releaseId key jobId targetId : κ}
    (h : s.enqueueInstallationRollout appId installationId releaseId key jobId targetId = some s') : s.Keeps s' := by
  rw [enqueueInstallationRollout] at h
  split at h
  case h_1 => cases h
  case h_2 i hi =>
    obtain ⟨⟨hinstalling, -⟩, h⟩ := Option.ite_none_right_eq_some.mp h
    split at h
    case h_1 =>
      refine persistRolloutJob_keeps h ?_
      intro t ht j hj hid
      obtain ⟨hmem, hiid⟩ := Table.mem_of_get? hi
      have heq : j = i := Table.eq_of_key hj hmem (by rw [hid, List.mem_singleton.mp ht, hiid])
      rw [heq, hinstalling]
      decide
    case h_2 =>
      obtain ⟨-, hs'⟩ := Option.ite_none_right_eq_some.mp h
      cases hs'
      exact .of_ledger (.refl _)

omit [LinearOrder κ] in
theorem Keeps.apart (h : s.Keeps s') (x : κ) : s.Apart s' x := fun i hi _ => h.installations.old i hi

theorem loadInstallation_mem {appId vaultId : κ} {i : Installation κ} (h : s.loadInstallation appId vaultId = some i) :
    i ∈ s.ledger.installations := by
  obtain ⟨p, -, hp⟩ := Option.bind_eq_some_iff.mp h
  exact (Table.mem_of_get? hp).1

theorem live_setInstallation {x : κ} {f : Installation κ → Installation κ} (hf : ∀ i, (f i).id = i.id)
    (hlive : ∀ i, (f i).lifecycle ≠ .uninstalled) :
    ∀ i ∈ (s.setInstallation x f hf).installations, i.id = x → i.lifecycle ≠ .uninstalled := by
  intro i' hi' hid
  obtain ⟨i, -, rfl⟩ := (mem_setInstallation hf).mp hi'
  by_cases h : i.id = x
  · rw [if_pos h]
    exact hlive i
  · rw [if_neg h] at hid
    exact absurd hid h

/-- An installation comes back with a new grant. -/
private theorem revive_insertGrant (hs : s.Sound none) {f : Installation κ → Installation κ}
    (hf : ∀ i, (f i).id = i.id) (hgen : ∀ i, (f i).activeGeneration = i.activeGeneration)
    (hlive : ∀ i, (f i).lifecycle ≠ .uninstalled) {g : Grant κ} (hactive : g.active = true) {resources : List (Resource κ)}
    (hres : ∀ r ∈ resources, ∃ r₀ ∈ s.resources, r.installationId = r₀.installationId ∧
      (r.installationId ≠ g.installationId → r = r₀))
    (h : ({ s with resources := resources, ledger := s.setInstallation g.installationId f hf } :
      Control κ ω).insertGrant g = some s') :
    s'.Sound none ∧ s.Apart s' g.installationId := by
  obtain ⟨hsound, hapart⟩ := (hs.revive hgen hlive hres).insertGrant hactive (live_setInstallation hf hlive) h
  exact ⟨hsound, Apart.trans (fun i hi hne => apart_setInstallation hf hi hne) hapart⟩

private theorem setResources_same (x : κ) (status : Ownership) {r : Resource κ} (hr : r ∈ s.setResources x status) :
    ∃ r₀ ∈ s.resources, r.installationId = r₀.installationId ∧ (r.installationId ≠ x → r = r₀) := by
  obtain ⟨r₀, hr₀, rfl⟩ := List.mem_map.mp hr
  refine ⟨r₀, hr₀, ?_⟩
  by_cases h : r₀.installationId = x
  · rw [if_pos h]
    exact ⟨rfl, fun hne => absurd h hne⟩
  · rw [if_neg h]
    exact ⟨rfl, fun _ => rfl⟩

private theorem applyExistingCommand_sound (hs : s.Sound none) {c : Command κ} {release : Release κ} {i : Installation κ}
    {d : Drawn κ} (h : s.applyExistingCommand c release i d = some s') :
    (s'.Sound none ∧ s.Apart s' i.id) ∧ (c.mode = .restore ∨ c.mode = .fresh) := by
  obtain ⟨-, h⟩ := Option.ite_none_left_eq_some.mp h
  cases hmode : c.mode with
  | install | initialGrantApproval =>
    rw [hmode] at h
    cases h
  | restore =>
    rw [hmode] at h
    obtain ⟨-, h⟩ := Option.ite_none_right_eq_some.mp h
    exact ⟨revive_insertGrant (f := Installation.restore c.releaseId) hs (fun _ => rfl) (fun _ => rfl) (by rintro _ ⟨⟩) rfl
      (fun r hr => setResources_same _ _ hr) h, .inl rfl⟩
  | fresh =>
    rw [hmode] at h
    obtain ⟨-, h⟩ := Option.ite_none_left_eq_some.mp h
    obtain ⟨u, hu, hq⟩ := Option.bind_eq_some_iff.mp h
    obtain ⟨hsound, hapart⟩ := revive_insertGrant (f := Installation.refresh c.releaseId) hs (fun _ => rfl) (fun _ => rfl)
      (by rintro _ ⟨⟩) rfl (fun r hr => ⟨r, hr, rfl, fun _ => rfl⟩) hu
    have hkeeps := enqueue_keeps hq
    exact ⟨⟨hkeeps.sound hsound, hapart.trans (hkeeps.apart _)⟩, .inr rfl⟩

private theorem installNew_sound (hs : s.Sound none) {c : Command κ} {d : Drawn κ} (h : s.installNew c d = some s') :
    s'.Sound none ∧ ∀ i ∈ s.ledger.installations, ∃ i' ∈ s'.ledger.installations, i.Kept i' := by
  obtain ⟨-, h⟩ := Option.ite_none_left_eq_some.mp h
  obtain ⟨t, ht, h⟩ := Option.bind_eq_some_iff.mp h
  obtain ⟨u, hu, hq⟩ := Option.bind_eq_some_iff.mp h
  obtain ⟨hfresh, hmem⟩ := Table.insert?_eq_some ht
  obtain ⟨hsound, hold⟩ : ({ s with
      ledger := { s.ledger with installations := t }
      placements := ⟨d.installationId, c.appId, c.vaultId⟩ :: s.placements } : Control κ ω).Sound
        (some d.installationId) ∧ ∀ j ∈ s.ledger.installations, j ∈ t :=
    hs.insertRow ht (by rintro ⟨⟩) rfl rfl rfl (fun r hr => .inl hr) (fun a ha => ha) (.inl rfl)
  have hlive : ∀ i ∈ t, i.id = d.installationId → i.lifecycle ≠ .uninstalled := by
    intro i hi hid
    rcases (hmem i).mp hi with rfl | hi
    · rintro ⟨⟩
    · exact absurd hid (hfresh i hi)
  obtain ⟨hsound', hapart⟩ := hsound.insertGrant rfl hlive hu
  have hkeeps := enqueue_keeps hq
  refine ⟨hkeeps.sound hsound', fun i hi => ?_⟩
  exact hapart.trans (hkeeps.apart _) i (hold i hi) (hfresh i hi)

/-- What a command does: nothing, a new installation, or one that comes back. -/
theorem commandInstallation_sound (hs : s.Sound none) {c : Command κ} {d : Drawn κ}
    (h : s.commandInstallation c d = some s') :
    s'.Sound none ∧ ((∀ i ∈ s.ledger.installations, ∃ i' ∈ s'.ledger.installations, i.Kept i') ∨
      ∃ i, s.loadInstallation c.appId c.vaultId = some i ∧ (c.mode = .restore ∨ c.mode = .fresh) ∧ s.Apart s' i.id) := by
  rw [commandInstallation] at h
  split at h
  case h_1 => cases h
  case h_2 release _ =>
    split at h
    case h_1 i hi =>
      by_cases hreplayed : s.replayed c i = true
      · rw [if_pos hreplayed] at h
        cases h
        exact ⟨hs, .inl (fun i hi => ⟨i, hi, .refl i⟩)⟩
      · rw [if_neg hreplayed] at h
        obtain ⟨⟨hsound, hapart⟩, hmode⟩ := applyExistingCommand_sound hs h
        exact ⟨hsound, .inr ⟨i, hi, hmode, hapart⟩⟩
    case h_2 =>
      obtain ⟨hsound, hkept⟩ := installNew_sound hs h
      exact ⟨hsound, .inl hkept⟩

private theorem mem_revokeGrants {x : κ} {g : Grant κ} (hg : g ∈ s.revokeGrants x) :
    ∃ g₀ ∈ s.grants, g.installationId = g₀.installationId ∧ (g.installationId = x → g.active = false) := by
  obtain ⟨g₀, hg₀, rfl⟩ := List.mem_map.mp hg
  refine ⟨g₀, hg₀, ?_⟩
  by_cases h : g₀.installationId = x
  · rw [if_pos h]
    exact ⟨rfl, fun _ => rfl⟩
  · rw [if_neg h]
    exact ⟨rfl, fun he => absurd he h⟩

private theorem activeGrants_revoked {x id : κ} {ledger : Ledger κ ω} {resources : List (Resource κ)} :
    ({ s with grants := s.revokeGrants x, ledger := ledger, resources := resources } : Control κ ω).activeGrants id =
      if id = x then [] else s.activeGrants id := by
  simp only [activeGrants]
  split
  case isTrue hid =>
    refine List.filter_eq_nil_iff.mpr (fun g hg hp => ?_)
    rw [Bool.and_eq_true, decide_eq_true_eq] at hp
    obtain ⟨_, _, _, hactive⟩ := mem_revokeGrants hg
    rw [hactive (hp.1.trans hid)] at hp
    cases hp.2
  case isFalse hid =>
    rw [revokeGrants]
    generalize s.grants = grants
    induction grants with
    | nil => rfl
    | cons g grants ih =>
      rw [List.map_cons, List.filter_cons, List.filter_cons, ih]
      by_cases hg : g.installationId = x
      · have hne : g.installationId ≠ id := fun he => hid (he.symm.trans hg)
        simp [hg, hg ▸ hne]
      · simp [hg]

theorem uninstall_sound (hs : s.Sound none) {appId vaultId : κ} (h : s.uninstallInstallation appId vaultId = some s') :
    s'.Sound none ∧ ∀ i ∈ s.ledger.installations, i.lifecycle = .uninstalled →
      ∃ i' ∈ s'.ledger.installations, i'.id = i.id ∧ i'.lifecycle = .uninstalled := by
  rw [uninstallInstallation] at h
  split at h
  case h_1 => cases h
  case h_2 i₀ hi₀ =>
    by_cases hun₀ : i₀.lifecycle = .uninstalled
    · rw [if_pos hun₀] at h
      cases h
      exact ⟨hs, fun i hi hun => ⟨i, hi, rfl, hun⟩⟩
    rw [if_neg hun₀] at h
    cases h
    refine ⟨⟨?_, ?_, ?_, ?_, ?_⟩, ?_⟩
    · intro g hg
      obtain ⟨g₀, hg₀, hid, -⟩ := mem_revokeGrants hg
      exact row_setInstallation _ (hid ▸ hs.grantRow g₀ hg₀)
    · intro r hr
      obtain ⟨r₀, hr₀, hid, -⟩ := setResources_same _ _ hr
      exact row_setInstallation _ (hid ▸ hs.resourceRow r₀ hr₀)
    · intro i' hi'
      obtain ⟨i, hi, rfl⟩ := (mem_setInstallation _).mp hi'
      rw [activeGrants_revoked]
      by_cases hid : i.id = i₀.id
      · rw [if_pos hid, if_pos (by exact hid)]
        rfl
      · rw [if_neg hid, if_neg hid]
        exact hs.shown i hi
    · intro i' hi' hun
      obtain ⟨i, hi, rfl⟩ := (mem_setInstallation _).mp hi'
      rw [activeGrants_revoked]
      by_cases hid : i.id = i₀.id
      · rw [if_pos hid, if_pos (by exact hid)]
        refine ⟨rfl, ?_, rfl⟩
        intro r hr hrid
        obtain ⟨r₀, -, rfl⟩ := List.mem_map.mp hr
        by_cases h₀ : r₀.installationId = i₀.id
        · rw [if_pos h₀]
        · rw [if_neg h₀] at hrid
          exact absurd (hrid.trans hid) h₀
      · rw [if_neg hid] at hun ⊢
        rw [if_neg hid]
        obtain ⟨hnone, hretained, hdesired⟩ := hs.uninstalled i hi hun
        refine ⟨hnone, ?_, hdesired⟩
        intro r hr hrid
        obtain ⟨r₀, hr₀, -, hsame⟩ := setResources_same _ _ hr
        have heq : r = r₀ := hsame (fun he => hid (hrid.symm.trans he))
        rw [heq] at hrid ⊢
        exact hretained r₀ hr₀ hrid
    · intro i' hi' hl _
      obtain ⟨i, hi, rfl⟩ := (mem_setInstallation _).mp hi'
      by_cases hid : i.id = i₀.id
      · rw [if_pos hid] at hl
        exact absurd rfl hl
      · rw [if_neg hid] at hl ⊢
        rw [Granted, activeGrants_revoked, if_neg hid]
        exact hs.granted i hi hl (by rintro ⟨⟩)
    · intro i hi hun
      refine ⟨_, (mem_setInstallation _).mpr ⟨i, hi, rfl⟩, ?_⟩
      split
      · exact ⟨rfl, rfl⟩
      · exact ⟨rfl, hun⟩

theorem adopt_sound (hs : s.Sound none) {id vaultId : κ} {release : Release κ} {tables : List String}
    {fingerprint : Option String} (h : s.adopt id release vaultId tables fingerprint = some s') :
    s'.Sound none ∧ ∀ i ∈ s.ledger.installations, i ∈ s'.ledger.installations := by
  obtain ⟨-, h⟩ := Option.ite_none_left_eq_some.mp h
  obtain ⟨t, ht, rfl⟩ := Option.map_eq_some_iff.mp h
  refine hs.insertRow ht (by rintro ⟨⟩) rfl rfl rfl ?_ (fun a ha => List.mem_cons_of_mem _ ha)
    (.inr ⟨rfl, List.mem_cons_self⟩)
  intro r hr
  rcases List.mem_append.mp hr with hr | hr
  · exact .inl hr
  · obtain ⟨table, -, rfl⟩ := List.mem_map.mp hr
    exact .inr rfl

/-- A change of an installation that touches neither its lifecycle nor its grants. -/
theorem keeps_setInstallation {x : κ} {f : Installation κ → Installation κ} (hf : ∀ i, (f i).id = i.id)
    (h : ∀ i : Installation κ, i.Kept (f i)) : s.Keeps { s with ledger := s.setInstallation x f hf } :=
  .of_ledger (.updateWhere f hf (fun i _ _ => h i))

theorem approve_sound (hs : s.Sound none) {appId vaultId : κ} {release : Release κ} {capabilities : List String}
    (h : s.approveInitialInstallationGrant appId vaultId release capabilities = some s') :
    s'.Sound none ∧ ∀ i ∈ s.ledger.installations, i.lifecycle = .uninstalled →
      ∃ i' ∈ s'.ledger.installations, i.Kept i' := by
  rw [approveInitialInstallationGrant] at h
  split at h
  case h_1 => cases h
  case h_2 i₀ hi₀ =>
    obtain ⟨⟨-, hactive, -⟩, h⟩ := Option.ite_none_right_eq_some.mp h
    obtain ⟨u, hu, rfl⟩ := Option.map_eq_some_iff.mp h
    have hmem := loadInstallation_mem hi₀
    have hpending : s.Sound (some i₀.id) := ⟨hs.grantRow, hs.resourceRow, hs.shown, hs.uninstalled,
      fun i hi hl _ => hs.granted i hi hl (by rintro ⟨⟩)⟩
    have hlive : ∀ i ∈ s.ledger.installations, i.id = i₀.id → i.lifecycle ≠ .uninstalled := by
      intro i hi hid
      rw [Table.eq_of_key hi hmem hid, hactive]
      decide
    obtain ⟨hsound, hapart⟩ := hpending.insertGrant rfl hlive hu
    have hkeeps : u.Keeps { u with ledger := u.setInstallation i₀.id (Installation.observeGrant 1) (fun _ => rfl) } :=
      keeps_setInstallation _ (fun _ => ⟨rfl, rfl, rfl, .inl ⟨rfl, rfl⟩⟩)
    refine ⟨hkeeps.sound hsound, fun i hi hun => ?_⟩
    exact hapart.trans (hkeeps.apart _) i hi (fun hid => hlive i hi hid hun)

end Control
end Akb.Rollout
