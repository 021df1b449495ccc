import Akb.Rollout.Commands
import Akb.Rollout.Steps

/-! The lifecycle of an installation: what is uninstalled has neither a grant nor a resource
of its own, and what is not has one active grant. -/
namespace Akb.Rollout
open Akb.Library
variable {κ ω : Type} [LinearOrder κ] [DecidableEq ω]

/-- A change of an installation that neither uninstalls it nor brings it back, and leaves its grants. -/
structure Installation.Kept (i i' : Installation κ) : Prop where
  id : i'.id = i.id
  grantGeneration : i'.grantGeneration = i.grantGeneration
  activeGeneration : i'.activeGeneration = i.activeGeneration
  lifecycle : (i'.lifecycle = i.lifecycle ∧ i'.desiredReleaseId = i.desiredReleaseId) ∨
    (i.lifecycle ≠ .uninstalled ∧ i'.lifecycle ≠ .uninstalled)

omit [LinearOrder κ] in
theorem Installation.Kept.refl (i : Installation κ) : i.Kept i := ⟨rfl, rfl, rfl, .inl ⟨rfl, rfl⟩⟩

omit [LinearOrder κ] in
theorem Installation.Kept.trans {i j k : Installation κ} (h : i.Kept j) (h' : j.Kept k) : i.Kept k := by
  refine ⟨h'.id.trans h.id, h'.grantGeneration.trans h.grantGeneration, h'.activeGeneration.trans h.activeGeneration, ?_⟩
  rcases h.lifecycle with ⟨hl, hd⟩ | ⟨hi, hj⟩ <;> rcases h'.lifecycle with ⟨hl', hd'⟩ | ⟨hj', hk⟩
  · exact .inl ⟨hl'.trans hl, hd'.trans hd⟩
  · exact .inr ⟨hl ▸ hj', hk⟩
  · exact .inr ⟨hi, hl' ▸ hj⟩
  · exact .inr ⟨hi, hk⟩

omit [LinearOrder κ] in
theorem Installation.Kept.uninstalled_iff {i i' : Installation κ} (h : i.Kept i') :
    i'.lifecycle = .uninstalled ↔ i.lifecycle = .uninstalled := by
  rcases h.lifecycle with ⟨heq, -⟩ | ⟨hi, hi'⟩
  · rw [heq]
  · exact iff_of_false hi' hi

omit [LinearOrder κ] in
theorem Installation.desire_kept {releaseId : κ} {i : Installation κ} (h : i.lifecycle ≠ .uninstalled) :
    i.Kept (i.desire releaseId) := by
  refine ⟨rfl, rfl, rfl, .inr ⟨h, ?_⟩⟩
  rw [Installation.desire]
  dsimp only
  split <;> decide

omit [LinearOrder κ] in
theorem Installation.block_kept {reason : Reason} {i : Installation κ} (h : i.lifecycle ≠ .uninstalled) :
    i.Kept (i.block reason) := ⟨rfl, rfl, rfl, .inr ⟨h, by rintro ⟨⟩⟩⟩

omit [LinearOrder κ] in
theorem Installation.converge_kept {releaseId : κ} {fingerprint : String} {i : Installation κ}
    (h : i.lifecycle ≠ .uninstalled) : i.Kept (i.converge releaseId fingerprint) :=
  ⟨rfl, rfl, rfl, .inr ⟨h, by rintro ⟨⟩⟩⟩

abbrev Installations (κ : Type) := Table (Installation κ) Installation.id

/-- Every installation is kept, and none is new. -/
structure AllKept (t t' : Installations κ) : Prop where
  old : ∀ i ∈ t, ∃ i' ∈ t', i.Kept i'
  new : ∀ i' ∈ t', ∃ i ∈ t, i.Kept i'

omit [LinearOrder κ] in
theorem AllKept.refl (t : Installations κ) : AllKept t t :=
  ⟨fun i hi => ⟨i, hi, .refl i⟩, fun i hi => ⟨i, hi, .refl i⟩⟩

omit [LinearOrder κ] in
theorem AllKept.updateWhere {t : Installations κ} {p : Installation κ → Bool} (f : Installation κ → Installation κ)
    (hf : ∀ i, (f i).id = i.id) (h : ∀ i ∈ t, p i = true → i.Kept (f i)) : AllKept t (t.updateWhere p f hf) := by
  have hkept : ∀ i ∈ t, i.Kept (if p i then f i else i) := by
    intro i hi
    split
    · exact h i hi ‹_›
    · exact .refl i
  refine ⟨fun i hi => ⟨_, List.mem_map.mpr ⟨i, hi, rfl⟩, hkept i hi⟩, ?_⟩
  intro i' hi'
  obtain ⟨i, hi, rfl⟩ := List.mem_map.mp hi'
  exact ⟨i, hi, hkept i hi⟩

namespace Ledger
variable {s s' : Ledger κ ω}

omit [DecidableEq ω] in
theorem insertJob_installations {appId releaseId jobId : κ} {entries : List (Entry κ)}
    (h : s.insertJob appId releaseId jobId entries = some s') :
    s'.installations = s.installations.updateWhere
      (fun i => i.appId = appId && entries.any (fun e => e.installationId = i.id && !e.converged))
      (Installation.desire releaseId) (fun _ => rfl) := by
  obtain ⟨-, h⟩ := Option.ite_none_right_eq_some.mp h
  obtain ⟨jobs, -, h⟩ := Option.bind_eq_some_iff.mp h
  obtain ⟨targets, -, rfl⟩ := Option.map_eq_some_iff.mp h
  rfl

omit [DecidableEq ω] in
/-- A job sets nothing on its way that is uninstalled, if nothing it names is. -/
theorem insertJob_kept {appId releaseId jobId : κ} {entries : List (Entry κ)}
    (h : s.insertJob appId releaseId jobId entries = some s')
    (hlive : ∀ e ∈ entries, ∀ i ∈ s.installations, i.id = e.installationId → i.lifecycle ≠ .uninstalled) :
    AllKept s.installations s'.installations := by
  rw [insertJob_installations h]
  refine .updateWhere (Installation.desire releaseId) (fun _ => rfl) (fun i hi hp => Installation.desire_kept ?_)
  rw [Bool.and_eq_true, List.any_eq_true] at hp
  obtain ⟨-, e, he, hid⟩ := hp
  rw [Bool.and_eq_true, decide_eq_true_eq] at hid
  exact hlive e he i hi hid.1.symm

omit [DecidableEq ω] in
theorem resumeRollout_kept {sourceId releaseId jobId : κ} {ids : List κ}
    (h : s.resumeRollout sourceId releaseId jobId ids = some s') : AllKept s.installations s'.installations := by
  rw [resumeRollout] at h
  split at h
  case h_1 => cases h
  case h_2 source hsource =>
    refine insertJob_kept (Option.ite_none_right_eq_some.mp h).2 ?_
    intro e he i hi hid
    obtain ⟨⟨id, found⟩, hzip, rfl⟩ := List.mem_map.mp he
    obtain ⟨t, -, ht⟩ := List.mem_filterMap.mp (List.of_mem_zip hzip).2
    obtain ⟨hget, hfilter⟩ := Option.filter_eq_some_iff.mp ht
    rw [Bool.and_eq_true, decide_eq_true_eq, decide_eq_true_eq] at hfilter
    have heq : i = found := Table.eq_of_key hi (Table.mem_of_get? hget).1 hid
    exact heq ▸ hfilter.2

omit [DecidableEq ω] in
/-- An installation that passes the preflight is on its way. -/
theorem preflight_row {t : Target κ ω} (h : s.preflightTarget t = none) :
    ∃ i ∈ s.installations, i.id = t.installationId ∧ i.lifecycle ≠ .uninstalled := by
  rw [preflightTarget] at h
  split at h
  case h_1 => cases h
  case h_2 i hfind =>
    have hp := List.find?_some hfind
    rw [Bool.and_eq_true, decide_eq_true_eq] at hp
    refine ⟨i, List.mem_of_find?_eq_some hfind, hp.1, fun hun => ?_⟩
    rw [Installation.preflight] at h
    split at h
    case isTrue => cases h
    case isFalse hstale => exact hstale (.inl (by rw [hun]; decide))

omit [DecidableEq ω] in
/-- What processing does to the installations, unless it blocks one that is uninstalled. -/
theorem processed_kept {t : Target κ ω} {execution : Execution}
    (hlive : s.blocks t execution = true →
      ∀ i ∈ s.installations, i.id = t.installationId → i.lifecycle ≠ .uninstalled) :
    AllKept s.installations (s.processed t execution).installations := by
  have hid : ∀ i : Installation κ, (i.id = t.installationId && i.appId = t.appId) = true → i.id = t.installationId := by
    intro i h
    rw [Bool.and_eq_true, decide_eq_true_eq] at h
    exact h.1
  have hblocked : ∀ reason, s.blocks t execution = true →
      AllKept s.installations (s.markJobBlocked t reason).installations := fun reason hb =>
    .updateWhere (Installation.block reason) (fun _ => rfl) (fun i hi hp => Installation.block_kept (hlive hb i hi (hid i hp)))
  unfold blocks at hblocked
  unfold processed
  cases hpre : s.preflightTarget t with
  | some reason => exact hblocked reason (by rw [hpre])
  | none =>
    cases execution with
    | failed reason => exact hblocked reason (by rw [hpre])
    | yielded => exact .refl _
    | converged fingerprint =>
      exact .updateWhere (Installation.converge t.releaseId fingerprint) (fun _ => rfl)
        (fun i hi hp => Installation.converge_kept (by
          obtain ⟨i₀, hi₀, hid₀, hlive₀⟩ := preflight_row hpre
          exact Table.eq_of_key hi₀ hi (hid₀.trans (hid i hp).symm) ▸ hlive₀))

end Ledger

namespace Control
variable {s s' : Control κ ω}

/-- An adopted installation has no grant before its first one is approved. -/
def Granted (s : Control κ ω) (i : Installation κ) : Prop :=
  (∃ g, s.activeGrants i.id = [g] ∧ g.generation = i.grantGeneration) ∨
    (i.id ∈ s.adopted ∧ i.grantGeneration = 0 ∧ s.activeGrants i.id = [])

/-- The invariant, where `pending` is an installation that is still to be granted. -/
structure Sound (s : Control κ ω) (pending : Option κ) : Prop where
  grantRow : ∀ g ∈ s.grants, ∃ i ∈ s.ledger.installations, i.id = g.installationId
  resourceRow : ∀ r ∈ s.resources, ∃ i ∈ s.ledger.installations, i.id = r.installationId
  shown : ∀ i ∈ s.ledger.installations, i.activeGeneration = (s.activeGrants i.id).head?.map Grant.generation
  uninstalled : ∀ i ∈ s.ledger.installations, i.lifecycle = .uninstalled → s.activeGrants i.id = [] ∧
    (∀ r ∈ s.resources, r.installationId = i.id → r.status = .retained) ∧ i.desiredReleaseId = none
  granted : ∀ i ∈ s.ledger.installations, i.lifecycle ≠ .uninstalled → pending ≠ some i.id → s.Granted i

/-- A step after which every installation is kept. New resources are of installations in place. -/
structure Keeps (s s' : Control κ ω) : Prop where
  installations : AllKept s.ledger.installations s'.ledger.installations
  grants : s'.grants = s.grants
  adopted : s'.adopted = s.adopted
  resources : ∀ r ∈ s'.resources, r ∈ s.resources ∨
    ∃ i ∈ s.ledger.installations, i.id = r.installationId ∧ i.lifecycle ≠ .uninstalled

omit [DecidableEq ω] in
theorem Keeps.sound (hk : s.Keeps s') {pending : Option κ} (hs : s.Sound pending) : s'.Sound pending := by
  have hactive : ∀ id, s'.activeGrants id = s.activeGrants id := fun id => by rw [activeGrants, hk.grants, activeGrants]
  refine ⟨?_, ?_, ?_, ?_, ?_⟩
  · intro g hg
    obtain ⟨i, hi, hid⟩ := hs.grantRow g (hk.grants ▸ hg)
    obtain ⟨i', hi', hkept⟩ := hk.installations.old i hi
    exact ⟨i', hi', hkept.id.trans hid⟩
  · intro r hr
    have hrow : ∃ i ∈ s.ledger.installations, i.id = r.installationId := by
      rcases hk.resources r hr with hr | ⟨i, hi, hid, -⟩
      · exact hs.resourceRow r hr
      · exact ⟨i, hi, hid⟩
    obtain ⟨i, hi, hid⟩ := hrow
    obtain ⟨i', hi', hkept⟩ := hk.installations.old i hi
    exact ⟨i', hi', hkept.id.trans hid⟩
  · intro i' hi'
    obtain ⟨i, hi, hkept⟩ := hk.installations.new i' hi'
    rw [hactive, hkept.id, hkept.activeGeneration]
    exact hs.shown i hi
  · intro i' hi' hun
    obtain ⟨i, hi, hkept⟩ := hk.installations.new i' hi'
    have hun₀ := hkept.uninstalled_iff.mp hun
    obtain ⟨hnone, hretained, hdesired⟩ := hs.uninstalled i hi hun₀
    rw [hactive, hkept.id]
    refine ⟨hnone, ?_, ?_⟩
    · intro r hr hrid
      rcases hk.resources r hr with hr | ⟨i₀, hi₀, hid₀, hlive⟩
      · exact hretained r hr hrid
      · exact absurd (Table.eq_of_key hi₀ hi (hid₀.trans hrid) ▸ hun₀) hlive
    · rcases hkept.lifecycle with ⟨-, heq⟩ | ⟨hlive, -⟩
      · exact heq.trans hdesired
      · exact absurd hun₀ hlive
  · intro i' hi' hlive hpending
    obtain ⟨i, hi, hkept⟩ := hk.installations.new i' hi'
    have hgranted := hs.granted i hi (fun h => hlive (hkept.uninstalled_iff.mpr h)) (hkept.id ▸ hpending)
    rw [Granted, hactive, hk.adopted, hkept.id, hkept.grantGeneration]
    exact hgranted

omit [LinearOrder κ] [DecidableEq ω] in
/-- A step that touches nothing but the ledger. -/
theorem Keeps.of_ledger {ledger : Ledger κ ω} {requests : κ → Option (Request κ)} {jobKeys resumeKeys : List (κ × κ × κ)}
    (h : AllKept s.ledger.installations ledger.installations) :
    s.Keeps { s with ledger := ledger, requests := requests, jobKeys := jobKeys, resumeKeys := resumeKeys } :=
  ⟨h, rfl, rfl, fun _ hr => .inl hr⟩

end Control
end Akb.Rollout

/-! The lifecycle invariant over every interleaving of commands, requests and workers. -/
namespace Akb.Rollout
open Akb.Library
variable {κ ω : Type} [LinearOrder κ] [DecidableEq ω]

namespace Control
variable {s s' : Control κ ω}

/-- A step that keeps all installations but one. -/
def Apart (s s' : Control κ ω) (x : κ) : Prop :=
  ∀ i ∈ s.ledger.installations, i.id ≠ x → ∃ i' ∈ s'.ledger.installations, i.Kept i'

omit [LinearOrder κ] [DecidableEq ω] in
theorem Apart.trans {u : Control κ ω} {x : κ} (h : s.Apart u x) (h' : u.Apart s' x) : s.Apart s' x := by
  intro i hi hne
  obtain ⟨j, hj, hij⟩ := h i hi hne
  obtain ⟨k, hk, hjk⟩ := h' j hj (hij.id ▸ hne)
  exact ⟨k, hk, hij.trans hjk⟩

omit [DecidableEq ω] in
theorem mem_setInstallation {x : κ} {f : Installation κ → Installation κ} (hf : ∀ i, (f i).id = i.id)
    {i' : Installation κ} :
    i' ∈ (s.setInstallation x f hf).installations ↔ ∃ i ∈ s.ledger.installations, (if i.id = x then f i else i) = i' := by
  rw [setInstallation, Table.mem_def, Table.updateWhere, List.mem_map]
  simp only [decide_eq_true_eq]
  rfl

omit [DecidableEq ω] in
theorem apart_setInstallation {x : κ} {f : Installation κ → Installation κ} (hf : ∀ i, (f i).id = i.id)
    {i : Installation κ} (hi : i ∈ s.ledger.installations) (hne : i.id ≠ x) :
    ∃ i' ∈ (s.setInstallation x f hf).installations, i.Kept i' :=
  ⟨i, (mem_setInstallation hf).mpr ⟨i, hi, if_neg hne⟩, .refl i⟩

omit [DecidableEq ω] in
theorem row_setInstallation {x : κ} {f : Installation κ → Installation κ} (hf : ∀ i, (f i).id = i.id) {id : κ}
    (h : ∃ i ∈ s.ledger.installations, i.id = id) : ∃ i ∈ (s.setInstallation x f hf).installations, i.id = id := by
  obtain ⟨i, hi, rfl⟩ := h
  refine ⟨_, (mem_setInstallation hf).mpr ⟨i, hi, rfl⟩, ?_⟩
  split
  · exact hf i
  · rfl

omit [DecidableEq ω] in
theorem insertGrant_spec {g : Grant κ} (h : s.insertGrant g = some s') :
    ∃ i ∈ s.ledger.installations, i.id = g.installationId ∧ i.grantGeneration + 1 = g.generation ∧
      s.activeGrants g.installationId = [] ∧
      s' = { s with
        grants := s.grants ++ [g]
        ledger := s.setInstallation g.installationId (Installation.grant g.generation) (fun _ => rfl) } := by
  rw [insertGrant] at h
  split at h
  case h_1 => cases h
  case h_2 i hi =>
    obtain ⟨⟨hgen, hnone⟩, hs'⟩ := Option.ite_none_right_eq_some.mp h
    obtain ⟨hmem, hid⟩ := Table.mem_of_get? hi
    exact ⟨i, hmem, hid, hgen, hnone, (Option.some.inj hs').symm⟩

omit [DecidableEq ω] in
/-- The grant completes the installation that was still to be granted. -/
theorem Sound.insertGrant {g : Grant κ} (hs : s.Sound (some g.installationId)) (hactive : g.active = true)
    (hlive : ∀ i ∈ s.ledger.installations, i.id = g.installationId → i.lifecycle ≠ .uninstalled)
    (h : s.insertGrant g = some s') : s'.Sound none ∧ s.Apart s' g.installationId := by
  obtain ⟨i₀, hi₀, hid₀, hgen, hnone, rfl⟩ := insertGrant_spec h
  have hgrants : ∀ (l : Ledger κ ω) id, ({ s with grants := s.grants ++ [g], ledger := l } : Control κ ω).activeGrants id =
      if g.installationId = id then s.activeGrants id ++ [g] else s.activeGrants id := by
    intro l id
    simp only [activeGrants, List.filter_append, List.filter_cons, List.filter_nil, hactive, Bool.and_true,
      decide_eq_true_eq]
    split <;> simp
  refine ⟨⟨?_, ?_, ?_, ?_, ?_⟩, fun i hi hne => apart_setInstallation _ hi hne⟩
  · intro g' hg'
    rcases List.mem_append.mp hg' with hg' | hg'
    · exact row_setInstallation _ (hs.grantRow g' hg')
    · exact row_setInstallation _ ⟨i₀, hi₀, List.mem_singleton.mp hg' ▸ hid₀⟩
  · exact fun r hr => row_setInstallation _ (hs.resourceRow r hr)
  · intro i' hi'
    obtain ⟨i, hi, rfl⟩ := (mem_setInstallation _).mp hi'
    rw [hgrants]
    by_cases hid : i.id = g.installationId
    · rw [if_pos hid, if_pos (by exact hid.symm)]
      simp only [Installation.grant, hid, hnone, List.nil_append, List.head?_cons, Option.map_some]
    · rw [if_neg hid, if_neg (fun he => hid he.symm)]
      exact hs.shown i hi
  · intro i' hi' hun
    obtain ⟨i, hi, rfl⟩ := (mem_setInstallation _).mp hi'
    rw [hgrants]
    by_cases hid : i.id = g.installationId
    · rw [if_pos hid] at hun
      exact absurd hun (hlive i hi hid)
    · rw [if_neg hid] at hun ⊢
      rw [if_neg (fun he => hid he.symm)]
      exact hs.uninstalled i hi hun
  · intro i' hi' hl _
    obtain ⟨i, hi, rfl⟩ := (mem_setInstallation _).mp hi'
    rw [Granted, hgrants]
    by_cases hid : i.id = g.installationId
    · rw [if_pos hid, if_pos (by exact hid.symm)]
      refine .inl ⟨g, ?_, rfl⟩
      simp only [Installation.grant, hid, hnone, List.nil_append]
    · rw [if_neg hid] at hl ⊢
      rw [if_neg (fun he => hid he.symm)]
      exact hs.granted i hi hl (fun he => hid (Option.some.inj he).symm)

omit [DecidableEq ω] in
/-- An installation comes back, and is then still to be granted. -/
theorem Sound.revive (hs : s.Sound none) {x : κ} {f : Installation κ → Installation κ} {hf : ∀ i, (f i).id = i.id}
    (hgen : ∀ i, (f i).activeGeneration = i.activeGeneration) (hlive : ∀ i, (f i).lifecycle ≠ .uninstalled)
    {resources : List (Resource κ)}
    (hres : ∀ r ∈ resources, ∃ r₀ ∈ s.resources, r.installationId = r₀.installationId ∧ (r.installationId ≠ x → r = r₀)) :
    ({ s with resources := resources, ledger := s.setInstallation x f hf } : Control κ ω).Sound (some x) := by
  refine ⟨fun g hg => row_setInstallation _ (hs.grantRow g hg), ?_, ?_, ?_, ?_⟩
  · intro r hr
    obtain ⟨r₀, hr₀, hid, -⟩ := hres r hr
    exact row_setInstallation _ (hid ▸ hs.resourceRow r₀ hr₀)
  · intro i' hi'
    obtain ⟨i, hi, rfl⟩ := (mem_setInstallation _).mp hi'
    have hshown := hs.shown i hi
    split
    · rw [hgen, hf]
      exact hshown
    · exact hshown
  · intro i' hi' hun
    obtain ⟨i, hi, rfl⟩ := (mem_setInstallation _).mp hi'
    by_cases hid : i.id = x
    · rw [if_pos hid] at hun
      exact absurd hun (hlive i)
    · rw [if_neg hid] at hun ⊢
      obtain ⟨hnone, hretained, hdesired⟩ := hs.uninstalled i hi hun
      refine ⟨hnone, ?_, hdesired⟩
      intro r hr hrid
      obtain ⟨r₀, hr₀, -, hsame⟩ := hres r hr
      have heq : r = r₀ := hsame (fun he => hid (hrid.symm.trans he))
      rw [heq] at hrid ⊢
      exact hretained r₀ hr₀ hrid
  · intro i' hi' hl hpending
    obtain ⟨i, hi, rfl⟩ := (mem_setInstallation _).mp hi'
    by_cases hid : i.id = x
    · rw [if_pos hid, hf, hid] at hpending
      exact absurd rfl hpending
    · rw [if_neg hid] at hl ⊢
      exact hs.granted i hi hl (by rintro ⟨⟩)

omit [DecidableEq ω] in
/-- A new installation is still to be granted, unless it is adopted. -/
theorem Sound.insertRow (hs : s.Sound none) {i : Installation κ} {t : Installations κ} {pending : Option κ}
    (hins : s.ledger.installations.insert? i = some t) (hlive : i.lifecycle ≠ .uninstalled)
    (hgen : i.activeGeneration = none) (ht : s'.ledger.installations = t) (hgrants : s'.grants = s.grants)
    (hres : ∀ r ∈ s'.resources, r ∈ s.resources ∨ r.installationId = i.id)
    (hadopted : ∀ a ∈ s.adopted, a ∈ s'.adopted)
    (hnew : pending = some i.id ∨ (i.grantGeneration = 0 ∧ i.id ∈ s'.adopted)) :
    s'.Sound pending ∧ ∀ j ∈ s.ledger.installations, j ∈ s'.ledger.installations := by
  obtain ⟨hfresh, hmem⟩ := Table.insert?_eq_some hins
  rw [← ht] at hmem
  have hactive : ∀ id, s'.activeGrants id = s.activeGrants id := fun id => by rw [activeGrants, hgrants, activeGrants]
  have hnone : s'.activeGrants i.id = [] := by
    refine List.filter_eq_nil_iff.mpr (fun g hg hp => ?_)
    rw [Bool.and_eq_true, decide_eq_true_eq] at hp
    obtain ⟨j, hj, hid⟩ := hs.grantRow g (hgrants ▸ hg)
    exact hfresh j hj (hid.trans hp.1)
  have hrow : ∀ id, (∃ j ∈ s.ledger.installations, j.id = id) → ∃ j ∈ s'.ledger.installations, j.id = id := by
    rintro _ ⟨j, hj, rfl⟩
    exact ⟨j, (hmem j).mpr (.inr hj), rfl⟩
  refine ⟨⟨fun g hg => hrow _ (hs.grantRow g (hgrants ▸ hg)), ?_, ?_, ?_, ?_⟩, fun j hj => (hmem j).mpr (.inr hj)⟩
  · intro r hr
    rcases hres r hr with hr | hid
    · exact hrow _ (hs.resourceRow r hr)
    · exact ⟨i, (hmem i).mpr (.inl rfl), hid.symm⟩
  · intro j hj
    rcases (hmem j).mp hj with rfl | hj
    · rw [hnone, hgen]
      rfl
    · rw [hactive]
      exact hs.shown j hj
  · intro j hj hun
    rcases (hmem j).mp hj with rfl | hj
    · exact absurd hun hlive
    · obtain ⟨hno, hretained, hdesired⟩ := hs.uninstalled j hj hun
      refine ⟨(hactive j.id).trans hno, ?_, hdesired⟩
      intro r hr hrid
      rcases hres r hr with hr | hid
      · exact hretained r hr hrid
      · exact absurd (hrid.symm.trans hid) (hfresh j hj)
  · intro j hj hl hpending
    rcases (hmem j).mp hj with rfl | hj
    · rcases hnew with rfl | ⟨hzero, had⟩
      · exact absurd rfl hpending
      · exact .inr ⟨had, hzero, hnone⟩
    · rcases hs.granted j hj hl (by rintro ⟨⟩) with ⟨g, hg, hgg⟩ | ⟨had, hzero, hno⟩
      · exact .inl ⟨g, (hactive j.id).trans hg, hgg⟩
      · exact .inr ⟨hadopted _ had, hzero, (hactive j.id).trans hno⟩

end Control
end Akb.Rollout
