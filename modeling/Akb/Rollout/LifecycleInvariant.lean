import Akb.Rollout.UninstalledStays

/-! The lifecycle invariant in every state of a run, and the two ways in which it is lost. -/
namespace Akb.Rollout
open Akb.Library
variable {κ ω : Type} [LinearOrder κ] [DecidableEq ω]

namespace Control
variable {s s' : Control κ ω}

omit [DecidableEq ω] in
private theorem persistRequest_keeps {appId jobId : κ} {targetIds : List κ}
    (hg : s.Heeds (.persistRequest appId jobId targetIds)) (h : s.persistRequest appId jobId targetIds = some s') :
    s.Keeps s' := by
  rw [persistRequest] at h
  split at h
  case h_1 => cases h
  case h_2 q hq =>
    obtain ⟨-, h⟩ := Option.ite_none_right_eq_some.mp h
    obtain ⟨u, hu, rfl⟩ := Option.map_eq_some_iff.mp h
    have hkeeps : s.Keeps u := by
      refine persistRolloutJob_keeps hu ?_
      intro t ht i hi hid
      exact hg q hq i hi (hid ▸ (List.of_mem_zip ht).2)
    exact ⟨hkeeps.installations, hkeeps.grants, hkeeps.adopted, hkeeps.resources⟩

omit [DecidableEq ω] in
private theorem resumeRollout_keeps {appId sourceId releaseId key jobId : κ} {targetIds : List κ}
    (h : s.resumeRollout appId sourceId releaseId key jobId targetIds = some s') : s.Keeps s' := by
  obtain ⟨-, h⟩ := Option.ite_none_left_eq_some.mp h
  obtain ⟨ledger, hledger, h⟩ := Option.bind_eq_some_iff.mp h
  obtain ⟨-, hs'⟩ := Option.ite_none_right_eq_some.mp h
  cases hs'
  exact .of_ledger (Ledger.resumeRollout_kept hledger)

private theorem processTarget_keeps {w : ω} {execution : Execution} {tables : List String}
    (hg : s.Heeds (.processTarget w execution tables)) (h : s.processTarget w execution tables = some s') :
    s.Keeps s' := by
  rw [processTarget] at h
  split at h
  case h_2 => cases h
  case h_1 t ht =>
    obtain ⟨ledger, hledger, rfl⟩ := Option.map_eq_some_iff.mp h
    obtain ⟨t', ht', rfl, -⟩ := Ledger.processTarget_spec hledger
    obtain rfl : t = t' := Worker.working.inj (ht.symm.trans ht')
    refine ⟨Ledger.processed_kept (hg t ht), rfl, rfl, ?_⟩
    intro r hr
    change r ∈ s.createTables t tables at hr
    rw [createTables] at hr
    split at hr
    case h_1 => exact .inl hr
    case h_2 hpre =>
      rcases List.mem_append.mp hr with hr | hr
      · exact .inl hr
      · obtain ⟨key, -, rfl⟩ := List.mem_map.mp hr
        exact .inr (Ledger.preflight_row hpre)

/-- What a step does to the installations: it keeps them all, or it is a command, an uninstallation,
an adoption or a first grant. -/
private theorem step_sound (hs : s.Sound none) {a : ControlAction κ ω} (hg : s.Heeds a) (h : s.step a s') :
    s'.Sound none ∧ ∀ i ∈ s.ledger.installations, i.lifecycle = .uninstalled →
      (∃ i' ∈ s'.ledger.installations, i'.id = i.id ∧ i'.lifecycle = .uninstalled) ∨
      ∃ c d, a = .command c d ∧ (c.mode = .restore ∨ c.mode = .fresh) ∧ s.loadInstallation c.appId c.vaultId = some i := by
  have hkept : s.Keeps s' → s'.Sound none ∧ ∀ i ∈ s.ledger.installations, i.lifecycle = .uninstalled →
      (∃ i' ∈ s'.ledger.installations, i'.id = i.id ∧ i'.lifecycle = .uninstalled) ∨
      ∃ c d, a = .command c d ∧ (c.mode = .restore ∨ c.mode = .fresh) ∧
        s.loadInstallation c.appId c.vaultId = some i := by
    intro hk
    refine ⟨hk.sound hs, fun i hi hun => .inl ?_⟩
    obtain ⟨i', hi', hkept⟩ := hk.installations.old i hi
    exact ⟨i', hi', hkept.id, hkept.uninstalled_iff.mpr hun⟩
  have hledger : ∀ {l : Option (Ledger κ ω)}, s.onLedger l = some s' →
      (∀ ledger, l = some ledger → ledger.installations = s.ledger.installations) → s.Keeps s' := by
    intro l hl hsame
    obtain ⟨ledger, rfl, rfl⟩ := Option.map_eq_some_iff.mp hl
    exact .of_ledger (hsame ledger rfl ▸ .refl _)
  cases a with
  | command c d =>
    obtain ⟨hsound, hcases⟩ := commandInstallation_sound hs h
    refine ⟨hsound, fun i hi hun => ?_⟩
    have hinl : (∃ i' ∈ s'.ledger.installations, i.Kept i') →
        ∃ i' ∈ s'.ledger.installations, i'.id = i.id ∧ i'.lifecycle = .uninstalled := by
      rintro ⟨i', hi', hkept⟩
      exact ⟨i', hi', hkept.id, hkept.uninstalled_iff.mpr hun⟩
    rcases hcases with hall | ⟨i₀, hi₀, hmode, hapart⟩
    · exact .inl (hinl (hall i hi))
    · by_cases hid : i.id = i₀.id
      · have heq : i = i₀ := Table.eq_of_key hi (loadInstallation_mem hi₀) hid
        exact .inr ⟨c, d, rfl, hmode, heq ▸ hi₀⟩
      · exact .inl (hinl (hapart i hi hid))
  | uninstall appId vaultId =>
    obtain ⟨hsound, hstay⟩ := uninstall_sound hs h
    exact ⟨hsound, fun i hi hun => .inl (hstay i hi hun)⟩
  | adopt id release vaultId tables fingerprint =>
    obtain ⟨hsound, hstay⟩ := adopt_sound hs h
    exact ⟨hsound, fun i hi hun => .inl ⟨i, hstay i hi, rfl, hun⟩⟩
  | approve appId vaultId release capabilities =>
    obtain ⟨hsound, hstay⟩ := approve_sound hs h
    refine ⟨hsound, fun i hi hun => .inl ?_⟩
    obtain ⟨i', hi', hkept⟩ := hstay i hi hun
    exact ⟨i', hi', hkept.id, hkept.uninstalled_iff.mpr hun⟩
  | readRollout appId releaseId key =>
    refine hkept ?_
    change s.readRollout appId releaseId key = some s' at h
    rw [readRollout] at h
    split at h
    case h_1 => cases h
    case h_2 =>
      obtain ⟨-, h⟩ := Option.ite_none_left_eq_some.mp h
      obtain ⟨-, hs'⟩ := Option.ite_none_right_eq_some.mp h
      cases hs'
      exact .of_ledger (.refl _)
  | persistRequest appId jobId targetIds => exact hkept (persistRequest_keeps hg h)
  | giveUpRequest appId =>
    cases h
    exact hkept (.of_ledger (.refl _))
  | resumeRollout appId sourceId releaseId key jobId targetIds => exact hkept (resumeRollout_keeps h)
  | reclaim w =>
    refine hkept (hledger h fun ledger hl => ?_)
    obtain ⟨_, _, _, rfl⟩ := Ledger.reclaim_spec hl
    rfl
  | takeSnapshot w =>
    refine hkept (hledger h fun ledger hl => ?_)
    obtain ⟨_, _, _, rfl⟩ := Ledger.takeSnapshot_spec hl
    rfl
  | claimTarget w skipped =>
    refine hkept (hledger h fun ledger hl => ?_)
    obtain ⟨_, _, _, _, _, _, rfl⟩ := Ledger.claimTarget_spec hl
    rfl
  | commitClaim w =>
    refine hkept (hledger h fun ledger hl => ?_)
    obtain ⟨_, _, _, _, _, _, hsame, _⟩ := Ledger.commitClaim_spec hl
    exact hsame
  | processTarget w execution tables => exact hkept (processTarget_keeps hg h)
  | stop w =>
    refine hkept (hledger h fun ledger hl => ?_)
    cases hl
    rfl
  | observe id o =>
    cases h
    exact hkept (keeps_setInstallation _ (fun _ => ⟨rfl, rfl, rfl, .inl ⟨rfl, rfl⟩⟩))
  | elapse seconds =>
    refine hkept (hledger h fun ledger hl => ?_)
    cases hl
    rfl

omit [DecidableEq ω] in
private theorem sound_empty (now : Int) (releases : List (Release κ)) :
    (Control.empty now releases : Control κ ω).Sound none :=
  ⟨fun _ hg => absurd hg List.not_mem_nil, fun _ hr => absurd hr List.not_mem_nil,
    fun i hi => absurd hi (Table.not_mem_empty i), fun i hi => absurd hi (Table.not_mem_empty i),
    fun i hi => absurd hi (Table.not_mem_empty i)⟩

/-- In every run whose workers and requests heed what has been uninstalled, an uninstalled installation
has no active grant, only retained resources and no desired release; one that is installing, active or
upgrading has one active grant, of its own generation, or is adopted and not granted yet. The next step
leaves it uninstalled unless it is a restore or a fresh installation. -/
theorem lifecycle_invariant {now : Int} {releases : List (Release κ)} {actions : List (ControlAction κ ω)}
    (h : Run (Guarded Control.step Heeds) (Control.empty now releases) actions s) :
    (∀ i ∈ s.ledger.installations,
      (i.lifecycle = .uninstalled → s.activeGrants i.id = [] ∧
        (∀ r ∈ s.resources, r.installationId = i.id → r.status = .retained) ∧ i.desiredReleaseId = none) ∧
      (i.lifecycle = .installing ∨ i.lifecycle = .active ∨ i.lifecycle = .upgrading →
        (∃ g, s.activeGrants i.id = [g] ∧ g.generation = i.grantGeneration) ∨
          (i.id ∈ s.adopted ∧ i.grantGeneration = 0 ∧ s.activeGrants i.id = []))) ∧
    ∀ a s', Guarded Control.step Heeds s a s' → ∀ i ∈ s.ledger.installations, i.lifecycle = .uninstalled →
      (∃ i' ∈ s'.ledger.installations, i'.id = i.id ∧ i'.lifecycle = .uninstalled) ∨
      ∃ c d, a = .command c d ∧ (c.mode = .restore ∨ c.mode = .fresh) ∧
        s.loadInstallation c.appId c.vaultId = some i := by
  have hs : s.Sound none := Run.invariant (I := fun u => u.Sound none)
    (fun _ _ _ hi ha => (step_sound hi ha.2 ha.1).1) h (sound_empty now releases)
  refine ⟨fun i hi => ⟨hs.uninstalled i hi, fun hl => ?_⟩, fun a s' ha => (step_sound hs ha.2 ha.1).2⟩
  refine hs.granted i hi (fun hun => ?_) (by rintro ⟨⟩)
  rw [hun] at hl
  rcases hl with hl | hl | hl <;> cases hl

end Control

def sampleReleases : List (Release Nat) := [⟨7, 0, some "f"⟩, ⟨8, 0, some "g"⟩]

/-- The app is installed in a vault; a worker claims the one target of the job. -/
def installed : List (ControlAction Nat Nat) :=
  [.command ⟨0, 3, 7, ["rollout:request"], .install⟩ ⟨1, 40, 5, 11⟩, .reclaim 1, .takeSnapshot 1, .claimTarget 1 [],
    .commitClaim 1]

/-- It is uninstalled before the worker comes to its target. -/
def uninstalledWhilePending : List (ControlAction Nat Nat) := installed ++ [.uninstall 0 3]

/-- It has converged, and is uninstalled while a request for the next release is under way. -/
def uninstalledWhileRequested : List (ControlAction Nat Nat) :=
  installed ++ [.processTarget 1 (.converged "f") ["notes"], .readRollout 0 8 41, .uninstall 0 3]

/-- The worker blocks the uninstalled installation; the request sets it upgrading without a grant. -/
theorem uninstalled_is_overwritten :
    (∃ s s' : Control Nat Nat, Run Control.step (.empty 0 sampleReleases) uninstalledWhilePending s ∧
      s.step (.processTarget 1 (.converged "f") []) s' ∧
      (∃ i ∈ s.ledger.installations, i.id = 1 ∧ i.lifecycle = .uninstalled) ∧
      ∃ i ∈ s'.ledger.installations, i.id = 1 ∧ i.lifecycle = .blocked) ∧
    ∃ s s' : Control Nat Nat, Run Control.step (.empty 0 sampleReleases) uninstalledWhileRequested s ∧
      s.step (.persistRequest 0 6 [12]) s' ∧
      (∃ i ∈ s.ledger.installations, i.id = 1 ∧ i.lifecycle = .uninstalled) ∧
      ∃ i ∈ s'.ledger.installations, i.id = 1 ∧ i.lifecycle = .upgrading ∧ s'.activeGrants i.id = [] := by
  constructor
  · obtain ⟨s, hs, s', hs', hrows⟩ : ∃ s : Control Nat Nat,
        execute Control.next (.empty 0 sampleReleases) uninstalledWhilePending = some s ∧
        ∃ s', s.next (.processTarget 1 (.converged "f") []) = some s' ∧
        (∃ i ∈ s.ledger.installations.rows, i.id = 1 ∧ i.lifecycle = .uninstalled) ∧
        ∃ i ∈ s'.ledger.installations.rows, i.id = 1 ∧ i.lifecycle = .blocked := ⟨_, rfl, _, rfl, by decide⟩
    exact ⟨s, s', run_of_execute hs, hs', hrows⟩
  · obtain ⟨s, hs, s', hs', hrows⟩ : ∃ s : Control Nat Nat,
        execute Control.next (.empty 0 sampleReleases) uninstalledWhileRequested = some s ∧
        ∃ s', s.next (.persistRequest 0 6 [12]) = some s' ∧
        (∃ i ∈ s.ledger.installations.rows, i.id = 1 ∧ i.lifecycle = .uninstalled) ∧
        ∃ i ∈ s'.ledger.installations.rows, i.id = 1 ∧ i.lifecycle = .upgrading ∧ s'.activeGrants i.id = [] :=
      ⟨_, rfl, _, rfl, by decide⟩
    exact ⟨s, s', run_of_execute hs, hs', hrows⟩

/-- Installed, converged, uninstalled and restored. -/
theorem restored_granted :
    ∃ s : Control Nat Nat, Run (Guarded Control.step Control.Heeds) (.empty 0 sampleReleases)
        (installed ++ [.processTarget 1 (.converged "f") ["notes"], .uninstall 0 3,
          .command ⟨0, 3, 7, ["rollout:request"], .restore⟩ ⟨2, 42, 6, 12⟩]) s ∧
      ∃ i ∈ s.ledger.installations, i.lifecycle = .active ∧
        ((∃ g, s.activeGrants i.id = [g] ∧ g.generation = i.grantGeneration) ∨
          (i.id ∈ s.adopted ∧ i.grantGeneration = 0 ∧ s.activeGrants i.id = [])) := by
  obtain ⟨s, hs, i, hi, hactive⟩ : ∃ s : Control Nat Nat,
      Run (Guarded Control.step Control.Heeds) (.empty 0 sampleReleases)
        (installed ++ [.processTarget 1 (.converged "f") ["notes"], .uninstall 0 3,
          .command ⟨0, 3, 7, ["rollout:request"], .restore⟩ ⟨2, 42, 6, 12⟩]) s ∧
      ∃ i ∈ s.ledger.installations.rows, i.lifecycle = .active := by
    refine ⟨_, .cons ⟨rfl, trivial⟩ (.cons ⟨rfl, trivial⟩ (.cons ⟨rfl, trivial⟩ (.cons ⟨rfl, trivial⟩
      (.cons ⟨rfl, trivial⟩ (.cons ⟨rfl, ?_⟩ (.cons ⟨rfl, trivial⟩ (.cons ⟨rfl, trivial⟩ (.nil _)))))))), by decide⟩
    rintro t ht hblocks
    cases ht
    exact absurd hblocks (by decide)
  exact ⟨s, hs, i, hi, hactive, ((Control.lifecycle_invariant hs).1 i hi).2 (.inr (.inl hactive))⟩

end Akb.Rollout
