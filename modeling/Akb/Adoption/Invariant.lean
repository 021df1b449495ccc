import Akb.Adoption.Apply

/-! What holds of the registry, of open transactions and of waiting handlers in every state. -/
namespace Akb.Adoption
open Akb.Library

variable {κ σ : Type} [DecidableEq κ] {w : World κ σ} {s : State κ σ} {reg : Registry κ σ}

/-- Installations and resources belong to live vaults and to each other, as the foreign keys say. -/
structure Registry.Consistent (reg : Registry κ σ) : Prop where
  installations : ∀ i inst, reg.installation i = some inst → reg.vault inst.vaultId = .live
  resources : ∀ v name r, reg.resource v name = some r →
    ∃ inst, reg.installation r.installationId = some inst ∧ inst.vaultId = v

/-- What the preflight of a transaction has established when it finds nothing against the target. -/
structure Passed (w : World κ σ) (txn : Txn κ σ) (found : List (String × σ)) (pf : Preflight κ) : Prop where
  names : found.map Prod.fst = txn.row.allowlist.names
  included : pf.included = found.map Prod.fst
  fingerprint : w.fingerprint found = some pf.actual
  expected : ∃ release, w.release txn.plan.appId txn.plan.baselineReleaseId = some release ∧
    release.expected = some pf.actual

/-- What a transaction knows from its reads alone. -/
def Txn.Sound (w : World κ σ) (txn : Txn κ σ) : Prop :=
  match txn.stage with
  | .locked => True
  | .asking found actual _ _ =>
    (found.map Prod.fst).Sublist txn.row.allowlist.names ∧ w.fingerprint found = some actual
  | .checked found pf => pf.reason = none → Passed w txn found pf
  | .inserting found pf _ done rest => Passed w txn found pf ∧ done ++ rest = pf.included

/-- Nothing committed is in the way of the rows that a transaction has inserted. -/
structure Unclaimed (reg : Registry κ σ) (txn : Txn κ σ) (i : κ) (done : List String) : Prop where
  fresh : reg.installation i = none
  sole : ∀ j, ¬ reg.Installed txn.plan.appId txn.row.vaultId j
  unowned : ∀ name ∈ done, reg.resource txn.row.vaultId name = none

/-- What the locks of a transaction hold. -/
structure Held (s : State κ σ) (p : κ) (txn : Txn κ σ) : Prop where
  target : s.TargetAt p txn.index txn.plan txn.row
  undone : txn.row.done = false
  live : s.registry.vault txn.row.vaultId = .live
  tables : ∀ t ∈ txn.stage.found, s.registry.table txn.row.vaultId t.1 = some t.2
  inserted : ∀ i done, txn.Inserted i done → Unclaimed s.registry txn i done

/-- The uncommitted rows of two transactions have different keys. -/
def Apart (s : State κ σ) : Prop :=
  ∀ p q txn txn' i j done done', p ≠ q → s.opened p = some txn → s.opened q = some txn' → txn.Inserted i done →
    txn'.Inserted j done' → i ≠ j ∧ ¬ (txn.plan.appId = txn'.plan.appId ∧ txn.row.vaultId = txn'.row.vaultId) ∧
      (txn.row.vaultId = txn'.row.vaultId → ∀ name ∈ done, name ∉ done')

/-- The target cannot be applied any more, as long as its vault lives. -/
def Registry.Obstructs (reg : Registry κ σ) (plan : Plan κ) (t : Target κ) : Prop :=
  reg.vault t.vaultId = .deleted ∨ (∃ i, reg.Installed plan.appId t.vaultId i) ∨
    ∃ name ∈ t.allowlist.names, reg.resource t.vaultId name ≠ none

/-- The audit rows that say that a target was applied. -/
def State.appliedRows (s : State κ σ) (p : κ) (k : Nat) : List (AuditRow κ) :=
  s.audit.filter (fun r => r.planId = p ∧ r.target = some k ∧ r.action = .targetApplied)

/-- One such row for an applied target, with its installation, and none for another. -/
def Recorded (rows : List (AuditRow κ)) (t : Target κ) : Prop :=
  if t.done then ∃ r i, rows = [r] ∧ r.installationId = some i ∧ t.installationId = some i else rows = []

structure Invariant (w : World κ σ) (s : State κ σ) : Prop where
  consistent : s.registry.Consistent
  sound : ∀ p txn, s.opened p = some txn → txn.Sound w
  held : ∀ p txn, s.opened p = some txn → Held s p txn
  apart : Apart s
  /-- A handler waits for a target that something is in the way of. -/
  pending : ∀ p k, (p, k) ∈ s.handlers → ∃ plan t, s.TargetAt p k plan t ∧ t.done = false ∧ s.registry.Obstructs plan t
  status : ∀ p plan, s.plan p = some plan → plan.targets ≠ [] ∧ plan.status = refreshStatus plan.targets
  recorded : ∀ p k plan t, s.TargetAt p k plan t → Recorded (s.appliedRows p k) t
  unplanned : ∀ p k, s.plan p = none → s.appliedRows p k = []

theorem Initial.invariant (h : Initial s) : Invariant w s where
  consistent := ⟨h.installations, h.resources⟩
  sound p txn htxn := by simp [h.opened] at htxn
  held p txn htxn := by simp [h.opened] at htxn
  apart p q txn txn' i j done done' hne htxn := by simp [h.opened] at htxn
  pending p k hmem := by simp [h.handlers] at hmem
  status p plan hplan := by simp [h.plans] at hplan
  recorded p k plan t ht := by simp [State.TargetAt, h.plans] at ht
  unplanned p k _ := by simp [State.appliedRows, h.audit]

/-! ### What another service cannot undo -/

theorem Change.consistent {reg : Registry κ σ} (h : Change s reg) (hc : s.registry.Consistent) : reg.Consistent := by
  cases h with
  | @createVault v hv =>
    refine ⟨fun i inst hi => ?_, hc.resources⟩
    rw [setVault_apply]
    split
    · rfl
    · exact hc.installations i inst hi
  | @deleteVault v hv hopen =>
    constructor
    · intro i inst hi
      obtain ⟨hinst, hne⟩ := Option.filter_eq_some_iff.mp hi
      have hne' : inst.vaultId ≠ v := by simpa using hne
      simpa [Registry.deleteVault, Function.update_of_ne hne'] using hc.installations i inst hinst
    · intro u name r hr
      by_cases heq : u = v
      · subst heq
        simp [Registry.deleteVault] at hr
      · obtain ⟨inst, hinst, rfl⟩ := hc.resources u name r (by simpa [Registry.deleteVault, Function.update_of_ne heq] using hr)
        exact ⟨inst, Option.filter_eq_some_iff.mpr ⟨hinst, by simpa using heq⟩, rfl⟩
  | setTable _ _ => exact ⟨hc.installations, hc.resources⟩
  | @install i inst hlive hfresh hsole hopen =>
    constructor
    · intro j row hj
      rw [setInstallation_apply] at hj
      split at hj
      · cases hj
        exact hlive
      · exact hc.installations j row hj
    · intro v name r hr
      obtain ⟨row, hrow, hv⟩ := hc.resources v name r hr
      refine ⟨row, ?_, hv⟩
      rw [setInstallation_apply, if_neg fun heq => ?_]
      · exact hrow
      · rw [heq, hfresh] at hrow
        cases hrow
  | @updateInstallation i old new hold happ hvault =>
    constructor
    · intro j row hj
      rw [setInstallation_apply] at hj
      split at hj
      · cases hj
        have hlive := hc.installations i old hold
        rwa [← hvault] at hlive
      · exact hc.installations j row hj
    · intro v name r hr
      obtain ⟨row, hrow, hv⟩ := hc.resources v name r hr
      by_cases heq : r.installationId = i
      · rw [heq, hold] at hrow
        cases hrow
        exact ⟨new, by rw [setInstallation_apply, if_pos heq], hvault.trans hv⟩
      · exact ⟨row, by rw [setInstallation_apply, if_neg heq, hrow], hv⟩
  | @own v name r inst hinst hv hfree hopen =>
    refine ⟨hc.installations, fun u n r' hr' => ?_⟩
    rw [setResource_apply] at hr'
    split at hr'
    · rename_i heq
      cases hr'
      exact ⟨inst, hinst, hv.trans heq.1.symm⟩
    · exact hc.resources u n r' hr'
  | @setStatus v name r status hr =>
    refine ⟨hc.installations, fun u n r' hr' => ?_⟩
    rw [setResource_apply] at hr'
    split at hr'
    · rename_i heq
      cases hr'
      exact hc.resources u n r (by rw [heq.1, heq.2, hr])
    · exact hc.resources u n r' hr'
  | observe _ => exact ⟨hc.installations, hc.resources⟩

theorem Change.live {reg : Registry κ σ} (h : Change s reg) {p : κ} {txn : Txn κ σ} (hopen : s.opened p = some txn)
    (hlive : s.registry.vault txn.row.vaultId = .live) : reg.vault txn.row.vaultId = .live := by
  cases h with
  | createVault _ =>
    rw [setVault_apply]
    split
    · rfl
    · exact hlive
  | deleteVault _ hother => simpa [Registry.deleteVault, Function.update_of_ne (hother p txn hopen)] using hlive
  | setTable _ _ => exact hlive
  | install _ _ _ _ => exact hlive
  | updateInstallation _ _ _ => exact hlive
  | own _ _ _ _ => exact hlive
  | setStatus _ => exact hlive
  | observe _ => exact hlive

theorem Change.deleted {reg : Registry κ σ} (h : Change s reg) {v : κ} (hv : s.registry.vault v = .deleted) :
    reg.vault v = .deleted := by
  cases h with
  | createVault hunused =>
    rw [setVault_apply, if_neg fun heq => ?_]
    · exact hv
    · rw [heq, hunused] at hv
      cases hv
  | @deleteVault u _ _ =>
    by_cases heq : v = u
    · simp [Registry.deleteVault, heq]
    · simpa [Registry.deleteVault, Function.update_of_ne heq] using hv
  | setTable _ _ => exact hv
  | install _ _ _ _ => exact hv
  | updateInstallation _ _ _ => exact hv
  | own _ _ _ _ => exact hv
  | setStatus _ => exact hv
  | observe _ => exact hv

/-- Rows locked by an open transaction stay as they are. -/
theorem Change.tables {reg : Registry κ σ} (h : Change s reg) {p : κ} {txn : Txn κ σ} (hopen : s.opened p = some txn)
    {t : String × σ} (hmem : t ∈ txn.stage.found) (ht : s.registry.table txn.row.vaultId t.1 = some t.2) :
    reg.table txn.row.vaultId t.1 = some t.2 := by
  cases h with
  | createVault _ => exact ht
  | deleteVault _ hother => simpa [Registry.deleteVault, Function.update_of_ne (hother p txn hopen)] using ht
  | setTable _ hlocked =>
    rw [setTable_apply, if_neg fun heq => hlocked p txn hopen heq.1 t hmem heq.2]
    exact ht
  | install _ _ _ _ => exact ht
  | updateInstallation _ _ _ => exact ht
  | own _ _ _ _ => exact ht
  | setStatus _ => exact ht
  | observe _ => exact ht

/-- An installation goes with its vault only. -/
theorem Change.installed {reg : Registry κ σ} (h : Change s reg) {appId v i : κ} (hi : s.registry.Installed appId v i) :
    reg.vault v = .deleted ∨ reg.Installed appId v i := by
  obtain ⟨inst, hinst, happ, hv⟩ := hi
  cases h with
  | createVault _ => exact Or.inr ⟨inst, hinst, happ, hv⟩
  | @deleteVault u _ _ =>
    by_cases heq : v = u
    · left
      simp [Registry.deleteVault, heq]
    · have hne : inst.vaultId ≠ u := hv ▸ heq
      exact Or.inr ⟨inst, Option.filter_eq_some_iff.mpr ⟨hinst, by simpa using hne⟩, happ, hv⟩
  | setTable _ _ => exact Or.inr ⟨inst, hinst, happ, hv⟩
  | @install j row _ hfresh _ _ =>
    refine Or.inr ⟨inst, ?_, happ, hv⟩
    rw [setInstallation_apply, if_neg fun heq => ?_]
    · exact hinst
    · rw [heq, hfresh] at hinst
      cases hinst
  | @updateInstallation j old new hold happ' hvault =>
    right
    by_cases heq : i = j
    · rw [heq, hold] at hinst
      cases hinst
      exact ⟨new, by rw [setInstallation_apply, if_pos heq], happ'.trans happ, hvault.trans hv⟩
    · exact ⟨inst, by rw [setInstallation_apply, if_neg heq, hinst], happ, hv⟩
  | own _ _ _ _ => exact Or.inr ⟨inst, hinst, happ, hv⟩
  | setStatus _ => exact Or.inr ⟨inst, hinst, happ, hv⟩
  | observe _ => exact Or.inr ⟨inst, hinst, happ, hv⟩

/-- A table that is owned stays so, unless its vault goes. -/
theorem Change.resource {reg : Registry κ σ} (h : Change s reg) {v : κ} {name : String}
    (hr : s.registry.resource v name ≠ none) : reg.vault v = .deleted ∨ reg.resource v name ≠ none := by
  cases h with
  | createVault _ => exact Or.inr hr
  | @deleteVault u _ _ =>
    by_cases heq : v = u
    · left
      simp [Registry.deleteVault, heq]
    · right
      simpa [Registry.deleteVault, Function.update_of_ne heq] using hr
  | setTable _ _ => exact Or.inr hr
  | install _ _ _ _ => exact Or.inr hr
  | updateInstallation _ _ _ => exact Or.inr hr
  | own _ _ _ _ =>
    right
    rw [setResource_apply]
    split
    · simp
    · exact hr
  | setStatus _ =>
    right
    rw [setResource_apply]
    split
    · simp
    · exact hr
  | observe _ => exact Or.inr hr

/-- What an open transaction has inserted stays unclaimed. -/
theorem Change.unclaimed {reg : Registry κ σ} (h : Change s reg) {p i : κ} {txn : Txn κ σ} {done : List String}
    (hopen : s.opened p = some txn) (hins : txn.Inserted i done) (hu : Unclaimed s.registry txn i done) :
    Unclaimed reg txn i done := by
  cases h with
  | createVault _ => exact ⟨hu.fresh, hu.sole, hu.unowned⟩
  | @deleteVault u _ hother =>
    refine ⟨?_, fun j hj => ?_, fun name hname => ?_⟩
    · simp [Registry.deleteVault, hu.fresh]
    · obtain ⟨inst, hinst, happ, hv⟩ := hj
      exact hu.sole j ⟨inst, (Option.filter_eq_some_iff.mp hinst).1, happ, hv⟩
    · simpa [Registry.deleteVault, Function.update_of_ne (hother p txn hopen)] using hu.unowned name hname
  | setTable _ _ => exact ⟨hu.fresh, hu.sole, hu.unowned⟩
  | @install j inst _ _ _ hother =>
    obtain ⟨hne, happ⟩ := hother p txn i done hopen hins
    refine ⟨?_, fun j' hj' => ?_, hu.unowned⟩
    · rw [setInstallation_apply, if_neg hne, hu.fresh]
    · obtain ⟨row, hrow, happ', hv'⟩ := hj'
      rw [setInstallation_apply] at hrow
      split at hrow
      · cases hrow
        exact happ ⟨happ'.symm, hv'.symm⟩
      · exact hu.sole j' ⟨row, hrow, happ', hv'⟩
  | @updateInstallation j old new hold happ hvault =>
    refine ⟨?_, fun j' hj' => ?_, hu.unowned⟩
    · rw [setInstallation_apply, if_neg fun heq => ?_]
      · exact hu.fresh
      · rw [← heq, hu.fresh] at hold
        cases hold
    · obtain ⟨row, hrow, happ', hv'⟩ := hj'
      rw [setInstallation_apply] at hrow
      split at hrow
      · cases hrow
        exact hu.sole j ⟨old, hold, happ.symm.trans happ', hvault.symm.trans hv'⟩
      · exact hu.sole j' ⟨row, hrow, happ', hv'⟩
  | own _ _ _ hother =>
    refine ⟨hu.fresh, hu.sole, fun n hn => ?_⟩
    rw [setResource_apply, if_neg fun heq => ?_]
    · exact hu.unowned n hn
    · exact hother p txn i done hopen hins heq.1 (heq.2 ▸ hn)
  | setStatus hr =>
    refine ⟨hu.fresh, hu.sole, fun n hn => ?_⟩
    rw [setResource_apply, if_neg fun heq => ?_]
    · exact hu.unowned n hn
    · rw [← heq.1, ← heq.2, hu.unowned n hn] at hr
      cases hr
  | observe _ => exact ⟨hu.fresh, hu.sole, hu.unowned⟩

theorem Change.obstructs {reg : Registry κ σ} (h : Change s reg) {plan : Plan κ} {t : Target κ}
    (ho : s.registry.Obstructs plan t) : reg.Obstructs plan t := by
  rcases ho with hv | ⟨i, hi⟩ | ⟨name, hname, hr⟩
  · exact Or.inl (h.deleted hv)
  · exact (h.installed hi).imp id fun hi' => Or.inl ⟨i, hi'⟩
  · exact (h.resource hr).imp id fun hr' => Or.inr ⟨name, hname, hr'⟩

end Akb.Adoption
