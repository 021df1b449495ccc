import Akb.Adoption.Ledger

/-! The transactions of `_apply_target`, statement by statement, between the steps of the services
that share the registry. Each statement sees what is committed. The advisory locks are left out:
what is proved holds without them. -/
namespace Akb.Adoption
open Akb.Library

variable {κ σ : Type}

/-- How far the main transaction has come behind its locks: the tables found are locked too; their
owners are asked for one by one; the preflight is complete; the rows of the new installation and
of the tables `done` are inserted, and seen by nobody else. -/
inductive Stage (κ σ : Type) where
  | locked
  | asking (found : List (String × σ)) (actual : String) (rest : List String) (owners : List (String × κ))
  | checked (found : List (String × σ)) (pf : Preflight κ)
  | inserting (found : List (String × σ)) (pf : Preflight κ) (i : κ) (done rest : List String)

/-- An open main transaction, with the rows it has read and locked. -/
structure Txn (κ σ : Type) where
  index : Nat
  plan : Plan κ
  row : Target κ
  stage : Stage κ σ

/-- The table rows locked `FOR SHARE`. -/
def Stage.found : Stage κ σ → List (String × σ)
  | .locked => []
  | .asking found _ _ _ => found
  | .checked found _ => found
  | .inserting found _ _ _ _ => found

/-- The transaction has inserted the installation `i`, and its rows of the tables `done`. -/
def Txn.Inserted (txn : Txn κ σ) (i : κ) (done : List String) : Prop :=
  ∃ found pf rest, txn.stage = .inserting found pf i done rest

/-- `opened` has the transaction that holds the lock of a plan, `handlers` the conflict handlers still
to run. -/
structure State (κ σ : Type) where
  registry : Registry κ σ
  plan : κ → Option (Plan κ)
  audit : List (AuditRow κ)
  opened : κ → Option (Txn κ σ)
  handlers : List (κ × Nat)

section
variable [DecidableEq κ]

/-! ### The other services -/

def Registry.setVault (reg : Registry κ σ) (v : κ) (row : VaultRow) : Registry κ σ :=
  { reg with vault := Function.update reg.vault v row }

def Registry.setTable (reg : Registry κ σ) (v : κ) (name : String) (schema : Option σ) : Registry κ σ :=
  { reg with table := Function.update reg.table v (Function.update (reg.table v) name schema) }

def Registry.setInstallation (reg : Registry κ σ) (i : κ) (inst : Installation κ) : Registry κ σ :=
  { reg with installation := Function.update reg.installation i (some inst) }

def Registry.setResource (reg : Registry κ σ) (v : κ) (name : String) (r : Resource κ) : Registry κ σ :=
  { reg with resource := Function.update reg.resource v (Function.update (reg.resource v) name (some r)) }

def Registry.observe (reg : Registry κ σ) (i : κ) (o : Rollout.Observed κ) : Registry κ σ :=
  { reg with observed := Function.update reg.observed i (some o) }

/-- A vault goes with its tables, installations and resources. -/
def Registry.deleteVault (reg : Registry κ σ) (v : κ) : Registry κ σ where
  vault := Function.update reg.vault v .deleted
  table := Function.update reg.table v (fun _ => none)
  installation i := (reg.installation i).filter (fun inst => inst.vaultId ≠ v)
  resource := Function.update reg.resource v (fun _ => none)
  observed i := if (reg.installation i).any (fun inst => inst.vaultId = v) then none else reg.observed i

theorem setVault_apply (reg : Registry κ σ) (v : κ) (row : VaultRow) (u : κ) :
    (reg.setVault v row).vault u = if u = v then row else reg.vault u := Function.update_apply _ _ _ _

theorem setTable_apply (reg : Registry κ σ) (v : κ) (name : String) (schema : Option σ) (u : κ) (n : String) :
    (reg.setTable v name schema).table u n = if u = v ∧ n = name then schema else reg.table u n := by
  by_cases hu : u = v
  · subst hu
    simp [Registry.setTable, Function.update_apply]
  · simp [Registry.setTable, hu]

theorem setInstallation_apply (reg : Registry κ σ) (i : κ) (inst : Installation κ) (j : κ) :
    (reg.setInstallation i inst).installation j = if j = i then some inst else reg.installation j :=
  Function.update_apply _ _ _ _

theorem setResource_apply (reg : Registry κ σ) (v : κ) (name : String) (r : Resource κ) (u : κ) (n : String) :
    (reg.setResource v name r).resource u n = if u = v ∧ n = name then some r else reg.resource u n := by
  by_cases hu : u = v
  · subst hu
    simp [Registry.setResource, Function.update_apply]
  · simp [Registry.setResource, hu]

/-- The installation of an app in a vault. -/
def Registry.Installed (reg : Registry κ σ) (appId vaultId i : κ) : Prop :=
  ∃ inst, reg.installation i = some inst ∧ inst.appId = appId ∧ inst.vaultId = vaultId

/-- A change that another service commits. An insert waits for an open transaction that has
inserted its key; rows locked by one are not changed; installations and resources keep their
identity, and go with their vault only. -/
inductive Change (s : State κ σ) : Registry κ σ → Prop where
  | createVault {v : κ} : s.registry.vault v = .unused → Change s (s.registry.setVault v .live)
  | deleteVault {v : κ} : s.registry.vault v = .live → (∀ p txn, s.opened p = some txn → txn.row.vaultId ≠ v) →
      Change s (s.registry.deleteVault v)
  | setTable {v : κ} {name : String} {schema : Option σ} : s.registry.vault v = .live →
      (∀ p txn, s.opened p = some txn → txn.row.vaultId = v → ∀ t ∈ txn.stage.found, t.1 ≠ name) →
      Change s (s.registry.setTable v name schema)
  | install {i : κ} {inst : Installation κ} : s.registry.vault inst.vaultId = .live → s.registry.installation i = none →
      (∀ j, ¬ s.registry.Installed inst.appId inst.vaultId j) →
      (∀ p txn j done, s.opened p = some txn → txn.Inserted j done →
        j ≠ i ∧ ¬ (txn.plan.appId = inst.appId ∧ txn.row.vaultId = inst.vaultId)) →
      Change s (s.registry.setInstallation i inst)
  | updateInstallation {i : κ} {old new : Installation κ} : s.registry.installation i = some old →
      new.appId = old.appId → new.vaultId = old.vaultId → Change s (s.registry.setInstallation i new)
  | own {v : κ} {name : String} {r : Resource κ} {inst : Installation κ} :
      s.registry.installation r.installationId = some inst → inst.vaultId = v → s.registry.resource v name = none →
      (∀ p txn j done, s.opened p = some txn → txn.Inserted j done → txn.row.vaultId = v → name ∉ done) →
      Change s (s.registry.setResource v name r)
  | setStatus {v : κ} {name : String} {r : Resource κ} {status : ResourceStatus} :
      s.registry.resource v name = some r → Change s (s.registry.setResource v name { r with status := status })
  | observe {i : κ} {inst : Installation κ} {o : Rollout.Observed κ} : s.registry.installation i = some inst →
      Change s (s.registry.observe i o)

/-! ### Commits -/

def State.setOpen (s : State κ σ) (p : κ) (txn : Option (Txn κ σ)) : State κ σ :=
  { s with opened := Function.update s.opened p txn }

/-- A target is written with its audit rows, and the plan unlocked. -/
def State.writeTarget (s : State κ σ) (p : κ) (plan : Plan κ) (k : Nat) (t : Target κ) (rows : List (AuditRow κ)) :
    State κ σ :=
  { s with
    plan := Function.update s.plan p (some (plan.setTarget k t))
    audit := s.audit ++ rows
    opened := Function.update s.opened p none }

/-- The installation that a target becomes. -/
def adoptedInstallation (plan : Plan κ) (t : Target κ) : Installation κ :=
  ⟨plan.appId, t.vaultId, some plan.baselineReleaseId, some plan.baselineReleaseId, .active, 0⟩

def adoptedResource (p : κ) (k : Nat) (i : κ) : Resource κ := ⟨i, .owned, some (p, k)⟩

/-- The registry with the rows that a target inserts. -/
def Registry.adopt (reg : Registry κ σ) (p : κ) (plan : Plan κ) (k : Nat) (t : Target κ) (pf : Preflight κ) (i : κ) :
    Registry κ σ where
  vault := reg.vault
  table := reg.table
  installation := Function.update reg.installation i (some (adoptedInstallation plan t))
  resource := Function.update reg.resource t.vaultId
    (fun name => if name ∈ pf.included then some (adoptedResource p k i) else reg.resource t.vaultId name)
  observed := Function.update reg.observed i (some ⟨0, some plan.baselineReleaseId, some pf.actual, some 0⟩)

/-- The state after a target has been adopted. -/
def State.adopted (s : State κ σ) (p : κ) (txn : Txn κ σ) (pf : Preflight κ) (i : κ) : State κ σ :=
  { s.writeTarget p txn.plan txn.index (txn.row.apply pf i) (applyRows p txn.plan txn.index txn.row pf i) with
    registry := s.registry.adopt p txn.plan txn.index txn.row pf i }

/-! ### Steps -/

/-- What happens: a replay, a step of the main transaction up to its commit, its unique violation, the
handler of one, the end of either without a commit, a new plan, or another service. -/
inductive Action (κ : Type) where
  | replay (p : κ) (k : Nat)
  | start (p : κ) (k : Nat)
  | read (p : κ)
  | insert (p : κ)
  | block (p : κ) (k : Nat)
  | apply (p : κ) (k : Nat)
  | clash (p : κ) (k : Nat)
  | refuse (p : κ) (k : Nat)
  | abort (p : κ)
  | drop (p : κ) (k : Nat)
  | create (p : κ)
  | other

/-- The target as the plan has it. -/
def State.TargetAt (s : State κ σ) (p : κ) (k : Nat) (plan : Plan κ) (t : Target κ) : Prop :=
  s.plan p = some plan ∧ plan.targets[k]? = some t

def Txn.to (txn : Txn κ σ) (stage : Stage κ σ) : Txn κ σ := { txn with stage := stage }

inductive Step (w : World κ σ) (s : State κ σ) : Action κ → State κ σ → Prop where
  | replay {p : κ} {k : Nat} {plan : Plan κ} {t : Target κ} : s.TargetAt p k plan t → s.opened p = none →
      s.registry.vault t.vaultId = .live → t.done = true →
      Step w s (.replay p k) (s.writeTarget p plan k t.replay
        [auditRow p plan k t t.installationId .targetReplayed .replay "replayed"])
  | start {p : κ} {k : Nat} {plan : Plan κ} {t : Target κ} : s.TargetAt p k plan t → s.opened p = none →
      s.registry.vault t.vaultId = .live → t.done = false →
      Step w s (.start p k) (s.setOpen p (some ⟨k, plan, t, .locked⟩))
  | readTables {p : κ} {txn : Txn κ σ} {release : Release} {actual : String} : s.opened p = some txn →
      txn.stage = .locked → w.release txn.plan.appId txn.plan.baselineReleaseId = some release →
      w.fingerprint (foundTables s.registry txn.row.vaultId txn.row.allowlist.names) = some actual →
      Step w s (.read p) (s.setOpen p (some (txn.to
        (.asking (foundTables s.registry txn.row.vaultId txn.row.allowlist.names) actual
          ((foundTables s.registry txn.row.vaultId txn.row.allowlist.names).map Prod.fst) []))))
  | readOwner {p : κ} {txn : Txn κ σ} {found : List (String × σ)} {actual name : String} {rest : List String}
      {owners : List (String × κ)} : s.opened p = some txn → txn.stage = .asking found actual (name :: rest) owners →
      Step w s (.read p) (s.setOpen p (some (txn.to (.asking found actual rest
        (owners ++ ((s.registry.resource txn.row.vaultId name).map (fun r => (name, r.installationId))).toList)))))
  | readInstallation {p : κ} {txn : Txn κ σ} {found : List (String × σ)} {actual : String}
      {owners : List (String × κ)} {installationId : Option κ} {release : Release} : s.opened p = some txn →
      txn.stage = .asking found actual [] owners →
      (∀ i ∈ installationId, s.registry.Installed txn.plan.appId txn.row.vaultId i) →
      (installationId = none → ∀ i, ¬ s.registry.Installed txn.plan.appId txn.row.vaultId i) →
      w.release txn.plan.appId txn.plan.baselineReleaseId = some release →
      Step w s (.read p) (s.setOpen p (some (txn.to (.checked found
        ((fetchPreflight txn.row.allowlist (found.map Prod.fst) actual owners installationId release.expected).sincePlanned
          txn.row)))))
  | block {p : κ} {txn : Txn κ σ} {found : List (String × σ)} {pf : Preflight κ} : s.opened p = some txn →
      txn.stage = .checked found pf → pf.reason ≠ none →
      Step w s (.block p txn.index) (s.writeTarget p txn.plan txn.index (txn.row.block pf)
        (blockRows p txn.plan txn.index txn.row pf))
  | insertInstallation {p i : κ} {txn : Txn κ σ} {found : List (String × σ)} {pf : Preflight κ} :
      s.opened p = some txn → txn.stage = .checked found pf → pf.reason = none → s.registry.installation i = none →
      (∀ j, ¬ s.registry.Installed txn.plan.appId txn.row.vaultId j) →
      (∀ q txn' j done, s.opened q = some txn' → txn'.Inserted j done →
        j ≠ i ∧ ¬ (txn'.plan.appId = txn.plan.appId ∧ txn'.row.vaultId = txn.row.vaultId)) →
      Step w s (.insert p) (s.setOpen p (some (txn.to (.inserting found pf i [] pf.included))))
  | insertResource {p i : κ} {txn : Txn κ σ} {found : List (String × σ)} {pf : Preflight κ} {name : String}
      {done rest : List String} : s.opened p = some txn → txn.stage = .inserting found pf i done (name :: rest) →
      s.registry.resource txn.row.vaultId name = none →
      (∀ q txn' j done', q ≠ p → s.opened q = some txn' → txn'.Inserted j done' →
        txn'.row.vaultId = txn.row.vaultId → name ∉ done') →
      Step w s (.insert p) (s.setOpen p (some (txn.to (.inserting found pf i (done ++ [name]) rest))))
  | apply {p i : κ} {txn : Txn κ σ} {found : List (String × σ)} {pf : Preflight κ} {done : List String} :
      s.opened p = some txn → txn.stage = .inserting found pf i done [] →
      Step w s (.apply p txn.index) (s.adopted p txn pf i)
  | clashInstallation {p i : κ} {txn : Txn κ σ} {found : List (String × σ)} {pf : Preflight κ} :
      s.opened p = some txn → txn.stage = .checked found pf → pf.reason = none →
      s.registry.Installed txn.plan.appId txn.row.vaultId i →
      Step w s (.clash p txn.index) { s.setOpen p none with handlers := (p, txn.index) :: s.handlers }
  | clashResource {p i : κ} {txn : Txn κ σ} {found : List (String × σ)} {pf : Preflight κ} {name : String}
      {done rest : List String} {r : Resource κ} : s.opened p = some txn →
      txn.stage = .inserting found pf i done (name :: rest) → s.registry.resource txn.row.vaultId name = some r →
      Step w s (.clash p txn.index) { s.setOpen p none with handlers := (p, txn.index) :: s.handlers }
  | refuse {p : κ} {k : Nat} {plan : Plan κ} {t : Target κ} : (p, k) ∈ s.handlers → s.TargetAt p k plan t →
      s.opened p = none → s.registry.vault t.vaultId = .live →
      Step w s (.refuse p k)
        { s.writeTarget p plan k t.refuse
            [auditRow p plan k t none .targetBlocked .error Reason.ownershipConflict.code] with
          handlers := s.handlers.erase (p, k) }
  | abort {p : κ} {txn : Txn κ σ} : s.opened p = some txn → Step w s (.abort p) (s.setOpen p none)
  | drop {p : κ} {k : Nat} : (p, k) ∈ s.handlers →
      Step w s (.drop p k) { s with handlers := s.handlers.erase (p, k) }
  | create {p appId releaseId : κ} {release : Release} {targets : List (Target κ)} : s.plan p = none →
      s.opened p = none → w.release appId releaseId = some release → targets ≠ [] →
      (∀ t ∈ targets, s.registry.vault t.vaultId = .live ∧ ∃ found actual owners installationId,
        newTarget t.vaultId t.allowlist (fetchPreflight t.allowlist found actual owners installationId release.expected) =
          some t) →
      Step w s (.create p)
        { s with
          plan := Function.update s.plan p (some ⟨appId, releaseId, refreshStatus targets, targets⟩)
          audit := s.audit ++ [⟨p, none, none, none, releaseId, .planCreated, .ok, "created"⟩] }
  | other {reg : Registry κ σ} : Change s reg → Step w s .other { s with registry := reg }

/-- Nothing is planned yet, and no transaction is open. -/
structure Initial (s : State κ σ) : Prop where
  plans : ∀ p, s.plan p = none
  audit : s.audit = []
  opened : ∀ p, s.opened p = none
  handlers : s.handlers = []
  /-- Installations and resources belong to live vaults and to each other, as the foreign keys say. -/
  installations : ∀ i inst, s.registry.installation i = some inst → s.registry.vault inst.vaultId = .live
  resources : ∀ v name r, s.registry.resource v name = some r →
    ∃ inst, s.registry.installation r.installationId = some inst ∧ inst.vaultId = v

/-- What some run from an initial state ends in. -/
def Reachable (w : World κ σ) (s : State κ σ) : Prop :=
  ∃ s₀ as, Initial s₀ ∧ Run (Step w) s₀ as s

end

end Akb.Adoption
