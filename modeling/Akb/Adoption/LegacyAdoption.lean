import Akb.Adoption.Adopted

/-! An apply succeeds when nothing is in its way, whatever was in the way of an earlier one; but some
things never go away. -/
namespace Akb.Adoption
open Akb.Library

variable {κ σ : Type} [DecidableEq κ] {w : World κ σ} {s s' : State κ σ} {p : κ} {k : Nat} {a : Action κ}

/-! ### Another attempt -/

/-- Nothing is in the way of a target, and the id `i` is free: the vault lives, the tables are there
with the fingerprint of the release, none is owned, the app is not installed, and no other
transaction is about to commit one of these. -/
structure Clear (w : World κ σ) (s : State κ σ) (p : κ) (k : Nat) (plan : Plan κ) (t : Target κ) (i : κ) : Prop where
  target : s.TargetAt p k plan t
  undone : t.done = false
  unlocked : s.opened p = none
  live : s.registry.vault t.vaultId = .live
  present : ∀ name ∈ t.allowlist.names, s.registry.table t.vaultId name ≠ none
  unowned : ∀ name ∈ t.allowlist.names, s.registry.resource t.vaultId name = none
  fresh : s.registry.installation i = none
  sole : ∀ j, ¬ s.registry.Installed plan.appId t.vaultId j
  fingerprint : ∃ release fp, w.release plan.appId plan.baselineReleaseId = some release ∧ release.expected = some fp ∧
    w.fingerprint (foundTables s.registry t.vaultId t.allowlist.names) = some fp
  others : ∀ q txn j done, s.opened q = some txn → txn.Inserted j done →
    j ≠ i ∧ ¬ (txn.plan.appId = plan.appId ∧ txn.row.vaultId = t.vaultId) ∧
      (txn.row.vaultId = t.vaultId → ∀ name ∈ t.allowlist.names, name ∉ done)

/-- A step of an apply of the target. -/
def Action.of (p : κ) (k : Nat) (a : Action κ) : Prop := a = .start p k ∨ a = .read p ∨ a = .insert p ∨ a = .apply p k

theorem setOpen_setOpen (s : State κ σ) (p : κ) (o o' : Option (Txn κ σ)) : (s.setOpen p o).setOpen p o' = s.setOpen p o' := by
  simp [State.setOpen]

theorem opened_setOpen (s : State κ σ) (p : κ) (o : Option (Txn κ σ)) : (s.setOpen p o).opened p = o :=
  Function.update_self _ _ _

/-- Tables without an owner are asked for without an answer. -/
theorem asks (k : Nat) (txn : Txn κ σ) (found : List (String × σ)) (actual : String) {rest : List String}
    (hfree : ∀ name ∈ rest, s.registry.resource txn.row.vaultId name = none) :
    ∃ as, Run (Step w) (s.setOpen p (some (txn.to (.asking found actual rest [])))) as
      (s.setOpen p (some (txn.to (.asking found actual [] [])))) ∧ ∀ a ∈ as, a.of p k := by
  induction rest with
  | nil => exact ⟨[], .nil _, fun _ h => absurd h List.not_mem_nil⟩
  | cons name rest ih =>
    obtain ⟨as, hrun, has⟩ := ih fun n hn => hfree n (List.mem_cons_of_mem name hn)
    have hname := hfree name List.mem_cons_self
    refine ⟨.read p :: as, .cons ?_ hrun, List.forall_mem_cons.mpr ⟨Or.inr (Or.inl rfl), has⟩⟩
    have hstep := Step.readOwner (w := w) (s := s.setOpen p (some (txn.to (.asking found actual (name :: rest) []))))
      (opened_setOpen _ _ _) rfl
    rw [setOpen_setOpen] at hstep
    change Step w _ _ (s.setOpen p (some (txn.to (.asking found actual rest
      ([] ++ ((s.registry.resource txn.row.vaultId name).map (fun r => (name, r.installationId))).toList))))) at hstep
    rwa [hname] at hstep

/-- Tables that nobody owns or is about to own are inserted one by one. -/
theorem inserts (k : Nat) (txn : Txn κ σ) (found : List (String × σ)) (pf : Preflight κ) (i : κ) (done : List String)
    {rest : List String} (hfree : ∀ name ∈ rest, s.registry.resource txn.row.vaultId name = none)
    (hothers : ∀ q txn' j done', q ≠ p → s.opened q = some txn' → txn'.Inserted j done' →
      txn'.row.vaultId = txn.row.vaultId → ∀ name ∈ rest, name ∉ done') :
    ∃ as, Run (Step w) (s.setOpen p (some (txn.to (.inserting found pf i done rest)))) as
      (s.setOpen p (some (txn.to (.inserting found pf i (done ++ rest) [])))) ∧ ∀ a ∈ as, a.of p k := by
  induction rest generalizing done with
  | nil => exact ⟨[], by rw [List.append_nil]; exact .nil _, fun _ h => absurd h List.not_mem_nil⟩
  | cons name rest ih =>
    obtain ⟨as, hrun, has⟩ := ih (done ++ [name]) (fun n hn => hfree n (List.mem_cons_of_mem name hn))
      fun q txn' j done' hq hopen hins hv n hn => hothers q txn' j done' hq hopen hins hv n (List.mem_cons_of_mem name hn)
    rw [List.append_assoc] at hrun
    refine ⟨.insert p :: as, .cons ?_ hrun, List.forall_mem_cons.mpr ⟨Or.inr (Or.inr (Or.inl rfl)), has⟩⟩
    have hstep := Step.insertResource (w := w) (s := s.setOpen p (some (txn.to (.inserting found pf i done (name :: rest)))))
      (opened_setOpen _ _ _) rfl (hfree name List.mem_cons_self) fun q txn' j done' hq hopen hins hv =>
        hothers q txn' j done' hq (by simpa [State.setOpen, Function.update_of_ne hq] using hopen) hins hv name
          List.mem_cons_self
    rwa [setOpen_setOpen] at hstep

omit [DecidableEq κ] in
theorem Clear.found {plan : Plan κ} {t : Target κ} {i : κ} (h : Clear w s p k plan t i) :
    (foundTables s.registry t.vaultId t.allowlist.names).map Prod.fst = t.allowlist.names := by
  refine (found_sublist _ _ _).eq_of_length (le_antisymm (found_sublist _ _ _).length_le ?_)
  refine (List.subperm_of_subset t.allowlist.nodup fun name hname => ?_).length_le
  obtain ⟨schema, hschema⟩ := Option.ne_none_iff_exists'.mp (h.present name hname)
  exact List.mem_map.mpr ⟨(name, schema), List.mem_filterMap.mpr ⟨name, hname, by rw [hschema]; rfl⟩, rfl⟩

omit [DecidableEq κ] in
/-- A preflight with good answers passes. -/
theorem preflight_passes (t : Target κ) (fp : String) :
    ((fetchPreflight t.allowlist t.allowlist.names fp [] none (some fp)).sincePlanned t).reason = none ∧
    ((fetchPreflight t.allowlist t.allowlist.names fp [] none (some fp)).sincePlanned t).included = t.allowlist.names := by
  have hreason : (fetchPreflight t.allowlist t.allowlist.names fp ([] : List (String × κ)) none (some fp)).reason = none := by
    simp [fetchPreflight]
  have hsame : (fetchPreflight t.allowlist t.allowlist.names fp [] none (some fp)).sincePlanned t =
      fetchPreflight t.allowlist t.allowlist.names fp [] none (some fp) := by
    rw [Preflight.sincePlanned, hreason, if_neg (by simp)]
  rw [hsame]
  exact ⟨hreason, rfl⟩

/-- The transaction begins, finds the tables, and asks for their owners and for an installation. -/
theorem checks {plan : Plan κ} {t : Target κ} {release : Release} {fp : String} {installationId : Option κ}
    (ht : s.TargetAt p k plan t) (hundone : t.done = false) (hunlocked : s.opened p = none)
    (hlive : s.registry.vault t.vaultId = .live)
    (hfound : (foundTables s.registry t.vaultId t.allowlist.names).map Prod.fst = t.allowlist.names)
    (hunowned : ∀ name ∈ t.allowlist.names, s.registry.resource t.vaultId name = none)
    (hrel : w.release plan.appId plan.baselineReleaseId = some release) (hexpected : release.expected = some fp)
    (hfp : w.fingerprint (foundTables s.registry t.vaultId t.allowlist.names) = some fp)
    (hsome : ∀ i ∈ installationId, s.registry.Installed plan.appId t.vaultId i)
    (hnone : installationId = none → ∀ i, ¬ s.registry.Installed plan.appId t.vaultId i) :
    ∃ as, Run (Step w) s as (s.setOpen p (some ⟨k, plan, t,
        .checked (foundTables s.registry t.vaultId t.allowlist.names)
          ((fetchPreflight t.allowlist t.allowlist.names fp [] installationId (some fp)).sincePlanned t)⟩)) ∧
      ∀ a ∈ as, a.of p k := by
  have hstart : Step w s (.start p k) (s.setOpen p (some ⟨k, plan, t, .locked⟩)) := .start ht hunlocked hlive hundone
  have hread : Step w (s.setOpen p (some ⟨k, plan, t, .locked⟩)) (.read p) (s.setOpen p (some ⟨k, plan, t,
      .asking (foundTables s.registry t.vaultId t.allowlist.names) fp
        ((foundTables s.registry t.vaultId t.allowlist.names).map Prod.fst) []⟩)) := by
    have hstep := Step.readTables (w := w) (opened_setOpen s p (some ⟨k, plan, t, .locked⟩)) rfl hrel hfp
    rwa [setOpen_setOpen] at hstep
  obtain ⟨as, hasks, has⟩ := asks (w := w) k ⟨k, plan, t, .locked⟩ (foundTables s.registry t.vaultId t.allowlist.names) fp
    hunowned
  rw [hfound] at hread
  have hchecked := Step.readInstallation (w := w) (opened_setOpen s p (some ⟨k, plan, t,
    .asking (foundTables s.registry t.vaultId t.allowlist.names) fp [] []⟩)) rfl hsome hnone hrel
  rw [setOpen_setOpen] at hchecked
  refine ⟨.start p k :: .read p :: (as ++ [.read p]), .cons hstart (.cons hread (hasks.append (.single ?_))), ?_⟩
  · rw [hfound, hexpected] at hchecked
    exact hchecked
  · refine List.forall_mem_cons.mpr ⟨Or.inl rfl, List.forall_mem_cons.mpr ⟨Or.inr (Or.inl rfl), fun a ha => ?_⟩⟩
    rcases List.mem_append.mp ha with ha | ha
    · exact has a ha
    · exact Or.inr (Or.inl (List.mem_singleton.mp ha))

theorem Clear.succeeds {plan : Plan κ} {t : Target κ} {i : κ} (h : Clear w s p k plan t i) :
    ∃ as s', Run (Step w) s as s' ∧ (∀ a ∈ as, a.of p k) ∧ s'.DoneAs p k i := by
  obtain ⟨release, fp, hrel, hexpected, hfp⟩ := h.fingerprint
  obtain ⟨as, hchecks, has⟩ := checks h.target h.undone h.unlocked h.live h.found h.unowned hrel hexpected hfp
    (fun j hj => absurd hj (Option.not_mem_none j)) fun _ => h.sole
  obtain ⟨hreason, hincluded⟩ := preflight_passes t fp
  generalize hpf : (fetchPreflight t.allowlist t.allowlist.names fp [] none (some fp)).sincePlanned t = pf at *
  generalize hfound : foundTables s.registry t.vaultId t.allowlist.names = found at *
  have hinsert := Step.insertInstallation (w := w) (i := i) (opened_setOpen s p (some ⟨k, plan, t, .checked found pf⟩)) rfl
    hreason h.fresh h.sole fun q txn j done hopen hins => by
      rcases opened_cases hopen with ⟨-, heq⟩ | ⟨-, hopen⟩
      · cases heq
        obtain ⟨_, _, _, hstage⟩ := hins
        cases hstage
      · exact ⟨(h.others q txn j done hopen hins).1, (h.others q txn j done hopen hins).2.1⟩
  obtain ⟨bs, hinserts, hbs⟩ := inserts (w := w) (s := s) (p := p) k ⟨k, plan, t, .locked⟩ found pf i []
    (hincluded.symm ▸ h.unowned) fun q txn j done' _ hopen hins hv n hn =>
      (h.others q txn j done' hopen hins).2.2 hv n (hincluded ▸ hn)
  rw [setOpen_setOpen] at hinsert
  have happly : Step w (s.setOpen p (some ⟨k, plan, t, .inserting found pf i pf.included []⟩)) (.apply p k)
      ((s.setOpen p (some ⟨k, plan, t, .inserting found pf i pf.included []⟩)).adopted p
        ⟨k, plan, t, .inserting found pf i pf.included []⟩ pf i) := .apply (opened_setOpen _ _ _) rfl
  have hrun := hchecks.append (.cons hinsert (hinserts.append (.single happly)))
  refine ⟨as ++ .insert p :: (bs ++ [.apply p k]), _, hrun, fun a ha => ?_, ?_⟩
  · rcases List.mem_append.mp ha with ha | ha
    · exact has a ha
    · rcases List.mem_cons.mp ha with rfl | ha
      · exact Or.inr (Or.inr (Or.inl rfl))
      · rcases List.mem_append.mp ha with ha | ha
        · exact hbs a ha
        · exact Or.inr (Or.inr (Or.inr (List.mem_singleton.mp ha)))
  · have hopened : (s.setOpen p (some ⟨k, plan, t, .inserting found pf i pf.included []⟩)).TargetAt p k plan t := h.target
    obtain ⟨hplan, hrow⟩ := targetAt_written (t.apply pf i) (applyRows p plan k t pf i) hopened
    exact ⟨_, _, ⟨hplan, hrow⟩, rfl, rfl⟩

/-! ### What never goes away -/

/-- A target that an installation of its app, an owner of one of its tables or the end of its vault
is in the way of stays so. -/
theorem Step.obstructed (hi : Invariant w s) (h : Step w s a s') {plan : Plan κ} {t : Target κ}
    (ht : s.TargetAt p k plan t) (hundone : t.done = false) (hobs : s.registry.Obstructs plan t) :
    ∃ plan' t', s'.TargetAt p k plan' t' ∧ t'.done = false ∧ s'.registry.Obstructs plan' t' := by
  have hreg : s'.registry.Obstructs plan t := by
    by_cases hother : a = .other
    · subst hother
      cases h with
      | other hchange => exact hchange.obstructs hobs
    · by_cases happly : ∃ q j, a = .apply q j
      · obtain ⟨q, j, rfl⟩ := happly
        cases h with
        | @apply _ i txn found pf done hopen hstage =>
          obtain ⟨-, -, hclaim⟩ := unclaimed_all hi hopen hstage
          exact hobs.adopt hclaim.fresh
      · rw [h.registry hother fun q j heq => happly ⟨q, j, heq⟩]
        exact hobs
  rcases h.target hi ht with ⟨plan', t', ht', happ, -, hlike⟩ | ⟨-, i, hadopts⟩
  · exact ⟨plan', t', ht', hlike.done.trans hundone, hreg.like hlike happ⟩
  · exfalso
    rcases hobs with hdel | ⟨j, hj⟩ | ⟨name, hname, hr⟩
    · cases hadopts.live.symm.trans hdel
    · exact hadopts.sole j hj
    · exact hr (hadopts.unowned name hname)

end Akb.Adoption

/-! Legacy adoption is applied once and not undone by a replay, in every interleaving of applies with
each other and with the other services. -/
namespace Akb.Adoption
open Akb.Library

variable {κ σ : Type} [DecidableEq κ] {w : World κ σ} {s s' : State κ σ} {p : κ} {k : Nat}

/-- The status of a plan says how many of its targets are done or blocked. -/
def Plan.Summarised (plan : Plan κ) : Prop :=
  (plan.status = .applied ↔ ∀ t ∈ plan.targets, t.done = true) ∧
  (plan.status = .partly ↔ (∃ t ∈ plan.targets, t.done = true) ∧ ¬ ∀ t ∈ plan.targets, t.done = true) ∧
  (plan.status = .blocked ↔ ∀ t ∈ plan.targets, t.state = .blocked)

theorem Invariant.summarised (hi : Invariant w s) {plan : Plan κ} (hplan : s.plan p = some plan) : plan.Summarised := by
  obtain ⟨hne, hstatus⟩ := hi.status p plan hplan
  rw [Plan.Summarised, hstatus]
  exact refreshStatus_spec hne

theorem legacy_adoption_once {s₀ : State κ σ} {as : List (Action κ)} (h₀ : Initial s₀) (hrun : Run (Step w) s₀ as s) :
    (∀ p k i, s.DoneAs p k i → ∀ bs s', Run (Step w) s bs s' → s'.DoneAs p k i) ∧
    (∀ p k plan t, s.TargetAt p k plan t → t.done = true →
      ∃ i, t.installationId = some i ∧ AppliedOnce w s₀ as s p k i) ∧
    (∀ a s', Step w s a s' → a ≠ .other → (∀ p k, a ≠ .apply p k) → s'.registry = s.registry) ∧
    (∀ a s', Step w s a s' → a.quiet = true → s'.registry = s.registry ∧ s'.plan = s.plan ∧ s'.audit = s.audit) ∧
    (∀ p k s', Step w s (.block p k) s' ∨ Step w s (.refuse p k) s' → Blocks s s' p k) ∧
    (∀ p k plan t i, Clear w s p k plan t i →
      ∃ bs s', Run (Step w) s bs s' ∧ (∀ a ∈ bs, a.of p k) ∧ s'.DoneAs p k i) ∧
    ∀ p plan, s.plan p = some plan → plan.Summarised := by
  have hi : Invariant w s := Reachable.invariant ⟨s₀, as, h₀, hrun⟩
  refine ⟨fun p k i hd bs s' hbs => run_done hi hbs hd, fun p k plan t ht hdone => ?_, fun a s' h => h.registry,
    fun a s' h => h.quiet, fun p k s' h => ?_, fun p k plan t i h => h.succeeds, fun p plan hplan => hi.summarised hplan⟩
  · have hrec := hi.recorded p k plan t ht
    rw [Recorded, if_pos hdone] at hrec
    obtain ⟨r, i, -, -, hid⟩ := hrec
    exact ⟨i, hid, applied_once h₀ hrun ⟨plan, t, ht, hdone, hid⟩⟩
  · rcases h with h | h
    · exact h.blocks hi (Or.inl rfl)
    · exact h.blocks hi (Or.inr rfl)

/-! ### A target that can be applied, and one that never can -/

theorem obstructed_run {as : List (Action κ)} (hi : Invariant w s) (hrun : Run (Step w) s as s')
    (h : ∃ plan t, s.TargetAt p k plan t ∧ t.done = false ∧ s.registry.Obstructs plan t) :
    ∃ plan t, s'.TargetAt p k plan t ∧ t.done = false ∧ s'.registry.Obstructs plan t := by
  induction hrun with
  | nil s => exact h
  | cons hstep _ ih =>
    obtain ⟨plan, t, ht, hundone, hobs⟩ := h
    exact ih (hstep.invariant hi) (hstep.obstructed hi ht hundone hobs)

/-- Every release expects the one fingerprint that there is. -/
def plainWorld : World Nat String := ⟨fun _ _ => some ⟨"1.0.0", some "f"⟩, fun _ => some "f"⟩

def notesAllowlist : Allowlist := ⟨["notes"], by decide, by decide⟩

/-- Vault 0 has the table `notes`. -/
def vaultRegistry (installation : Nat → Option (Installation Nat)) : Registry Nat String where
  vault v := if v = 0 then .live else .unused
  table v name := if v = 0 ∧ name = "notes" then some "schema" else none
  installation := installation
  resource _ _ := none
  observed _ := none

def startState (installation : Nat → Option (Installation Nat)) : State Nat String :=
  ⟨vaultRegistry installation, fun _ => none, [], fun _ => none, []⟩

/-- A new target for `notes`, before or after app 5 is installed. -/
def notesTarget (installationId : Option Nat) : Target Nat :=
  ⟨0, notesAllowlist, "f", some "f", ["notes"], [], [], if installationId = none then .planned else .blocked,
    if installationId = none then none else some .installationExists, installationId,
    .preflight (if installationId = none then none else some .installationExists)⟩

def notesPlan (installationId : Option Nat) : Plan Nat :=
  ⟨5, 6, refreshStatus [notesTarget installationId], [notesTarget installationId]⟩

/-- Plan 9 has been created for it. -/
def plannedState (installation : Nat → Option (Installation Nat)) (installationId : Option Nat) : State Nat String :=
  (startState installation).created 9 (notesPlan installationId) ⟨9, none, none, none, 6, .planCreated, .ok, "created"⟩

theorem startState_initial {installation : Nat → Option (Installation Nat)}
    (h : ∀ i inst, installation i = some inst → inst.vaultId = 0) : Initial (startState installation) where
  plans _ := rfl
  audit := rfl
  opened _ := rfl
  handlers := rfl
  installations i inst hinst := if_pos (h i inst hinst)
  resources v name r hr := by cases hr

theorem planned_step (installation : Nat → Option (Installation Nat)) (installationId : Option Nat)
    (h : newTarget 0 notesAllowlist (fetchPreflight notesAllowlist ["notes"] "f" [] installationId (some "f")) =
      some (notesTarget installationId)) :
    Step plainWorld (startState installation) (.create 9) (plannedState installation installationId) := by
  refine .create rfl rfl rfl (List.cons_ne_nil _ _) fun t ht => ?_
  rw [List.mem_singleton] at ht
  subst ht
  exact ⟨rfl, _, _, _, _, h⟩

theorem notes_adopted_once : ∃ as s, Run (Step plainWorld) (startState fun _ => none) as s ∧ s.DoneAs 9 0 1 ∧
    AppliedOnce plainWorld (startState fun _ => none) as s 9 0 1 := by
  have hinit : Initial (startState fun _ => none) := startState_initial fun _ _ h => by cases h
  have hcreate := planned_step (fun _ => none) none rfl
  have hclear : Clear plainWorld (plannedState (fun _ => none) none) 9 0 (notesPlan none) (notesTarget none) 1 := by
    refine ⟨⟨rfl, rfl⟩, rfl, rfl, rfl, fun name hname => ?_, fun _ _ => rfl, rfl, fun j hj => ?_,
      ⟨_, "f", rfl, rfl, rfl⟩, fun q txn j done hopen => by cases hopen⟩
    · rw [List.mem_singleton.mp hname]
      exact Option.some_ne_none _
    · obtain ⟨inst, hinst, -⟩ := hj
      cases hinst
  obtain ⟨bs, s, hrun, -, plan, t, ht, hdone, hid⟩ :=
    (legacy_adoption_once hinit (.single hcreate)).2.2.2.2.2.1 9 0 _ _ 1 hclear
  obtain ⟨i, hid', honce⟩ := (legacy_adoption_once hinit (.cons hcreate hrun)).2.1 9 0 plan t ht hdone
  obtain rfl := Option.some.inj (hid.symm.trans hid')
  exact ⟨_, s, .cons hcreate hrun, ⟨plan, t, ht, hdone, hid⟩, honce⟩

/-- App 5 is installed in vault 0 already. -/
def appInstalled (i : Nat) : Option (Installation Nat) :=
  if i = 1 then some ⟨5, 0, some 6, some 6, .active, 0⟩ else none

theorem installed_blocks_for_good : ¬ ∀ (w : World Nat String) (s s' : State Nat String) (p k : Nat), Reachable w s →
    Step w s (.block p k) s' → ∃ bs s'' i, Run (Step w) s' bs s'' ∧ s''.DoneAs p k i := by
  intro hclaim
  have hinit : Initial (startState appInstalled) := startState_initial fun i inst h => by
    rw [appInstalled] at h
    split at h
    · cases h
      rfl
    · cases h
  have hcreate := planned_step appInstalled (some 1) rfl
  have htarget : (plannedState appInstalled (some 1)).TargetAt 9 0 (notesPlan (some 1)) (notesTarget (some 1)) :=
    ⟨rfl, rfl⟩
  have hinstalled : (plannedState appInstalled (some 1)).registry.Installed 5 0 1 := ⟨_, rfl, rfl, rfl⟩
  -- an apply of the plan finds the installation, and blocks
  obtain ⟨as, hrun, -⟩ := checks (w := plainWorld) htarget rfl rfl rfl rfl (fun _ _ => rfl) rfl rfl rfl
    (fun i hi => Option.mem_some_iff.mp hi ▸ hinstalled) fun h => by cases h
  have hreach : Reachable plainWorld _ := ⟨_, _, hinit, .cons hcreate hrun⟩
  have hblocked : Step plainWorld ((plannedState appInstalled (some 1)).setOpen 9 (some ⟨0, notesPlan (some 1),
      notesTarget (some 1), .checked [("notes", "schema")] ((fetchPreflight notesAllowlist ["notes"] "f" [] (some 1)
        (some "f")).sincePlanned (notesTarget (some 1)))⟩)) (.block 9 0) _ :=
    .block (opened_setOpen _ _ _) rfl (by decide)
  obtain ⟨bs, s', i, hrest, plan, t, ht, hdone, -⟩ := hclaim _ _ _ _ _ hreach hblocked
  -- what is in the way from the start stays there
  have hi : Invariant plainWorld (plannedState appInstalled (some 1)) := hcreate.invariant hinit.invariant
  obtain ⟨plan', t', ht', hundone, -⟩ := obstructed_run hi (hrun.append (.cons hblocked hrest))
    ⟨_, _, htarget, rfl, Or.inr (Or.inl ⟨1, hinstalled⟩)⟩
  obtain ⟨-, rfl⟩ := ht.unique ht'
  cases hdone.symm.trans hundone

end Akb.Adoption
