import Akb.Adoption.Reachable

/-! What one step does to a target: it stays as it is, or becomes the one installation that owns the
tables of its allow-list. -/
namespace Akb.Adoption
open Akb.Library

variable {κ σ : Type} [DecidableEq κ] {w : World κ σ} {s s' : State κ σ} {p : κ} {k : Nat} {a : Action κ}

/-- The target is applied or replayed, as the installation `i`. -/
def State.DoneAs (s : State κ σ) (p : κ) (k : Nat) (i : κ) : Prop :=
  ∃ plan t, s.TargetAt p k plan t ∧ t.done = true ∧ t.installationId = some i

/-- One step creates the installation `i` of a target, which owns the tables of its allow-list. -/
structure Adopts (w : World κ σ) (s s' : State κ σ) (p : κ) (k : Nat) (plan : Plan κ) (t : Target κ) (i : κ) : Prop where
  target : s.TargetAt p k plan t
  undone : t.done = false
  live : s.registry.vault t.vaultId = .live
  fresh : s.registry.installation i = none
  sole : ∀ j, ¬ s.registry.Installed plan.appId t.vaultId j
  unowned : ∀ name ∈ t.allowlist.names, s.registry.resource t.vaultId name = none
  /-- The tables are there, with the fingerprint that the baseline release expects. -/
  present : (foundTables s'.registry t.vaultId t.allowlist.names).map Prod.fst = t.allowlist.names
  fingerprint : ∃ release fp, w.release plan.appId plan.baselineReleaseId = some release ∧ release.expected = some fp ∧
    w.fingerprint (foundTables s'.registry t.vaultId t.allowlist.names) = some fp ∧
    s'.registry.observed i = some ⟨0, some plan.baselineReleaseId, some fp, some 0⟩
  installation : ∀ j, s'.registry.installation j =
    if j = i then some (adoptedInstallation plan t) else s.registry.installation j
  resource : ∀ v name, s'.registry.resource v name =
    if v = t.vaultId ∧ name ∈ t.allowlist.names then some (adoptedResource p k i) else s.registry.resource v name
  /-- It owns exactly these tables. -/
  owns : ∀ v name, (∃ r, s'.registry.resource v name = some r ∧ r.installationId = i) ↔
    v = t.vaultId ∧ name ∈ t.allowlist.names
  done : s'.DoneAs p k i

omit [DecidableEq κ] in
/-- The tables of a transaction that found them all are what another look finds. -/
theorem foundTables_of_names {reg : Registry κ σ} {v : κ} {found : List (String × σ)} {names : List String}
    (hnames : found.map Prod.fst = names) (htables : ∀ t ∈ found, reg.table v t.1 = some t.2) :
    foundTables reg v names = found := by
  induction found generalizing names with
  | nil =>
    subst hnames
    rfl
  | cons t rest ih =>
    subst hnames
    rw [List.map_cons, foundTables, List.filterMap_cons, htables t List.mem_cons_self]
    exact congrArg (t :: ·) (ih rfl fun u hu => htables u (List.mem_cons_of_mem t hu))

theorem Invariant.adopts (hi : Invariant w s) {txn : Txn κ σ} {found : List (String × σ)} {pf : Preflight κ} {i : κ}
    {done : List String} (hopen : s.opened p = some txn) (hstage : txn.stage = .inserting found pf i done []) :
    Adopts w s (s.adopted p txn pf i) p txn.index txn.plan txn.row i := by
  have hheld := hi.held p txn hopen
  obtain ⟨hpassed, hnames, hclaim⟩ := unclaimed_all hi hopen hstage
  have htables := hheld.tables
  rw [hstage] at htables
  have hfound : foundTables s.registry txn.row.vaultId txn.row.allowlist.names = found :=
    foundTables_of_names hpassed.names htables
  obtain ⟨release, hrel, hexpected⟩ := hpassed.expected
  have hresource : ∀ v name, (s.adopted p txn pf i).registry.resource v name =
      if v = txn.row.vaultId ∧ name ∈ txn.row.allowlist.names then some (adoptedResource p txn.index i)
      else s.registry.resource v name := fun v name => hnames ▸ adopt_resource
  refine ⟨hheld.target, hheld.undone, hheld.live, hclaim.fresh, hclaim.sole, hclaim.unowned, ?_,
    ⟨release, pf.actual, hrel, hexpected, ?_, Function.update_self _ _ _⟩, fun j => adopt_installation, hresource,
    fun v name => ⟨?_, fun h => ⟨_, (hresource v name).trans (if_pos h), rfl⟩⟩, ?_⟩
  · exact (congrArg (List.map Prod.fst) hfound).trans hpassed.names
  · exact (congrArg w.fingerprint hfound).trans hpassed.fingerprint
  · rintro ⟨r, hr, hri⟩
    rw [hresource] at hr
    split at hr
    · assumption
    · obtain ⟨inst, hinst, -⟩ := hi.consistent.resources v name r hr
      rw [hri, hclaim.fresh] at hinst
      cases hinst
  · obtain ⟨hplan, hrow⟩ := targetAt_written (txn.row.apply pf i)
      (applyRows p txn.plan txn.index txn.row pf i) hheld.target
    exact ⟨_, _, ⟨hplan, hrow⟩, rfl, rfl⟩

/-! ### Where the targets of the state after a step come from -/

omit [DecidableEq κ] in
theorem like_refl (t : Target κ) : t.Like t := ⟨rfl, rfl, rfl, rfl⟩

/-- A commit that adopts nothing leaves every target as it is, up to its report. -/
theorem targetAt_like {plan plan₀ : Plan κ} {t t' u : Target κ} {q : κ} {j : Nat} (rows : List (AuditRow κ))
    (ht : s.TargetAt p k plan t) (hlike : t.Like t') (hu : s.TargetAt q j plan₀ u) :
    ∃ plan' u', (s.writeTarget p plan k t' rows).TargetAt q j plan' u' ∧ plan'.appId = plan₀.appId ∧
      plan'.baselineReleaseId = plan₀.baselineReleaseId ∧ u.Like u' := by
  by_cases heq : q = p ∧ j = k
  · obtain ⟨rfl, rfl⟩ := heq
    obtain rfl := Option.some.inj (ht.1.symm.trans hu.1)
    obtain rfl := Option.some.inj (ht.2.symm.trans hu.2)
    exact ⟨_, t', targetAt_written t' rows ht, rfl, rfl, hlike⟩
  · obtain ⟨plan', hu', happ, hrel⟩ := targetAt_kept t' rows ht.1 hu heq
    exact ⟨plan', u, hu', happ, hrel, like_refl u⟩

/-- What one step does to a target. -/
theorem Step.target (hi : Invariant w s) (h : Step w s a s') {q : κ} {j : Nat} {plan₀ : Plan κ} {u : Target κ}
    (hu : s.TargetAt q j plan₀ u) :
    (∃ plan' u', s'.TargetAt q j plan' u' ∧ plan'.appId = plan₀.appId ∧
      plan'.baselineReleaseId = plan₀.baselineReleaseId ∧ u.Like u') ∨
    (a = .apply q j ∧ ∃ i, Adopts w s s' q j plan₀ u i) := by
  have hsame : (∀ q, s'.plan q = s.plan q) → ∃ plan' u', s'.TargetAt q j plan' u' ∧ plan'.appId = plan₀.appId ∧
      plan'.baselineReleaseId = plan₀.baselineReleaseId ∧ u.Like u' :=
    fun hplan => ⟨plan₀, u, ⟨(hplan q).trans hu.1, hu.2⟩, rfl, rfl, like_refl u⟩
  cases h with
  | replay ht _ _ hdone => exact Or.inl (targetAt_like _ ht (like_replay hdone) hu)
  | start _ _ _ _ => exact Or.inl (hsame fun _ => rfl)
  | readTables _ _ _ _ => exact Or.inl (hsame fun _ => rfl)
  | readOwner _ _ => exact Or.inl (hsame fun _ => rfl)
  | readInstallation _ _ _ _ _ => exact Or.inl (hsame fun _ => rfl)
  | block hopen _ _ =>
    have hheld := hi.held _ _ hopen
    exact Or.inl (targetAt_like _ hheld.target (like_block hheld.undone _) hu)
  | insertInstallation _ _ _ _ _ _ => exact Or.inl (hsame fun _ => rfl)
  | insertResource _ _ _ _ => exact Or.inl (hsame fun _ => rfl)
  | @apply p i txn found pf done hopen hstage =>
    have hheld := hi.held p txn hopen
    by_cases heq : q = p ∧ j = txn.index
    · obtain ⟨rfl, rfl⟩ := heq
      obtain rfl := Option.some.inj (hheld.target.1.symm.trans hu.1)
      obtain rfl := Option.some.inj (hheld.target.2.symm.trans hu.2)
      exact Or.inr ⟨rfl, i, hi.adopts hopen hstage⟩
    · obtain ⟨plan', hu', happ, hrel⟩ := targetAt_kept (txn.row.apply pf i)
        (applyRows p txn.plan txn.index txn.row pf i) hheld.target.1 hu heq
      exact Or.inl ⟨plan', u, hu', happ, hrel, like_refl u⟩
  | clashInstallation _ _ _ _ => exact Or.inl (hsame fun _ => rfl)
  | clashResource _ _ _ => exact Or.inl (hsame fun _ => rfl)
  | @refuse p k plan t hmem ht _ _ =>
    obtain ⟨plan', t', ht', hundone, -⟩ := hi.pending p k hmem
    obtain rfl := Option.some.inj (ht'.1.symm.trans ht.1)
    obtain rfl := Option.some.inj (ht'.2.symm.trans ht.2)
    exact Or.inl (targetAt_like [auditRow p plan' k t' none .targetBlocked .error Reason.ownershipConflict.code] ht
      (like_refuse hundone) hu)
  | abort _ => exact Or.inl (hsame fun _ => rfl)
  | drop _ => exact Or.inl (hsame fun _ => rfl)
  | create hnew _ _ _ _ =>
    refine Or.inl ⟨plan₀, u, ⟨(Function.update_of_ne ?_ _ _).trans hu.1, hu.2⟩, rfl, rfl, like_refl u⟩
    rintro rfl
    cases hnew.symm.trans hu.1
  | other _ => exact Or.inl (hsame fun _ => rfl)

/-- A target that is done stays done, as the same installation. -/
theorem Step.done (hi : Invariant w s) (h : Step w s a s') {i : κ} (hd : s.DoneAs p k i) : s'.DoneAs p k i := by
  obtain ⟨plan, t, ht, hdone, hid⟩ := hd
  rcases h.target hi ht with ⟨plan', t', ht', -, -, hlike⟩ | ⟨-, j, hadopts⟩
  · exact ⟨plan', t', ht', hlike.done.trans hdone, hlike.installationId.trans hid⟩
  · cases hdone.symm.trans hadopts.undone

end Akb.Adoption

/-! Whole runs: the one step that applied a target, what a blocked apply leaves, and when another
attempt succeeds. -/
namespace Akb.Adoption
open Akb.Library

variable {κ σ : Type} [DecidableEq κ] {w : World κ σ} {s s' : State κ σ} {p : κ} {k : Nat} {a : Action κ}

/-! ### One step applies a target -/

omit [DecidableEq κ] in
theorem State.TargetAt.unique {plan plan' : Plan κ} {t t' : Target κ} (h : s.TargetAt p k plan t)
    (h' : s.TargetAt p k plan' t') : plan = plan' ∧ t = t' := by
  obtain rfl := Option.some.inj (h.1.symm.trans h'.1)
  exact ⟨rfl, Option.some.inj (h.2.symm.trans h'.2)⟩

/-- A target that is done after a step was there before. -/
theorem Step.target_before (h : Step w s a s') {q : κ} {j : Nat} {plan' : Plan κ} {u' : Target κ}
    (hu' : s'.TargetAt q j plan' u') (hdone : u'.done = true) (hi : Invariant w s) : ∃ plan u, s.TargetAt q j plan u := by
  have hwritten : ∀ {p k plan t t' rows}, s.TargetAt p k plan t →
      (s.writeTarget p plan k t' rows).TargetAt q j plan' u' → ∃ plan u, s.TargetAt q j plan u := by
    intro p k plan t t' rows ht hwrite
    rcases targetAt_write rows ht.1 hwrite with ⟨-, hu⟩ | ⟨rfl, -, ⟨rfl, -, -⟩ | ⟨-, hu⟩⟩
    · exact ⟨plan', u', hu⟩
    · exact ⟨plan, t, ht⟩
    · exact ⟨plan, u', hu⟩
  cases h with
  | replay ht _ _ _ => exact hwritten ht hu'
  | start _ _ _ _ => exact ⟨plan', u', hu'⟩
  | readTables _ _ _ _ => exact ⟨plan', u', hu'⟩
  | readOwner _ _ => exact ⟨plan', u', hu'⟩
  | readInstallation _ _ _ _ _ => exact ⟨plan', u', hu'⟩
  | block hopen _ _ => exact hwritten (hi.held _ _ hopen).target hu'
  | insertInstallation _ _ _ _ _ _ => exact ⟨plan', u', hu'⟩
  | insertResource _ _ _ _ => exact ⟨plan', u', hu'⟩
  | @apply p i txn found pf done hopen hstage =>
    have hwrite : (s.writeTarget p txn.plan txn.index (txn.row.apply pf i)
        (applyRows p txn.plan txn.index txn.row pf i)).TargetAt q j plan' u' := hu'
    exact hwritten (hi.held _ _ hopen).target hwrite
  | clashInstallation _ _ _ _ => exact ⟨plan', u', hu'⟩
  | clashResource _ _ _ => exact ⟨plan', u', hu'⟩
  | @refuse p k plan t hmem ht _ _ =>
    have hwrite : (s.writeTarget p plan k t.refuse
        [auditRow p plan k t none .targetBlocked .error Reason.ownershipConflict.code]).TargetAt q j plan' u' := hu'
    exact hwritten ht hwrite
  | abort _ => exact ⟨plan', u', hu'⟩
  | drop _ => exact ⟨plan', u', hu'⟩
  | @create p appId releaseId release targets hnew _ _ _ hnewTargets =>
    by_cases hq : q = p
    · subst hq
      obtain ⟨hplan, hrow⟩ := hu'
      obtain rfl : (⟨appId, releaseId, refreshStatus targets, targets⟩ : Plan κ) = plan' := by
        simpa [Function.update_self] using hplan
      obtain ⟨-, found, actual, owners, installationId, hnt⟩ := hnewTargets u' (List.mem_of_getElem? hrow)
      cases (newTarget_undone hnt).symm.trans hdone
    · exact ⟨plan', u', (Function.update_of_ne hq _ _).symm.trans hu'.1, hu'.2⟩
  | other _ => exact ⟨plan', u', hu'⟩

/-- The step after which a target is done has adopted it. -/
theorem Step.adopts (hi : Invariant w s) (h : Step w s a s') {i : κ} (hbefore : ¬ ∃ i, s.DoneAs p k i)
    (hafter : s'.DoneAs p k i) : a = .apply p k ∧ ∃ plan t, Adopts w s s' p k plan t i := by
  obtain ⟨plan', t', ht', hdone, hid⟩ := hafter
  obtain ⟨plan, t, ht⟩ := h.target_before ht' hdone hi
  rcases h.target hi ht with ⟨plan'', t'', ht'', -, -, hlike⟩ | ⟨ha, j, hadopts⟩
  · obtain ⟨-, rfl⟩ := ht'.unique ht''
    exact absurd ⟨i, plan, t, ht, hlike.done.symm.trans hdone, hlike.installationId.symm.trans hid⟩ hbefore
  · obtain ⟨plan'', t'', ht'', -, hid'⟩ := hadopts.done
    obtain ⟨-, rfl⟩ := ht'.unique ht''
    obtain rfl := Option.some.inj (hid.symm.trans hid')
    exact ⟨ha, plan, t, hadopts⟩

/-- A target that is done is not applied again. -/
theorem Step.apply_undone (hi : Invariant w s) (h : Step w s (.apply p k) s') : (¬ ∃ i, s.DoneAs p k i) ∧ ∃ i, s'.DoneAs p k i := by
  cases h with
  | @apply _ i txn found pf done hopen hstage =>
    refine ⟨?_, i, (hi.adopts hopen hstage).done⟩
    rintro ⟨j, plan, t, ht, hdone, -⟩
    obtain ⟨-, rfl⟩ := (hi.held p txn hopen).target.unique ht
    cases (hi.held p txn hopen).undone.symm.trans hdone

theorem run_done {as : List (Action κ)} (hi : Invariant w s) (h : Run (Step w) s as s') {i : κ} (hd : s.DoneAs p k i) :
    s'.DoneAs p k i :=
  (h.invariant (I := fun s => Invariant w s ∧ s.DoneAs p k i)
    (fun _ _ _ hi hstep => ⟨hstep.invariant hi.1, hstep.done hi.1 hi.2⟩) ⟨hi, hd⟩).2

/-- The run of a target that is done: one step created its installation, and no other step applied it. -/
structure AppliedOnce (w : World κ σ) (s₀ : State κ σ) (as : List (Action κ)) (s : State κ σ) (p : κ) (k : Nat) (i : κ) :
    Prop where
  applied : ∃ as₁ as₂ s₁ s₂ plan t, as = as₁ ++ .apply p k :: as₂ ∧ .apply p k ∉ as₁ ∧ .apply p k ∉ as₂ ∧
    Run (Step w) s₀ as₁ s₁ ∧ Step w s₁ (.apply p k) s₂ ∧ Run (Step w) s₂ as₂ s ∧ Adopts w s₁ s₂ p k plan t i
  /-- One audit row says so. -/
  recorded : ∃ r, s.appliedRows p k = [r] ∧ r.installationId = some i

theorem applied_once {s₀ : State κ σ} {as : List (Action κ)} (h₀ : Initial s₀) (hrun : Run (Step w) s₀ as s) {i : κ}
    (hd : s.DoneAs p k i) : AppliedOnce w s₀ as s p k i := by
  have hreach : ∀ {bs u}, Run (Step w) s₀ bs u → Invariant w u := fun hbs => Reachable.invariant ⟨s₀, _, h₀, hbs⟩
  have hstart : ¬ ∃ i, s₀.DoneAs p k i := by
    rintro ⟨j, plan, t, ht, -⟩
    cases (h₀.plans p).symm.trans ht.1
  obtain ⟨as₁, a, as₂, s₁, s₂, rfl, hpre, hstep, hpost, hbefore, j, hafter⟩ :=
    Run.changes (P := fun s => ∃ i, s.DoneAs p k i) hrun hstart ⟨i, hd⟩
  obtain ⟨rfl, plan, t, hadopts⟩ := hstep.adopts (hreach hpre) hbefore hafter
  have hi₂ : Invariant w s₂ := hstep.invariant (hreach hpre)
  have hend := run_done hi₂ hpost hafter
  obtain ⟨plan₁, t₁, ht₁, hdone₁, hid₁⟩ := hd
  obtain ⟨plan₂, t₂, ht₂, -, hid₂⟩ := hend
  obtain ⟨-, rfl⟩ := ht₁.unique ht₂
  obtain rfl := Option.some.inj (hid₁.symm.trans hid₂)
  refine ⟨⟨as₁, as₂, s₁, s₂, plan, t, rfl, fun hmem => ?_, fun hmem => ?_, hpre, hstep, hpost, hadopts⟩, ?_⟩
  · obtain ⟨bs, cs, u, v, hbs, happly, hcs⟩ := hpre.split hmem
    obtain ⟨-, j, hj⟩ := happly.apply_undone (hreach hbs)
    exact hbefore ⟨j, run_done (happly.invariant (hreach hbs)) hcs hj⟩
  · obtain ⟨bs, cs, u, v, hbs, happly, hcs⟩ := hpost.split hmem
    have hu : Invariant w u := hbs.invariant (fun _ _ _ hi hstep => hstep.invariant hi) hi₂
    exact (happly.apply_undone hu).1 ⟨_, run_done hi₂ hbs hafter⟩
  · have hrec := (hreach hrun).recorded p k plan₁ t₁ ht₁
    rw [Recorded, if_pos hdone₁] at hrec
    obtain ⟨r, j, hr, hrj, htj⟩ := hrec
    exact ⟨r, hr, hrj.trans (htj.symm.trans hid₁)⟩

/-! ### What the other steps leave alone -/

/-- The steps of an apply before its commit, and its end without one. -/
def Action.quiet : Action κ → Bool
  | .start _ _ | .read _ | .insert _ | .clash _ _ | .abort _ | .drop _ _ => true
  | _ => false

theorem Step.quiet (h : Step w s a s') (ha : a.quiet = true) :
    s'.registry = s.registry ∧ s'.plan = s.plan ∧ s'.audit = s.audit := by
  cases h with
  | start _ _ _ _ => exact ⟨rfl, rfl, rfl⟩
  | readTables _ _ _ _ => exact ⟨rfl, rfl, rfl⟩
  | readOwner _ _ => exact ⟨rfl, rfl, rfl⟩
  | readInstallation _ _ _ _ _ => exact ⟨rfl, rfl, rfl⟩
  | insertInstallation _ _ _ _ _ _ => exact ⟨rfl, rfl, rfl⟩
  | insertResource _ _ _ _ => exact ⟨rfl, rfl, rfl⟩
  | clashInstallation _ _ _ _ => exact ⟨rfl, rfl, rfl⟩
  | clashResource _ _ _ => exact ⟨rfl, rfl, rfl⟩
  | abort _ => exact ⟨rfl, rfl, rfl⟩
  | drop _ => exact ⟨rfl, rfl, rfl⟩
  | replay _ _ _ _ => cases ha
  | block _ _ _ => cases ha
  | apply _ _ => cases ha
  | refuse _ _ _ _ => cases ha
  | create _ _ _ _ _ => cases ha
  | other _ => cases ha

/-- Only an applied target and the other services change the registry. -/
theorem Step.registry (h : Step w s a s') (hother : a ≠ .other) (happly : ∀ p k, a ≠ .apply p k) :
    s'.registry = s.registry := by
  by_cases hquiet : a.quiet = true
  · exact (h.quiet hquiet).1
  · cases h with
    | apply _ _ => exact absurd rfl (happly _ _)
    | other _ => exact absurd rfl hother
    | replay _ _ _ _ => rfl
    | block _ _ _ => rfl
    | refuse _ _ _ _ => rfl
    | create _ _ _ _ _ => rfl
    | _ => exact absurd rfl hquiet

/-- An apply ends blocked: one target of the plan, its status and the audit rows change. -/
structure Blocks (s s' : State κ σ) (p : κ) (k : Nat) : Prop where
  registry : s'.registry = s.registry
  plans : ∀ q, q ≠ p → s'.plan q = s.plan q
  target : ∃ plan t t', s.TargetAt p k plan t ∧ t.Like t' ∧ t'.state = .blocked ∧ s'.plan p = some (plan.setTarget k t')
  audit : ∃ rows, s'.audit = s.audit ++ rows ∧ ∀ r ∈ rows, r.planId = p ∧ r.target = some k ∧ r.outcome = .error

theorem blocks_write {plan : Plan κ} {t t' : Target κ} {rows : List (AuditRow κ)} (ht : s.TargetAt p k plan t)
    (hlike : t.Like t') (hblocked : t'.state = .blocked)
    (hrows : ∀ r ∈ rows, r.planId = p ∧ r.target = some k ∧ r.outcome = .error) :
    Blocks s (s.writeTarget p plan k t' rows) p k :=
  ⟨rfl, fun _ hq => Function.update_of_ne hq _ _, ⟨plan, t, t', ht, hlike, hblocked, Function.update_self _ _ _⟩,
    ⟨rows, rfl, hrows⟩⟩

theorem Step.blocks (hi : Invariant w s) (h : Step w s a s') (ha : a = .block p k ∨ a = .refuse p k) : Blocks s s' p k := by
  cases h with
  | @block q txn found pf hopen hstage hreason =>
    obtain ⟨rfl, rfl⟩ : q = p ∧ txn.index = k := by simpa using ha
    have hheld := hi.held q txn hopen
    refine blocks_write hheld.target (like_block hheld.undone pf) rfl fun r hr => ?_
    rw [blockRows, List.mem_cons] at hr
    rcases hr with rfl | hr
    · exact ⟨rfl, rfl, rfl⟩
    · split at hr
      · rw [List.mem_singleton] at hr
        exact hr ▸ ⟨rfl, rfl, rfl⟩
      · cases hr
  | @refuse q j plan t hmem ht hclosed hlive =>
    obtain ⟨rfl, rfl⟩ : q = p ∧ j = k := by simpa using ha
    obtain ⟨plan', t', ht', hundone, -⟩ := hi.pending q j hmem
    obtain ⟨rfl, rfl⟩ := ht'.unique ht
    have hrows : ∀ r ∈ [auditRow q plan' j t' none .targetBlocked .error Reason.ownershipConflict.code],
        r.planId = q ∧ r.target = some j ∧ r.outcome = .error := by
      intro r hr
      rw [List.mem_singleton] at hr
      exact hr ▸ ⟨rfl, rfl, rfl⟩
    obtain ⟨hreg, hplans, htarget, haudit⟩ := blocks_write ht (like_refuse hundone) rfl hrows
    exact ⟨hreg, hplans, htarget, haudit⟩
  | _ => simp at ha

/-! ### The status of a plan -/

omit [DecidableEq κ] in
theorem done_not_blocked {t : Target κ} (h : t.done = true) : t.state ≠ .blocked := by
  rintro hb
  simp [Target.done, hb] at h

omit [DecidableEq κ] in
theorem refreshStatus_spec {targets : List (Target κ)} (hne : targets ≠ []) :
    (refreshStatus targets = .applied ↔ ∀ t ∈ targets, t.done = true) ∧
    (refreshStatus targets = .partly ↔ (∃ t ∈ targets, t.done = true) ∧ ¬ ∀ t ∈ targets, t.done = true) ∧
    (refreshStatus targets = .blocked ↔ ∀ t ∈ targets, t.state = .blocked) := by
  obtain ⟨u, hu⟩ := List.exists_mem_of_ne_nil targets hne
  have hall : targets.all Target.done = true ↔ ∀ t ∈ targets, t.done = true := List.all_eq_true
  have hany : targets.any Target.done = true ↔ ∃ t ∈ targets, t.done = true := List.any_eq_true
  have hblocked : targets.all (fun t => t.state = .blocked) = true ↔ ∀ t ∈ targets, t.state = .blocked := by
    simp
  have happ : (∀ t ∈ targets, t.done = true) → ¬ ∀ t ∈ targets, t.state = .blocked :=
    fun h hb => done_not_blocked (h u hu) (hb u hu)
  have hpart : (∃ t ∈ targets, t.done = true) → ¬ ∀ t ∈ targets, t.state = .blocked := by
    rintro ⟨t, ht, hd⟩ hb
    exact done_not_blocked hd (hb t ht)
  by_cases h₁ : ∀ t ∈ targets, t.done = true
  · have hstatus : refreshStatus targets = .applied := by rw [refreshStatus, if_pos ⟨hne, hall.mpr h₁⟩]
    rw [hstatus]
    exact ⟨iff_of_true rfl h₁, iff_of_false (by simp) fun h => h.2 h₁, iff_of_false (by simp) (happ h₁)⟩
  have hnot : ¬ (targets ≠ [] ∧ targets.all Target.done = true) := fun h => h₁ (hall.mp h.2)
  by_cases h₂ : ∃ t ∈ targets, t.done = true
  · have hstatus : refreshStatus targets = .partly := by rw [refreshStatus, if_neg hnot, if_pos (hany.mpr h₂)]
    rw [hstatus]
    exact ⟨iff_of_false (by simp) h₁, iff_of_true rfl ⟨h₂, h₁⟩, iff_of_false (by simp) (hpart h₂)⟩
  have hnone : ¬ targets.any Target.done = true := fun h => h₂ (hany.mp h)
  by_cases h₃ : ∀ t ∈ targets, t.state = .blocked
  · have hstatus : refreshStatus targets = .blocked := by
      rw [refreshStatus, if_neg hnot, if_neg hnone, if_pos ⟨hne, hblocked.mpr h₃⟩]
    rw [hstatus]
    exact ⟨iff_of_false (by simp) h₁, iff_of_false (by simp) fun h => h₂ h.1, iff_of_true rfl h₃⟩
  · have hstatus : refreshStatus targets = .planned := by
      rw [refreshStatus, if_neg hnot, if_neg hnone, if_neg fun h => h₃ (hblocked.mp h.2)]
    rw [hstatus]
    exact ⟨iff_of_false (by simp) h₁, iff_of_false (by simp) fun h => h₂ h.1, iff_of_false (by simp) h₃⟩

end Akb.Adoption
