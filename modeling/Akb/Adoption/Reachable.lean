import Akb.Adoption.Steps

/-! The commit that turns a target into an installation. -/
namespace Akb.Adoption
open Akb.Library

variable {κ σ : Type} [DecidableEq κ] {w : World κ σ} {s : State κ σ} {p : κ} {plan : Plan κ} {k : Nat} {t t' : Target κ}

/-- What a preflight that passed says when all its tables are inserted. -/
theorem unclaimed_all {txn : Txn κ σ} {found : List (String × σ)} {pf : Preflight κ} {i : κ} {done : List String}
    (hi : Invariant w s) (hopen : s.opened p = some txn) (hstage : txn.stage = .inserting found pf i done []) :
    Passed w txn found pf ∧ pf.included = txn.row.allowlist.names ∧
      Unclaimed s.registry txn i txn.row.allowlist.names := by
  have hsound := hi.sound p txn hopen
  rw [Txn.Sound, hstage] at hsound
  obtain ⟨hpassed, hdone⟩ := hsound
  rw [List.append_nil] at hdone
  have hnames := hpassed.included.trans hpassed.names
  have hclaim := (hi.held p txn hopen).inserted i done ⟨found, pf, [], hstage⟩
  exact ⟨hpassed, hnames, hdone.trans hnames ▸ hclaim⟩

omit [DecidableEq κ] in
theorem Unclaimed.not_obstructs {reg : Registry κ σ} {txn : Txn κ σ} {i : κ}
    (h : Unclaimed reg txn i txn.row.allowlist.names) (hlive : reg.vault txn.row.vaultId = .live) :
    ¬ reg.Obstructs txn.plan txn.row := by
  rintro (hdel | ⟨j, hj⟩ | ⟨name, hname, hr⟩)
  · rw [hlive] at hdel
    cases hdel
  · exact h.sole j hj
  · exact hr (h.unowned name hname)

theorem adopt_installation {reg : Registry κ σ} {pf : Preflight κ} {i j : κ} :
    (reg.adopt p plan k t pf i).installation j = if j = i then some (adoptedInstallation plan t) else reg.installation j :=
  Function.update_apply _ _ _ _

theorem adopt_resource {reg : Registry κ σ} {pf : Preflight κ} {i u : κ} {n : String} :
    (reg.adopt p plan k t pf i).resource u n =
      if u = t.vaultId ∧ n ∈ pf.included then some (adoptedResource p k i) else reg.resource u n := by
  by_cases hu : u = t.vaultId
  · subst hu
    simp [Registry.adopt]
  · simp [Registry.adopt, hu]

theorem Registry.Consistent.adopt {reg : Registry κ σ} (hc : reg.Consistent) {pf : Preflight κ} {i : κ}
    (hlive : reg.vault t.vaultId = .live) (hfresh : reg.installation i = none) :
    (reg.adopt p plan k t pf i).Consistent := by
  constructor
  · intro j inst hj
    rw [adopt_installation] at hj
    split at hj
    · cases hj
      exact hlive
    · exact hc.installations j inst hj
  · intro u n r hr
    rw [adopt_resource] at hr
    split at hr
    · rename_i heq
      cases hr
      exact ⟨adoptedInstallation plan t, adopt_installation.trans (if_pos rfl), heq.1.symm⟩
    · obtain ⟨inst, hinst, hu⟩ := hc.resources u n r hr
      refine ⟨inst, ?_, hu⟩
      rw [adopt_installation, if_neg fun heq => ?_]
      · exact hinst
      · rw [heq, hfresh] at hinst
        cases hinst

/-- What is in the way of another target stays in its way. -/
theorem Registry.Obstructs.adopt {reg : Registry κ σ} {plan₀ : Plan κ} {u : Target κ} (h : reg.Obstructs plan₀ u)
    {pf : Preflight κ} {i : κ} (hfresh : reg.installation i = none) :
    (reg.adopt p plan k t pf i).Obstructs plan₀ u := by
  rcases h with hdel | ⟨j, inst, hinst, hj⟩ | ⟨name, hname, hr⟩
  · exact Or.inl hdel
  · refine Or.inr (Or.inl ⟨j, inst, ?_, hj⟩)
    rw [adopt_installation, if_neg fun heq => ?_]
    · exact hinst
    · rw [heq, hfresh] at hinst
      cases hinst
  · refine Or.inr (Or.inr ⟨name, hname, ?_⟩)
    rw [adopt_resource]
    split
    · simp
    · exact hr

/-- The uncommitted rows of another transaction are still unclaimed. -/
theorem Unclaimed.adopt {reg : Registry κ σ} {txn : Txn κ σ} {i j : κ} {done : List String} (h : Unclaimed reg txn j done)
    {pf : Preflight κ} (hne : i ≠ j) (happ : ¬ (plan.appId = txn.plan.appId ∧ t.vaultId = txn.row.vaultId))
    (hnames : t.vaultId = txn.row.vaultId → ∀ name ∈ pf.included, name ∉ done) :
    Unclaimed (reg.adopt p plan k t pf i) txn j done where
  fresh := by rw [adopt_installation, if_neg hne.symm, h.fresh]
  sole := by
    rintro j' ⟨inst, hinst, happ', hv'⟩
    rw [adopt_installation] at hinst
    split at hinst
    · cases hinst
      exact happ ⟨happ', hv'⟩
    · exact h.sole j' ⟨inst, hinst, happ', hv'⟩
  unowned name hname := by
    rw [adopt_resource, if_neg fun heq => hnames heq.1.symm name heq.2 hname]
    exact h.unowned name hname

theorem appliedRows_apply {pf : Preflight κ} {i : κ} (t' : Target κ) (q : κ) (j : Nat) :
    (s.writeTarget p plan k t' (applyRows p plan k t pf i)).appliedRows q j =
      s.appliedRows q j ++ if q = p ∧ j = k then [auditRow p plan k t (some i) .targetApplied .ok "applied"] else [] := by
  have hadopted : (pf.included.map (fun _ => auditRow p plan k t (some i) .resourceAdopted .ok "adopted")).filter
      (fun r => r.planId = q ∧ r.target = some j ∧ r.action = .targetApplied) = [] := by
    refine List.filter_eq_nil_iff.mpr fun r hr => ?_
    obtain ⟨_, -, rfl⟩ := List.mem_map.mp hr
    simp [auditRow]
  simp only [State.appliedRows, State.writeTarget, applyRows, List.filter_append, hadopted, List.nil_append]
  congr 1
  by_cases heq : q = p ∧ j = k
  · simp [auditRow, heq.1, heq.2]
  · have hne : ¬ (p = q ∧ k = j) := fun h => heq ⟨h.1.symm, h.2.symm⟩
    rw [if_neg heq]
    refine List.filter_eq_nil_iff.mpr fun r hr => ?_
    rw [List.mem_singleton] at hr
    subst hr
    simpa [auditRow] using hne

theorem appliedRows_adopted {txn : Txn κ σ} {pf : Preflight κ} {i q : κ} {j : Nat} :
    (s.adopted p txn pf i).appliedRows q j = s.appliedRows q j ++
      if q = p ∧ j = txn.index then [auditRow p txn.plan txn.index txn.row (some i) .targetApplied .ok "applied"] else [] :=
  appliedRows_apply (txn.row.apply pf i) q j

theorem opened_adopted {txn txn' : Txn κ σ} {pf : Preflight κ} {i q : κ}
    (h : (s.adopted p txn pf i).opened q = some txn') : q ≠ p ∧ s.opened q = some txn' := by
  have hwrite : (s.writeTarget p txn.plan txn.index (txn.row.apply pf i)
      (applyRows p txn.plan txn.index txn.row pf i)).opened q = some txn' := h
  exact opened_write hwrite

theorem Invariant.adopted (hi : Invariant w s) {txn : Txn κ σ} {found : List (String × σ)} {pf : Preflight κ} {i : κ}
    {done : List String} (hopen : s.opened p = some txn) (hstage : txn.stage = .inserting found pf i done []) :
    Invariant w (s.adopted p txn pf i) := by
  have hheld := hi.held p txn hopen
  obtain ⟨hpassed, hnames, hclaim⟩ := unclaimed_all hi hopen hstage
  have hinserted : txn.Inserted i done := ⟨found, pf, [], hstage⟩
  have hdone : done = pf.included := by
    have hsound := hi.sound p txn hopen
    rw [Txn.Sound, hstage] at hsound
    exact (List.append_nil done).symm.trans hsound.2
  refine ⟨?_, ?_, ?_, ?_, ?_, ?_, ?_, ?_⟩
  · exact hi.consistent.adopt hheld.live hclaim.fresh
  · exact fun q txn' hq => hi.sound q txn' (opened_adopted hq).2
  · intro q txn' hq
    obtain ⟨hqp, hq⟩ := opened_adopted hq
    have hq' := hi.held q txn' hq
    have hplan : (s.adopted p txn pf i).plan q = s.plan q := by
      simp [State.adopted, State.writeTarget, Function.update_of_ne hqp]
    refine ⟨⟨hplan.trans hq'.target.1, hq'.target.2⟩, hq'.undone, hq'.live, hq'.tables, fun j done' hj => ?_⟩
    obtain ⟨hne, happ, hdisj⟩ := hi.apart p q txn txn' i j done done' (Ne.symm hqp) hopen hq hinserted hj
    exact (hq'.inserted j done' hj).adopt hne happ fun hv => hdone ▸ hdisj hv
  · exact fun q r txn₁ txn₂ j j' d d' hne hq hr => hi.apart q r txn₁ txn₂ j j' d d' hne (opened_adopted hq).2 (opened_adopted hr).2
  · intro q j hmem
    obtain ⟨plan₀, u, hu, hundone, hobs⟩ := hi.pending q j hmem
    have hne : ¬ (q = p ∧ j = txn.index) := by
      rintro ⟨rfl, rfl⟩
      obtain rfl := Option.some.inj (hheld.target.1.symm.trans hu.1)
      obtain rfl := Option.some.inj (hheld.target.2.symm.trans hu.2)
      exact hclaim.not_obstructs hheld.live hobs
    obtain ⟨plan', hu', happ, -⟩ := targetAt_kept (txn.row.apply pf i)
      (applyRows p txn.plan txn.index txn.row pf i) hheld.target.1 hu hne
    exact ⟨plan', u, hu', hundone, (hobs.like ⟨rfl, rfl, rfl, rfl⟩ happ).adopt hclaim.fresh⟩
  · intro q plan' hq
    by_cases hqp : q = p
    · subst hqp
      have hset : txn.plan.setTarget txn.index (txn.row.apply pf i) = plan' := by
        simpa [State.adopted, State.writeTarget] using hq
      obtain ⟨hne, -⟩ := hi.status q txn.plan hheld.target.1
      exact hset ▸ ⟨by simpa [Plan.setTarget] using hne, rfl⟩
    · exact hi.status q plan' (by simpa [State.adopted, State.writeTarget, Function.update_of_ne hqp] using hq)
  · intro q j plan' u hu
    rw [appliedRows_adopted]
    rcases targetAt_write (applyRows p txn.plan txn.index txn.row pf i) hheld.target.1 hu with ⟨hqp, hu⟩ | ⟨rfl, -, ⟨rfl, rfl, -⟩ | ⟨hj, hu⟩⟩
    · rw [if_neg fun heq => hqp heq.1, List.append_nil]
      exact hi.recorded q j plan' u hu
    · have hold : s.appliedRows q txn.index = [] := by
        have hrec := hi.recorded q _ txn.plan txn.row hheld.target
        rwa [Recorded, hheld.undone, if_neg Bool.false_ne_true] at hrec
      have hdone' : (txn.row.apply pf i).done = true := rfl
      rw [if_pos ⟨rfl, rfl⟩, hold, Recorded, if_pos hdone']
      exact ⟨_, i, rfl, rfl, rfl⟩
    · rw [if_neg fun heq => hj heq.2, List.append_nil]
      exact hi.recorded q j txn.plan u hu
  · intro q j hq
    have hqp : q ≠ p := by
      rintro rfl
      simp [State.adopted, State.writeTarget] at hq
    rw [appliedRows_adopted, if_neg fun heq => hqp heq.1, List.append_nil]
    exact hi.unplanned q j (by simpa [State.adopted, State.writeTarget, Function.update_of_ne hqp] using hq)

end Akb.Adoption

/-! Every step keeps the invariant, and with it every run. -/
namespace Akb.Adoption
open Akb.Library

variable {κ σ : Type} [DecidableEq κ] {w : World κ σ} {s : State κ σ} {p : κ}

/-! ### New plans -/

omit [DecidableEq κ] in
/-- A new target is planned or blocked. -/
theorem newTarget_undone {vaultId : κ} {allowlist : Allowlist} {pf : Preflight κ} {t : Target κ}
    (h : newTarget vaultId allowlist pf = some t) : t.done = false := by
  obtain ⟨expected, -, rfl⟩ := Option.map_eq_some_iff.mp h
  by_cases hreason : pf.reason = none
  · simp [Target.done, hreason]
  · simp [Target.done, hreason]

/-- A plan that did not exist before. -/
def State.created (s : State κ σ) (p : κ) (plan : Plan κ) (row : AuditRow κ) : State κ σ :=
  { s with plan := Function.update s.plan p (some plan), audit := s.audit ++ [row] }

theorem plan_created_of_ne {plan : Plan κ} {row : AuditRow κ} {q : κ} (hq : q ≠ p) :
    (s.created p plan row).plan q = s.plan q := Function.update_of_ne hq _ _

theorem plan_created {plan : Plan κ} {row : AuditRow κ} : (s.created p plan row).plan p = some plan :=
  Function.update_self _ _ _

theorem appliedRows_created {plan : Plan κ} {row : AuditRow κ} (hrow : row.target = none) (q : κ) (j : Nat) :
    (s.created p plan row).appliedRows q j = s.appliedRows q j := by
  have hnone : [row].filter (fun r => r.planId = q ∧ r.target = some j ∧ r.action = .targetApplied) = [] := by
    simp [hrow]
  simp only [State.appliedRows, State.created, List.filter_append, hnone, List.append_nil]

theorem Invariant.created (hi : Invariant w s) {plan : Plan κ} {row : AuditRow κ} (hnew : s.plan p = none)
    (hopen : s.opened p = none) (hrow : row.target = none) (hne : plan.targets ≠ [])
    (hstatus : plan.status = refreshStatus plan.targets) (hundone : ∀ t ∈ plan.targets, t.done = false) :
    Invariant w (s.created p plan row) where
  consistent := hi.consistent
  sound := hi.sound
  held q txn hq := by
    refine (hi.held q txn hq).of_opened (plan_created_of_ne ?_) rfl
    rintro rfl
    have hq' : s.opened q = some txn := hq
    rw [hopen] at hq'
    cases hq'
  apart := hi.apart
  pending q j hmem := by
    obtain ⟨plan₀, u, hu, hrest⟩ := hi.pending q j hmem
    refine ⟨plan₀, u, ⟨(plan_created_of_ne ?_).trans hu.1, hu.2⟩, hrest⟩
    rintro rfl
    cases hnew.symm.trans hu.1
  status q plan' hq := by
    by_cases hqp : q = p
    · subst hqp
      obtain rfl := Option.some.inj (plan_created.symm.trans hq)
      exact ⟨hne, hstatus⟩
    · exact hi.status q plan' ((plan_created_of_ne hqp).symm.trans hq)
  recorded q j plan' u hu := by
    rw [appliedRows_created hrow]
    by_cases hqp : q = p
    · subst hqp
      obtain rfl := Option.some.inj (plan_created.symm.trans hu.1)
      rw [Recorded, hundone u (List.mem_of_getElem? hu.2), if_neg Bool.false_ne_true]
      exact hi.unplanned q j hnew
    · exact hi.recorded q j plan' u ⟨(plan_created_of_ne hqp).symm.trans hu.1, hu.2⟩
  unplanned q j hq := by
    rw [appliedRows_created hrow]
    refine hi.unplanned q j ?_
    by_cases hqp : q = p
    · exact hqp ▸ hnew
    · exact (plan_created_of_ne hqp).symm.trans hq

/-! ### The other services -/

theorem Invariant.change (hi : Invariant w s) {reg : Registry κ σ} (h : Change s reg) :
    Invariant w { s with registry := reg } where
  consistent := h.consistent hi.consistent
  sound := hi.sound
  held p txn hopen :=
    have hheld := hi.held p txn hopen
    { target := hheld.target
      undone := hheld.undone
      live := h.live hopen hheld.live
      tables := fun t ht => h.tables hopen ht (hheld.tables t ht)
      inserted := fun i done hins => h.unclaimed hopen hins (hheld.inserted i done hins) }
  apart := hi.apart
  pending p k hmem := by
    obtain ⟨plan, t, ht, hundone, hobs⟩ := hi.pending p k hmem
    exact ⟨plan, t, ht, hundone, h.obstructs hobs⟩
  status := hi.status
  recorded := hi.recorded
  unplanned := hi.unplanned

/-! ### What the commits write -/

omit [DecidableEq κ] in
theorem like_replay {t : Target κ} (h : t.done = true) : t.Like t.replay := ⟨rfl, rfl, h.symm, rfl⟩

omit [DecidableEq κ] in
theorem like_block {t : Target κ} (h : t.done = false) (pf : Preflight κ) : t.Like (t.block pf) := ⟨rfl, rfl, h.symm, rfl⟩

omit [DecidableEq κ] in
theorem like_refuse {t : Target κ} (h : t.done = false) : t.Like t.refuse := ⟨rfl, rfl, h.symm, rfl⟩

omit [DecidableEq κ] in
theorem blockRows_action (plan : Plan κ) (k : Nat) (t : Target κ) (pf : Preflight κ) {r : AuditRow κ}
    (h : r ∈ blockRows p plan k t pf) : r.action ≠ .targetApplied := by
  rw [blockRows, List.mem_cons] at h
  rcases h with rfl | h
  · simp [auditRow]
  · split at h
    · rw [List.mem_singleton] at h
      subst h
      simp [auditRow]
    · cases h

/-! ### Reading and inserting -/

omit [DecidableEq κ] in
theorem Passed.to {txn : Txn κ σ} {found : List (String × σ)} {pf : Preflight κ} (h : Passed w txn found pf)
    (stage : Stage κ σ) : Passed w (txn.to stage) found pf := ⟨h.names, h.included, h.fingerprint, h.expected⟩

/-- A transaction goes on reading. -/
theorem Invariant.read (hi : Invariant w s) {txn : Txn κ σ} {stage : Stage κ σ} (hopen : s.opened p = some txn)
    (hs : (txn.to stage).Sound w) (htables : ∀ t ∈ stage.found, s.registry.table txn.row.vaultId t.1 = some t.2)
    (h : ∀ found pf i done rest, stage ≠ .inserting found pf i done rest) :
    Invariant w (s.setOpen p (some (txn.to stage))) := by
  have hnone : ∀ i done, ¬ (txn.to stage).Inserted i done := by
    rintro i done ⟨found, pf, rest, heq⟩
    exact h found pf i done rest heq
  exact hi.reopen hs ((hi.held p txn hopen).to htables fun i done hins => absurd hins (hnone i done))
    fun q txn' _ _ => disjoint_of_not_inserted hnone

theorem Invariant.insertInstallation (hi : Invariant w s) {txn : Txn κ σ} {found : List (String × σ)} {pf : Preflight κ}
    {i : κ} (hopen : s.opened p = some txn) (hstage : txn.stage = .checked found pf) (hreason : pf.reason = none)
    (hfresh : s.registry.installation i = none) (hsole : ∀ j, ¬ s.registry.Installed txn.plan.appId txn.row.vaultId j)
    (hother : ∀ q txn' j done, s.opened q = some txn' → txn'.Inserted j done →
      j ≠ i ∧ ¬ (txn'.plan.appId = txn.plan.appId ∧ txn'.row.vaultId = txn.row.vaultId)) :
    Invariant w (s.setOpen p (some (txn.to (.inserting found pf i [] pf.included)))) := by
  have hsound := hi.sound p txn hopen
  rw [Txn.Sound, hstage] at hsound
  have hheld := hi.held p txn hopen
  have htables := hheld.tables
  rw [hstage] at htables
  refine hi.reopen ⟨(hsound hreason).to _, rfl⟩ (hheld.to htables fun j done hins => ?_) fun q txn' hq hq' => ?_
  · obtain ⟨found', pf', rest, heq⟩ := hins
    cases heq
    exact ⟨hfresh, hsole, fun name hname => by cases hname⟩
  · rintro j j' done done' ⟨found', pf', rest, heq⟩ hj'
    cases heq
    obtain ⟨hne, happ⟩ := hother q txn' j' done' hq' hj'
    exact ⟨hne.symm, fun h => happ ⟨h.1.symm, h.2.symm⟩, fun _ name hname => by cases hname⟩

theorem Invariant.insertResource (hi : Invariant w s) {txn : Txn κ σ} {found : List (String × σ)} {pf : Preflight κ}
    {i : κ} {name : String} {done rest : List String} (hopen : s.opened p = some txn)
    (hstage : txn.stage = .inserting found pf i done (name :: rest))
    (hfree : s.registry.resource txn.row.vaultId name = none)
    (hother : ∀ q txn' j done', q ≠ p → s.opened q = some txn' → txn'.Inserted j done' →
      txn'.row.vaultId = txn.row.vaultId → name ∉ done') :
    Invariant w (s.setOpen p (some (txn.to (.inserting found pf i (done ++ [name]) rest)))) := by
  have hsound := hi.sound p txn hopen
  rw [Txn.Sound, hstage] at hsound
  have hheld := hi.held p txn hopen
  have htables := hheld.tables
  rw [hstage] at htables
  have hins : txn.Inserted i done := ⟨found, pf, name :: rest, hstage⟩
  have hclaim := hheld.inserted i done hins
  refine hi.reopen ⟨hsound.1.to _, by rw [← hsound.2, List.append_assoc]; rfl⟩
    (hheld.to htables fun j done' hins' => ?_) fun q txn' hq hq' => ?_
  · obtain ⟨found', pf', rest', heq⟩ := hins'
    cases heq
    refine ⟨hclaim.fresh, hclaim.sole, fun n hn => ?_⟩
    rcases List.mem_append.mp hn with hn | hn
    · exact hclaim.unowned n hn
    · rw [List.mem_singleton] at hn
      exact hn ▸ hfree
  · rintro j j' done₁ done' ⟨found', pf', rest', heq⟩ hj'
    cases heq
    obtain ⟨hne, happ, hnames⟩ := hi.apart p q txn txn' i j' done done' (Ne.symm hq) hopen hq' hins hj'
    refine ⟨hne, happ, fun hv n hn => ?_⟩
    rcases List.mem_append.mp hn with hn | hn
    · exact hnames hv n hn
    · rw [List.mem_singleton] at hn
      exact hn ▸ hother q txn' j' done' hq hq' hj' hv.symm

/-- A table that the transaction has still to insert is on its allow-list. -/
theorem Invariant.mem_allowlist (hi : Invariant w s) {txn : Txn κ σ} {found : List (String × σ)} {pf : Preflight κ}
    {i : κ} {name : String} {done rest : List String} (hopen : s.opened p = some txn)
    (hstage : txn.stage = .inserting found pf i done (name :: rest)) : name ∈ txn.row.allowlist.names := by
  have hsound := hi.sound p txn hopen
  rw [Txn.Sound, hstage] at hsound
  rw [← hsound.1.names, ← hsound.1.included, ← hsound.2]
  simp

/-! ### One step -/

theorem Step.invariant {s' : State κ σ} {a : Action κ} (hi : Invariant w s) (h : Step w s a s') : Invariant w s' := by
  cases h with
  | @replay p k plan t ht hclosed hlive hdone =>
    refine hi.writeTarget ht (like_replay hdone) fun r hr => ?_
    rw [List.mem_singleton] at hr
    subst hr
    simp [auditRow]
  | @start p k plan t ht hclosed hlive hundone =>
    have hnone : ∀ i done, ¬ (⟨k, plan, t, .locked⟩ : Txn κ σ).Inserted i done := by
      rintro i done ⟨found, pf, rest, heq⟩
      cases heq
    refine hi.reopen trivial ⟨ht, hundone, hlive, fun t ht => ?_, fun i done hins => absurd hins (hnone i done)⟩
      fun q txn' _ _ => disjoint_of_not_inserted hnone
    cases ht
  | readTables hopen hstage hrel hfp =>
    exact hi.read hopen ⟨found_sublist _ _ _, hfp⟩ (fun t ht => mem_foundTables ht) fun _ _ _ _ _ heq => by cases heq
  | readOwner hopen hstage =>
    have hsound := hi.sound _ _ hopen
    have htables := (hi.held _ _ hopen).tables
    rw [Txn.Sound, hstage] at hsound
    rw [hstage] at htables
    exact hi.read hopen hsound htables fun _ _ _ _ _ heq => by cases heq
  | @readInstallation p txn found actual owners installationId release hopen hstage hsome hnone hrel =>
    have hsound := hi.sound p txn hopen
    have htables := (hi.held p txn hopen).tables
    rw [Txn.Sound, hstage] at hsound
    rw [hstage] at htables
    exact hi.read hopen (fun hreason => (passed_of_reason hsound.1 hsound.2 hrel txn.row hreason).to _) htables
      fun _ _ _ _ _ heq => by cases heq
  | @block p txn found pf hopen hstage hreason =>
    have hheld := hi.held p txn hopen
    exact hi.writeTarget hheld.target (like_block hheld.undone pf) fun r hr => blockRows_action _ _ _ _ hr
  | insertInstallation hopen hstage hreason hfresh hsole hother =>
    exact hi.insertInstallation hopen hstage hreason hfresh hsole hother
  | insertResource hopen hstage hfree hother => exact hi.insertResource hopen hstage hfree hother
  | apply hopen hstage => exact hi.adopted hopen hstage
  | @clashInstallation p i txn found pf hopen hstage hreason hinst =>
    have hheld := hi.held p txn hopen
    refine (hi.close p).wait fun q j hmem => ?_
    rcases List.mem_cons.mp hmem with heq | hmem
    · cases heq
      exact Or.inr ⟨txn.plan, txn.row, hheld.target, hheld.undone, Or.inr (Or.inl ⟨i, hinst⟩)⟩
    · exact Or.inl hmem
  | @clashResource p i txn found pf name done rest r hopen hstage hr =>
    have hheld := hi.held p txn hopen
    refine (hi.close p).wait fun q j hmem => ?_
    rcases List.mem_cons.mp hmem with heq | hmem
    · cases heq
      refine Or.inr ⟨txn.plan, txn.row, hheld.target, hheld.undone, Or.inr (Or.inr ⟨name, hi.mem_allowlist hopen hstage, ?_⟩)⟩
      simp [State.setOpen, hr]
    · exact Or.inl hmem
  | @refuse p k plan t hmem ht hclosed hlive =>
    obtain ⟨plan', t', ht', hundone, -⟩ := hi.pending p k hmem
    obtain rfl := Option.some.inj (ht'.1.symm.trans ht.1)
    obtain rfl := Option.some.inj (ht'.2.symm.trans ht.2)
    have hwrite : Invariant w (s.writeTarget p plan' k t'.refuse
        [auditRow p plan' k t' none .targetBlocked .error Reason.ownershipConflict.code]) := by
      refine hi.writeTarget ht (like_refuse hundone) fun r hr => ?_
      rw [List.mem_singleton] at hr
      subst hr
      simp [auditRow]
    exact hwrite.wait fun q j hq => Or.inl (List.mem_of_mem_erase hq)
  | abort hopen => exact hi.close _
  | drop hmem => exact hi.wait fun q j hq => Or.inl (List.mem_of_mem_erase hq)
  | @create p appId releaseId release targets hnew hopen hrel hne hnewTargets =>
    have hundone : ∀ t ∈ targets, t.done = false := by
      intro t ht
      obtain ⟨-, found, actual, owners, installationId, hnt⟩ := hnewTargets t ht
      exact newTarget_undone hnt
    have hplan : (⟨appId, releaseId, refreshStatus targets, targets⟩ : Plan κ).targets = targets := rfl
    exact hi.created hnew hopen rfl (hplan ▸ hne) rfl hundone
  | other h => exact hi.change h

theorem Reachable.invariant (h : Reachable w s) : Invariant w s := by
  obtain ⟨s₀, as, hinit, hrun⟩ := h
  exact hrun.invariant (fun _ _ _ hi hstep => hstep.invariant hi) hinit.invariant

end Akb.Adoption
