import Akb.Adoption.Invariant

/-! Every step keeps the invariant. -/
namespace Akb.Adoption
open Akb.Library

variable {κ σ : Type} {w : World κ σ} {s : State κ σ}

/-! ### Preflight -/

theorem found_sublist (reg : Registry κ σ) (v : κ) (allowlist : List String) :
    ((foundTables reg v allowlist).map Prod.fst).Sublist allowlist := by
  induction allowlist with
  | nil => exact List.Sublist.slnil
  | cons name rest ih =>
    rw [foundTables, List.filterMap_cons]
    cases reg.table v name with
    | none => exact ih.cons _
    | some schema => exact ih.cons_cons _

theorem mem_foundTables {reg : Registry κ σ} {v : κ} {allowlist : List String} {t : String × σ}
    (h : t ∈ foundTables reg v allowlist) : reg.table v t.1 = some t.2 := by
  obtain ⟨name, -, hname⟩ := List.mem_filterMap.mp h
  obtain ⟨schema, hschema, rfl⟩ := Option.map_eq_some_iff.mp hname
  exact hschema

/-- A preflight without a reason has found every table, with the fingerprint of the release. -/
theorem passed_of_reason {txn : Txn κ σ} {found : List (String × σ)} {actual : String} {owners : List (String × κ)}
    {installationId : Option κ} {release : Release} (hsub : (found.map Prod.fst).Sublist txn.row.allowlist.names)
    (hfp : w.fingerprint found = some actual)
    (hrel : w.release txn.plan.appId txn.plan.baselineReleaseId = some release) (t : Target κ)
    (hreason : ((fetchPreflight txn.row.allowlist (found.map Prod.fst) actual owners installationId
      release.expected).sincePlanned t).reason = none) :
    Passed w txn found ((fetchPreflight txn.row.allowlist (found.map Prod.fst) actual owners installationId
      release.expected).sincePlanned t) := by
  have hsame : (fetchPreflight txn.row.allowlist (found.map Prod.fst) actual owners installationId
      release.expected).sincePlanned t = fetchPreflight txn.row.allowlist (found.map Prod.fst) actual owners
        installationId release.expected := by
    rw [Preflight.sincePlanned] at hreason ⊢
    split at hreason
    · cases hreason
    · rename_i hcond
      rw [if_neg hcond]
  rw [hsame] at hreason ⊢
  simp only [fetchPreflight] at hreason
  split at hreason
  · cases hreason
  rename_i hmissing
  split at hreason
  · cases hreason
  split at hreason
  · cases hreason
  split at hreason
  · cases hreason
  split at hreason
  · cases hreason
  rename_i hexpected
  refine ⟨?_, rfl, hfp, release, hrel, ?_⟩
  · refine hsub.eq_of_length (le_antisymm hsub.length_le ?_)
    refine (List.subperm_of_subset txn.row.allowlist.nodup fun name hname => ?_).length_le
    by_contra hnot
    exact hmissing (List.ne_nil_of_mem (List.mem_filter.mpr ⟨hname, by simpa using hnot⟩))
  · exact (not_not.mp hexpected).symm

/-! ### Transactions -/

theorem Held.of_opened {s s' : State κ σ} {p : κ} {txn : Txn κ σ} (h : Held s p txn) (hplan : s'.plan p = s.plan p)
    (hreg : s'.registry = s.registry) : Held s' p txn where
  target := ⟨hplan.trans h.target.1, h.target.2⟩
  undone := h.undone
  live := hreg ▸ h.live
  tables := hreg ▸ h.tables
  inserted := hreg ▸ h.inserted

/-- The uncommitted rows of two transactions differ. -/
def Disjoint (txn txn' : Txn κ σ) : Prop :=
  ∀ i j done done', txn.Inserted i done → txn'.Inserted j done' →
    i ≠ j ∧ ¬ (txn.plan.appId = txn'.plan.appId ∧ txn.row.vaultId = txn'.row.vaultId) ∧
      (txn.row.vaultId = txn'.row.vaultId → ∀ name ∈ done, name ∉ done')

theorem Disjoint.symm {txn txn' : Txn κ σ} (h : Disjoint txn txn') : Disjoint txn' txn := by
  intro i j done done' hi hj
  obtain ⟨hne, happ, hnames⟩ := h j i done' done hj hi
  refine ⟨hne.symm, fun heq => happ ⟨heq.1.symm, heq.2.symm⟩, fun hv name hname hname' => ?_⟩
  exact hnames hv.symm name hname' hname

/-- A transaction that has inserted nothing yet is disjoint from every other. -/
theorem disjoint_of_not_inserted {txn txn' : Txn κ σ} (h : ∀ i done, ¬ txn.Inserted i done) : Disjoint txn txn' :=
  fun i _ done _ hi _ => absurd hi (h i done)

theorem Held.to {p : κ} {txn : Txn κ σ} (h : Held s p txn) {stage : Stage κ σ}
    (htables : ∀ t ∈ stage.found, s.registry.table txn.row.vaultId t.1 = some t.2)
    (hins : ∀ i done, (txn.to stage).Inserted i done → Unclaimed s.registry txn i done) : Held s p (txn.to stage) where
  target := h.target
  undone := h.undone
  live := h.live
  tables := htables
  inserted i done hi := ⟨(hins i done hi).fresh, (hins i done hi).sole, (hins i done hi).unowned⟩

/-! ### Opening, reading and inserting -/

variable [DecidableEq κ]

theorem opened_cases {p q : κ} {o : Option (Txn κ σ)} {txn : Txn κ σ} (h : (s.setOpen p o).opened q = some txn) :
    (q = p ∧ o = some txn) ∨ (q ≠ p ∧ s.opened q = some txn) := by
  by_cases hq : q = p
  · subst hq
    exact Or.inl ⟨rfl, by simpa [State.setOpen] using h⟩
  · exact Or.inr ⟨hq, by simpa [State.setOpen, Function.update_of_ne hq] using h⟩

theorem Invariant.reopen (hi : Invariant w s) {p : κ} {txn : Txn κ σ} (hs : txn.Sound w) (hh : Held s p txn)
    (ha : ∀ q txn', q ≠ p → s.opened q = some txn' → Disjoint txn txn') : Invariant w (s.setOpen p (some txn)) where
  consistent := hi.consistent
  sound q txn' hq := by
    rcases opened_cases hq with ⟨-, heq⟩ | ⟨-, hq⟩
    · exact Option.some.inj heq ▸ hs
    · exact hi.sound q txn' hq
  held q txn' hq := by
    rcases opened_cases hq with ⟨rfl, heq⟩ | ⟨-, hq⟩
    · exact (Option.some.inj heq ▸ hh).of_opened rfl rfl
    · exact (hi.held q txn' hq).of_opened rfl rfl
  apart q r txn₁ txn₂ i j done done' hne hq hr h₁ h₂ := by
    rcases opened_cases hq with ⟨rfl, heq⟩ | ⟨hqp, hq'⟩ <;> rcases opened_cases hr with ⟨rfl, heq'⟩ | ⟨hrp, hr'⟩
    · exact absurd rfl hne
    · cases heq
      exact ha r txn₂ hrp hr' i j done done' h₁ h₂
    · cases heq'
      exact (ha q txn₁ hqp hq').symm i j done done' h₁ h₂
    · exact hi.apart q r txn₁ txn₂ i j done done' hne hq' hr' h₁ h₂
  pending := hi.pending
  status := hi.status
  recorded := hi.recorded
  unplanned := hi.unplanned

theorem Invariant.close (hi : Invariant w s) (p : κ) : Invariant w (s.setOpen p none) where
  consistent := hi.consistent
  sound q txn' hq := by
    rcases opened_cases hq with ⟨-, heq⟩ | ⟨-, hq⟩
    · cases heq
    · exact hi.sound q txn' hq
  held q txn' hq := by
    rcases opened_cases hq with ⟨-, heq⟩ | ⟨-, hq⟩
    · cases heq
    · exact (hi.held q txn' hq).of_opened rfl rfl
  apart q r txn₁ txn₂ i j done done' hne hq hr h₁ h₂ := by
    rcases opened_cases hq with ⟨-, heq⟩ | ⟨-, hq⟩ <;> rcases opened_cases hr with ⟨-, heq'⟩ | ⟨-, hr⟩
    · cases heq
    · cases heq
    · cases heq'
    · exact hi.apart q r txn₁ txn₂ i j done done' hne hq hr h₁ h₂
  pending := hi.pending
  status := hi.status
  recorded := hi.recorded
  unplanned := hi.unplanned

/-- The handlers may only wait for targets that something is in the way of. -/
theorem Invariant.wait (hi : Invariant w s) {handlers : List (κ × Nat)} (h : ∀ p k, (p, k) ∈ handlers →
    (p, k) ∈ s.handlers ∨ ∃ plan t, s.TargetAt p k plan t ∧ t.done = false ∧ s.registry.Obstructs plan t) :
    Invariant w { s with handlers := handlers } where
  consistent := hi.consistent
  sound := hi.sound
  held p txn hopen := (hi.held p txn hopen).of_opened rfl rfl
  apart := hi.apart
  pending p k hmem := (h p k hmem).elim (hi.pending p k) id
  status := hi.status
  recorded := hi.recorded
  unplanned := hi.unplanned

end Akb.Adoption

/-! Commits keep the invariant, and with them every run. -/
namespace Akb.Adoption
open Akb.Library

variable {κ σ : Type} [DecidableEq κ] {w : World κ σ} {s : State κ σ} {p : κ} {plan : Plan κ} {k : Nat} {t t' : Target κ}

/-! ### Writing one target -/

/-- What a commit that adopts nothing leaves of a target. -/
structure Target.Like (t t' : Target κ) : Prop where
  vaultId : t'.vaultId = t.vaultId
  allowlist : t'.allowlist = t.allowlist
  done : t'.done = t.done
  installationId : t'.installationId = t.installationId

/-- Where a target of the state after the write comes from. -/
theorem targetAt_write (rows : List (AuditRow κ)) {q : κ} {j : Nat} {plan' : Plan κ} {u : Target κ}
    (hplan : s.plan p = some plan) (h : (s.writeTarget p plan k t' rows).TargetAt q j plan' u) :
    (q ≠ p ∧ s.TargetAt q j plan' u) ∨ (q = p ∧ plan' = plan.setTarget k t' ∧
      ((j = k ∧ u = t' ∧ k < plan.targets.length) ∨ (j ≠ k ∧ s.TargetAt p j plan u))) := by
  obtain ⟨hq, hu⟩ := h
  by_cases hqp : q = p
  · subst hqp
    have hset : plan.setTarget k t' = plan' := by simpa [State.writeTarget] using hq
    subst hset
    refine Or.inr ⟨rfl, rfl, ?_⟩
    by_cases hj : j = k
    · subst hj
      have hlt : j < plan.targets.length := by
        obtain ⟨hlen, -⟩ := List.getElem?_eq_some_iff.mp hu
        simpa [Plan.setTarget] using hlen
      refine Or.inl ⟨rfl, ?_, hlt⟩
      simpa [Plan.setTarget, hlt] using hu.symm
    · exact Or.inr ⟨hj, hplan, by simpa [Plan.setTarget, List.getElem?_set_ne (Ne.symm hj)] using hu⟩
  · exact Or.inl ⟨hqp, by simpa [State.writeTarget, Function.update_of_ne hqp] using hq, hu⟩

/-- A target other than the one written is still there. -/
theorem targetAt_kept (t' : Target κ) (rows : List (AuditRow κ)) {q : κ} {j : Nat} {plan₀ : Plan κ} {u : Target κ}
    (hplan : s.plan p = some plan) (h : s.TargetAt q j plan₀ u) (hne : ¬ (q = p ∧ j = k)) :
    ∃ plan', (s.writeTarget p plan k t' rows).TargetAt q j plan' u ∧ plan'.appId = plan₀.appId ∧
      plan'.baselineReleaseId = plan₀.baselineReleaseId := by
  obtain ⟨hq, hu⟩ := h
  by_cases hqp : q = p
  · subst hqp
    obtain rfl := Option.some.inj (hplan.symm.trans hq)
    have hj : k ≠ j := fun hkj => hne ⟨rfl, hkj.symm⟩
    exact ⟨plan.setTarget k t', ⟨by simp [State.writeTarget], by simpa [Plan.setTarget, List.getElem?_set_ne hj] using hu⟩,
      rfl, rfl⟩
  · exact ⟨plan₀, ⟨by simpa [State.writeTarget, Function.update_of_ne hqp] using hq, hu⟩, rfl, rfl⟩

theorem targetAt_written (t' : Target κ) (rows : List (AuditRow κ)) (h : s.TargetAt p k plan t) :
    (s.writeTarget p plan k t' rows).TargetAt p k (plan.setTarget k t') t' := by
  obtain ⟨hlen, -⟩ := List.getElem?_eq_some_iff.mp h.2
  exact ⟨by simp [State.writeTarget], by simp [Plan.setTarget, hlen]⟩

/-- The audit rows of one target, when rows of another action are added. -/
theorem appliedRows_write {rows : List (AuditRow κ)} (hrows : ∀ r ∈ rows, r.action ≠ .targetApplied) (q : κ) (j : Nat) :
    (s.writeTarget p plan k t' rows).appliedRows q j = s.appliedRows q j := by
  have hnone : rows.filter (fun r => r.planId = q ∧ r.target = some j ∧ r.action = .targetApplied) = [] := by
    refine List.filter_eq_nil_iff.mpr fun r hr => ?_
    simp [hrows r hr]
  simp only [State.appliedRows, State.writeTarget, List.filter_append, hnone, List.append_nil]

omit [DecidableEq κ] in
theorem Recorded.like {rows : List (AuditRow κ)} (h : Recorded rows t) (hlike : t.Like t') : Recorded rows t' := by
  rw [Recorded, hlike.done]
  rw [Recorded] at h
  split
  · rename_i hdone
    rw [if_pos hdone] at h
    obtain ⟨r, i, hr, hri, hti⟩ := h
    exact ⟨r, i, hr, hri, hlike.installationId.trans hti⟩
  · rename_i hdone
    rwa [if_neg hdone] at h

omit [DecidableEq κ] in
theorem Registry.Obstructs.like {reg : Registry κ σ} {plan' : Plan κ} (h : reg.Obstructs plan t) (hlike : t.Like t')
    (happ : plan'.appId = plan.appId) : reg.Obstructs plan' t' := by
  rw [Registry.Obstructs, hlike.vaultId, hlike.allowlist, happ]
  exact h

theorem opened_write {rows : List (AuditRow κ)} {q : κ} {txn : Txn κ σ}
    (h : (s.writeTarget p plan k t' rows).opened q = some txn) : q ≠ p ∧ s.opened q = some txn := by
  by_cases hq : q = p
  · subst hq
    simp [State.writeTarget] at h
  · exact ⟨hq, by simpa [State.writeTarget, Function.update_of_ne hq] using h⟩

/-- The transactions of other plans do not see the write. -/
theorem Held.write {rows : List (AuditRow κ)} {q : κ} {txn : Txn κ σ} (h : Held s q txn) (hq : q ≠ p) :
    Held (s.writeTarget p plan k t' rows) q txn :=
  h.of_opened (by simp [State.writeTarget, Function.update_of_ne hq]) rfl

theorem Invariant.writeTarget (hi : Invariant w s) (ht : s.TargetAt p k plan t) (hlike : t.Like t')
    {rows : List (AuditRow κ)} (hrows : ∀ r ∈ rows, r.action ≠ .targetApplied) :
    Invariant w (s.writeTarget p plan k t' rows) where
  consistent := hi.consistent
  sound q txn hq := hi.sound q txn (opened_write hq).2
  held q txn hq := (hi.held q txn (opened_write hq).2).write (opened_write hq).1
  apart q r txn₁ txn₂ i j done done' hne hq hr := hi.apart q r txn₁ txn₂ i j done done' hne (opened_write hq).2 (opened_write hr).2
  pending q j hmem := by
    obtain ⟨plan₀, u, hu, hundone, hobs⟩ := hi.pending q j hmem
    by_cases heq : q = p ∧ j = k
    · obtain ⟨rfl, rfl⟩ := heq
      obtain rfl := Option.some.inj (ht.1.symm.trans hu.1)
      obtain rfl := Option.some.inj (ht.2.symm.trans hu.2)
      exact ⟨_, _, targetAt_written t' rows ht, hlike.done.trans hundone, hobs.like hlike rfl⟩
    · obtain ⟨plan', hu', happ, -⟩ := targetAt_kept t' rows ht.1 hu heq
      exact ⟨plan', u, hu', hundone, hobs.like ⟨rfl, rfl, rfl, rfl⟩ happ⟩
  status q plan' hq := by
    by_cases hqp : q = p
    · subst hqp
      have hset : plan.setTarget k t' = plan' := by simpa [State.writeTarget] using hq
      obtain ⟨hne, -⟩ := hi.status q plan ht.1
      exact hset ▸ ⟨by simpa [Plan.setTarget] using hne, rfl⟩
    · exact hi.status q plan' (by simpa [State.writeTarget, Function.update_of_ne hqp] using hq)
  recorded q j plan' u hu := by
    rw [appliedRows_write hrows]
    rcases targetAt_write rows ht.1 hu with ⟨-, hu⟩ | ⟨rfl, -, ⟨rfl, rfl, -⟩ | ⟨-, hu⟩⟩
    · exact hi.recorded q j plan' u hu
    · exact (hi.recorded q j plan t ht).like hlike
    · exact hi.recorded q j plan u hu
  unplanned q j hq := by
    rw [appliedRows_write hrows]
    refine hi.unplanned q j ?_
    by_cases hqp : q = p
    · subst hqp
      simp [State.writeTarget] at hq
    · simpa [State.writeTarget, Function.update_of_ne hqp] using hq

end Akb.Adoption
