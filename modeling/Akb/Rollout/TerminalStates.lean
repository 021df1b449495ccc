import Akb.Rollout.BatchGate

/-! Terminal states of a rollout are final, as long as every target is processed
while it is still to be processed, and no claim overtakes another of its batch. -/
namespace Akb.Rollout
open Akb.Library
variable {κ ω : Type} [LinearOrder κ] [DecidableEq ω] {s s' : Ledger κ ω} {w : ω}

namespace Ledger

/-- A target is processed while it runs, or while it is pending again and nothing
else of its job runs. -/
def Timely (s : Ledger κ ω) : LedgerAction κ ω → Prop
  | .commitClaim w => ∀ tx t, s.workers w = .claiming tx → tx.stage = .locked (some t) →
      (t.jobId, t.batchNo) ∉ tx.overtaken
  | .processTarget w _ => ∀ t, s.workers w = .working t → ∀ r ∈ s.targets, r.id = t.id →
      r.state = .running ∨ r.state = .pending ∧ ∀ r' ∈ s.targets, r'.jobId = r.jobId → r'.state ≠ .running
  | _ => True

omit [LinearOrder κ] [DecidableEq ω] in
theorem Timely.undisturbed {a : LedgerAction κ ω} (h : s.Timely a) : s.Undisturbed a := by
  cases a with
  | commitClaim w => exact h
  | processTarget w execution =>
    intro t ht r hr hid
    rcases h t ht r hr hid with hstate | ⟨hstate, _⟩ <;> rw [hstate] <;> rfl
  | _ => trivial

/-- A blocked job has nothing left to do, and one with nothing left but settled
targets has been applied. -/
structure Outcomes (s : Ledger κ ω) : Prop where
  held : ∀ w t, s.workers w = .working t → ∃ r ∈ s.targets, r.Same t
  blocked : ∀ j ∈ s.jobs, j.status = .blocked → ∀ r ∈ s.targets, r.jobId = j.id → r.state ≠ .pending ∧ r.state ≠ .running
  applied : ∀ j ∈ s.jobs, (∀ r ∈ s.targets, r.jobId = j.id → r.state.settled = true) → j.status = .applied

omit [LinearOrder κ] [DecidableEq ω] in
private theorem Inserts.outcomes {jobId : κ} (hi : s.Inserts s' jobId) (ho : s.Outcomes)
    (hjob : ∀ r ∈ s.targets, ∃ j ∈ s.jobs, j.id = r.jobId) : s'.Outcomes := by
  have hold : ∀ r ∈ s.targets, r.jobId ≠ jobId := by
    intro r hr he
    obtain ⟨j, hj, hid⟩ := hjob r hr
    exact hi.newJob j hj (hid.trans he)
  refine ⟨?_, ?_, ?_⟩
  · intro w t ht
    rw [hi.workers] at ht
    obtain ⟨r, hr, hsame⟩ := ho.held w t ht
    exact ⟨r, hi.oldTargets r hr, hsame⟩
  · intro j hj hb r hr hrj
    rcases hi.jobs j hj with hj | ⟨_, hstatus | ⟨hstatus, _⟩⟩
    · rcases hi.targets r hr with hr | ⟨hjob', _⟩
      · exact ho.blocked j hj hb r hr hrj
      · exact absurd (hrj.symm.trans hjob') (hi.newJob j hj)
    · rw [hb] at hstatus
      cases hstatus
    · rw [hb] at hstatus
      cases hstatus
  · intro j hj hall
    rcases hi.jobs j hj with hj | ⟨hid, hstatus | ⟨_, r, hr, hrj, hpend⟩⟩
    · exact ho.applied j hj (fun r hr => hall r (hi.oldTargets r hr))
    · exact hstatus
    · have hsettled := hall r hr (hrj.trans hid.symm)
      rw [hpend] at hsettled
      cases hsettled

omit [LinearOrder κ] [DecidableEq ω] in
/-- A step that touches neither targets nor jobs. -/
private theorem Outcomes.of_same (ho : s.Outcomes) (htargets : s'.targets = s.targets) (hjobs : s'.jobs = s.jobs)
    (hworkers : ∀ v t, s'.workers v = .working t → s.workers v = .working t) : s'.Outcomes := by
  refine ⟨?_, ?_, ?_⟩
  · intro v t ht
    rw [htargets]
    exact ho.held v t (hworkers v t ht)
  · rw [htargets, hjobs]
    exact ho.blocked
  · rw [htargets, hjobs]
    exact ho.applied

omit [LinearOrder κ] in
private theorem working_of_setWorker {x : Worker κ ω} (hx : ∀ t, x ≠ .working t) {v : ω} {t : Target κ ω}
    (h : s.setWorker w x v = .working t) : s.workers v = .working t := by
  rw [setWorker] at h
  split at h
  · exact absurd h (hx t)
  · exact h

private theorem Outcomes.commitClaim (ho : s.Outcomes) (hs : s.ClaimsSound) (h : s.commitClaim w = some s') :
    s'.Outcomes := by
  obtain ⟨tx, found, htx, hstage, hrows, _, _, hrest⟩ := commitClaim_spec h
  have hc := hs.claims w tx htx
  have hsame := committed_same w tx found
  have hmem : ∀ r', r' ∈ s'.targets ↔ ∃ r ∈ s.targets, committed w tx found r = r' := by
    intro r'
    rw [Table.mem_def, hrows, List.mem_map]
    rfl
  have hkept : ∀ t, (∃ r ∈ s.targets, r.Same t) → ∃ r ∈ s'.targets, r.Same t := by
    rintro t ⟨r, hr, h₁, h₂, h₃⟩
    have := hsame r
    exact ⟨_, (hmem _).mpr ⟨r, hr, rfl⟩, this.id.trans h₁, this.jobId.trans h₂, this.batchNo.trans h₃⟩
  have hjob : ∀ j' ∈ s'.jobs, ∃ j ∈ s.jobs, j.id = j'.id ∧ (j'.status = .blocked → j.status = .blocked) ∧
      (j.status = .applied → j'.status = .applied) := by
    intro j' hj'
    rcases hrest with ⟨_, hjobs, _⟩ | ⟨t, _, hjobs, _⟩
    · exact ⟨j', hjobs ▸ hj', rfl, id, id⟩
    · rw [hjobs] at hj'
      obtain ⟨j, hj, rfl⟩ := (mem_setJob Job.start_id).mp hj'
      refine ⟨j, hj, ?_⟩
      by_cases hid : j.id = t.jobId
      · rw [if_pos hid, Job.start]
        split
        case isTrue hp => simp [hp]
        case isFalse => exact ⟨rfl, id, id⟩
      · rw [if_neg hid]
        exact ⟨rfl, id, id⟩
  refine ⟨?_, ?_, ?_⟩
  · intro v t ht
    rcases hrest with ⟨_, _, hworkers⟩ | ⟨t₀, hsome, _, hworkers⟩
    · rw [hworkers] at ht
      exact hkept t (ho.held v t (working_of_setWorker (by rintro _ ⟨⟩) ht))
    · rw [hworkers, overtake] at ht
      split at ht
      · cases ht
        exact hkept t (hc.locked t (hsome ▸ hstage)).1.known
      · cases hv : s.workers v with
        | working t' =>
          rw [hv] at ht
          cases ht
          exact hkept t (ho.held v t hv)
        | claiming tx' =>
          rw [hv] at ht
          cases ht
        | idle =>
          rw [hv] at ht
          cases ht
  · intro j' hj' hb r' hr' hrj
    obtain ⟨j, hj, hid, hblocked, _⟩ := hjob j' hj'
    obtain ⟨r, hr, rfl⟩ := (hmem r').mp hr'
    obtain ⟨hpending, hrunning⟩ := ho.blocked j hj (hblocked hb) r hr (by rw [hid, ← hrj, (hsame r).jobId])
    rw [committed_idle hs htx hstage hr hpending hrunning]
    exact ⟨hpending, hrunning⟩
  · intro j' hj' hall
    obtain ⟨j, hj, hid, _, happlied⟩ := hjob j' hj'
    refine happlied (ho.applied j hj ?_)
    intro r hr hrj
    have hsettled := hall _ ((hmem _).mpr ⟨r, hr, rfl⟩) (by rw [(hsame r).jobId, hrj, hid])
    by_cases hmoved : committed w tx found r = r
    · rwa [hmoved] at hsettled
    · -- A row that the commit moves is pending or running after it.
      unfold committed at hsettled hmoved
      split at hsettled
      · cases hsettled
      · split at hsettled
        · cases hsettled
        · exact hsettled

private theorem Outcomes.processTarget (ho : s.Outcomes) (hserial : s.Serial) {execution : Execution}
    (hg : s.Timely (.processTarget w execution)) (h : s.processTarget w execution = some s') :
    s'.Outcomes ∧ ∀ j ∈ s.jobs, j.status = .blocked → ∀ j' ∈ s'.jobs, j'.id = j.id → j'.status = .blocked := by
  obtain ⟨t, ht, rfl, _⟩ := processTarget_spec h
  obtain ⟨r₀, hr₀, hsame₀⟩ := ho.held w t ht
  have hstate := hg t ht r₀ hr₀ hsame₀.id
  have hmoved := s.moved_same t execution
  have hmem : ∀ r', r' ∈ (s.processed t execution).targets ↔ ∃ r ∈ s.targets, s.moved t execution r = r' := by
    intro r'
    rw [Table.mem_def, processed_rows, List.mem_map]
    rfl
  have hrow₀ := (hmem _).mpr ⟨r₀, hr₀, rfl⟩
  have hjob₀ : (s.moved t execution r₀).jobId = t.jobId := (hmoved r₀).jobId.trans hsame₀.jobId
  -- The job of the target is not blocked: the target has not ended yet.
  have hopen : ∀ j ∈ s.jobs, j.id = t.jobId → j.status ≠ .blocked := by
    intro j hj hid hb
    obtain ⟨hpending, hrunning⟩ := ho.blocked j hj hb r₀ hr₀ (hsame₀.jobId.trans hid.symm)
    rcases hstate with hs | ⟨hs, _⟩
    · exact hrunning hs
    · exact hpending hs
  have hother : ∀ r ∈ s.targets, r.jobId ≠ t.jobId → s.moved t execution r = r := by
    intro r hr hne
    by_contra hm
    by_cases hid : r.id = t.id
    · exact hne (Table.eq_of_key hr hr₀ (hid.trans hsame₀.id.symm) ▸ hsame₀.jobId)
    · exact hne (moved_of_ne hid hm).2.1
  have hheld : ∀ v t', s.setWorker w .idle v = .working t' → ∃ r ∈ (s.processed t execution).targets, r.Same t' := by
    intro v t' hv
    obtain ⟨r, hr, h₁, h₂, h₃⟩ := ho.held v t' (working_of_setWorker (by rintro _ ⟨⟩) hv)
    exact ⟨_, (hmem _).mpr ⟨r, hr, rfl⟩, (hmoved r).id.trans h₁, (hmoved r).jobId.trans h₂, (hmoved r).batchNo.trans h₃⟩
  -- What holds of the other jobs is what held.
  have hrest : ∀ j ∈ s.jobs, j.id ≠ t.jobId →
      (j.status = .blocked → ∀ r' ∈ (s.processed t execution).targets, r'.jobId = j.id →
        r'.state ≠ .pending ∧ r'.state ≠ .running) ∧
      ((∀ r' ∈ (s.processed t execution).targets, r'.jobId = j.id → r'.state.settled = true) → j.status = .applied) := by
    intro j hj hne
    refine ⟨?_, ?_⟩
    · intro hb r' hr' hrj
      obtain ⟨r, hr, rfl⟩ := (hmem r').mp hr'
      rw [(hmoved r).jobId] at hrj
      rw [hother r hr (hrj ▸ hne)]
      exact ho.blocked j hj hb r hr hrj
    · intro hall
      refine ho.applied j hj (fun r hr hrj => ?_)
      rw [← hother r hr (hrj ▸ hne)]
      exact hall _ ((hmem _).mpr ⟨r, hr, rfl⟩) ((hmoved r).jobId.trans hrj)
  -- So only the target's own job is left, whose row the processing changes by `f`.
  have finish : ∀ f : Job κ → Job κ, (∀ j, (f j).id = j.id) →
      (∀ j' ∈ (s.processed t execution).jobs, ∃ j ∈ s.jobs, (if j.id = t.jobId then f j else j) = j') →
      (∀ j, (f j).status = .blocked → j.status ≠ .blocked → ∀ r' ∈ (s.processed t execution).targets, r'.jobId = t.jobId →
        r'.state ≠ .pending ∧ r'.state ≠ .running) →
      ((∀ r' ∈ (s.processed t execution).targets, r'.jobId = t.jobId → r'.state.settled = true) →
        ∀ j, (f j).status = .applied) →
      ({ s.processed t execution with workers := s.setWorker w .idle } : Ledger κ ω).Outcomes ∧
        ∀ j ∈ s.jobs, j.status = .blocked → ∀ j' ∈ (s.processed t execution).jobs, j'.id = j.id → j'.status = .blocked := by
    intro f hf hjobs hblocked happlied
    refine ⟨⟨hheld, ?_, ?_⟩, ?_⟩
    · intro j' hj' hb r' hr' hrj
      obtain ⟨j, hj, rfl⟩ := hjobs j' hj'
      by_cases hid : j.id = t.jobId
      · rw [if_pos hid] at hb hrj
        exact hblocked j hb (hopen j hj hid) r' hr' (by rw [hrj, hf, hid])
      · rw [if_neg hid] at hb hrj
        exact (hrest j hj hid).1 hb r' hr' hrj
    · intro j' hj' hall
      obtain ⟨j, hj, rfl⟩ := hjobs j' hj'
      by_cases hid : j.id = t.jobId
      · rw [if_pos hid] at hall ⊢
        exact happlied (fun r' hr' hrj => hall r' hr' (by rw [hrj, hf, hid])) j
      · rw [if_neg hid] at hall ⊢
        exact (hrest j hj hid).2 hall
    · intro j hj hb j' hj' hid'
      obtain ⟨j₁, hj₁, rfl⟩ := hjobs j' hj'
      by_cases hid : j₁.id = t.jobId
      · rw [if_pos hid, hf] at hid'
        exact absurd hb (hopen j hj (hid'.symm.trans hid))
      · rw [if_neg hid] at hid' ⊢
        rwa [Table.eq_of_key hj₁ hj hid']
  rcases s.processed_cases t execution with ⟨reason, _, hp, hm⟩ | ⟨hp, hm⟩ | ⟨fingerprint, hp, hm⟩
  · refine finish (Job.block reason) (fun _ => rfl) ?_ ?_ ?_
    · intro j' hj'
      rw [hp] at hj'
      exact (mem_setJob (f := Job.block reason) (fun _ => rfl)).mp hj'
    · intro _ _ _ r' hr' hrj
      obtain ⟨r, hr, rfl⟩ := (hmem r').mp hr'
      rw [(hmoved r).jobId] at hrj
      rw [hm]
      by_cases hid : r.id = t.id
      · rw [if_pos hid]
        exact ⟨by rintro ⟨⟩, by rintro ⟨⟩⟩
      · rw [if_neg hid]
        by_cases hpend : r.state = .pending
        · rw [if_pos ⟨hrj, hpend⟩]
          exact ⟨by rintro ⟨⟩, by rintro ⟨⟩⟩
        · rw [if_neg (fun he => hpend he.2)]
          refine ⟨hpend, fun hrun => ?_⟩
          rcases hstate with hs | ⟨_, hnone⟩
          · exact hid (((hserial r₀ hr₀ hs).2 r hr (hrj.trans hsame₀.jobId.symm) hrun).trans hsame₀.id)
          · exact hnone r hr (hrj.trans hsame₀.jobId.symm) hrun
    · intro hall
      have hsettled := hall _ hrow₀ hjob₀
      rw [hm, if_pos hsame₀.id] at hsettled
      cases hsettled
  · refine finish id (fun _ => rfl) ?_ ?_ ?_
    · intro j' hj'
      rw [hp] at hj'
      exact ⟨j', hj', by simp⟩
    · exact fun j hb hnot => absurd hb hnot
    · intro hall
      have hsettled := hall _ hrow₀ hjob₀
      rw [hm, if_pos hsame₀.id] at hsettled
      cases hsettled
  · let remaining := (s.processed t execution).targets.rows.any (fun r => r.jobId = t.jobId && !r.state.settled)
    refine finish (Job.advance (if remaining then .running else .applied)) (fun _ => rfl) ?_ ?_ ?_
    · intro j' hj'
      rw [hp] at hj'
      simp only [remaining, hp]
      exact (mem_setJob (f := Job.advance _) (fun _ => rfl)).mp hj'
    · intro j hb
      rw [Job.advance] at hb
      dsimp only at hb
      split at hb <;> cases hb
    · intro hall j
      have hnone : remaining = false := by
        refine List.any_eq_false.mpr (fun r hr => ?_)
        by_cases hrj : r.jobId = t.jobId
        · simp [hall r hr hrj]
        · simp [hrj]
      rw [hnone]
      rfl

/-- A settled target stays as it is, whatever the step. -/
private theorem settled_kept (hs : s.ClaimsSound) {a : LedgerAction κ ω} (hg : s.Undisturbed a) (h : s.step a s')
    {r : Target κ ω} (hr : r ∈ s.targets) (hsettled : r.state.settled = true) : r ∈ s'.targets := by
  cases a with
  | persistRolloutJob appId releaseId jobId targets => exact (insertJob_spec h).oldTargets r hr
  | resumeRollout sourceId releaseId jobId ids => exact (resumeRollout_spec h).oldTargets r hr
  | reclaim w =>
    obtain ⟨_, _, _, rfl⟩ := reclaim_spec h
    exact hr
  | takeSnapshot w =>
    obtain ⟨_, _, _, rfl⟩ := takeSnapshot_spec h
    exact hr
  | claimTarget w skipped =>
    obtain ⟨_, _, _, _, _, _, rfl⟩ := claimTarget_spec h
    exact hr
  | commitClaim w =>
    obtain ⟨tx, found, htx, hstage, hrows, _⟩ := commitClaim_spec h
    rw [Table.mem_def, hrows]
    exact List.mem_map.mpr ⟨r, hr, committed_settled hs htx hstage hr hsettled⟩
  | processTarget w execution =>
    obtain ⟨t, ht, rfl, _⟩ := processTarget_spec h
    rw [Table.mem_def, processed_rows]
    exact List.mem_map.mpr ⟨r, hr, moved_settled (hg t ht r hr) hsettled⟩
  | stop w =>
    cases h
    exact hr
  | change i =>
    cases h
    exact hr
  | elapse seconds =>
    cases h
    exact hr

/-- The rest of a step: outcomes are kept and blocked jobs stay blocked. -/
private theorem outcomes_step (ho : s.Outcomes) (hs : s.ClaimsSound) (hserial : s.Serial) {a : LedgerAction κ ω}
    (hg : s.Timely a) (h : s.step a s') :
    s'.Outcomes ∧ ∀ j ∈ s.jobs, j.status = .blocked → ∃ j' ∈ s'.jobs, j'.id = j.id ∧ j'.status = .blocked := by
  have hsame : s'.targets = s.targets → s'.jobs = s.jobs →
      (∀ v t, s'.workers v = .working t → s.workers v = .working t) →
      s'.Outcomes ∧ ∀ j ∈ s.jobs, j.status = .blocked → ∃ j' ∈ s'.jobs, j'.id = j.id ∧ j'.status = .blocked :=
    fun htargets hjobs hworkers => ⟨ho.of_same htargets hjobs hworkers, fun j hj hb => ⟨j, hjobs ▸ hj, rfl, hb⟩⟩
  cases a with
  | persistRolloutJob appId releaseId jobId targets =>
    have hi := insertJob_spec h
    exact ⟨hi.outcomes ho hs.hasJob, fun j hj hb => ⟨j, hi.oldJobs j hj, rfl, hb⟩⟩
  | resumeRollout sourceId releaseId jobId ids =>
    have hi := resumeRollout_spec h
    exact ⟨hi.outcomes ho hs.hasJob, fun j hj hb => ⟨j, hi.oldJobs j hj, rfl, hb⟩⟩
  | reclaim w =>
    obtain ⟨_, _, _, rfl⟩ := reclaim_spec h
    exact hsame rfl rfl (fun v t ht => working_of_setWorker (by rintro _ ⟨⟩) ht)
  | takeSnapshot w =>
    obtain ⟨_, _, _, rfl⟩ := takeSnapshot_spec h
    exact hsame rfl rfl (fun v t ht => working_of_setWorker (by rintro _ ⟨⟩) ht)
  | claimTarget w skipped =>
    obtain ⟨_, _, _, _, _, _, rfl⟩ := claimTarget_spec h
    exact hsame rfl rfl (fun v t ht => working_of_setWorker (by rintro _ ⟨⟩) ht)
  | commitClaim w =>
    refine ⟨ho.commitClaim hs h, ?_⟩
    obtain ⟨_, _, _, _, _, _, _, hrest⟩ := commitClaim_spec h
    intro j hj hb
    rcases hrest with ⟨_, hjobs, _⟩ | ⟨t, _, hjobs, _⟩
    · exact ⟨j, hjobs ▸ hj, rfl, hb⟩
    · refine ⟨_, hjobs ▸ (mem_setJob Job.start_id).mpr ⟨j, hj, rfl⟩, ?_⟩
      split
      · exact ⟨Job.start_id j, by simp [Job.start, hb]⟩
      · exact ⟨rfl, hb⟩
  | processTarget w execution =>
    obtain ⟨houtcomes, hblocked⟩ := ho.processTarget hserial hg h
    refine ⟨houtcomes, fun j hj hb => ?_⟩
    obtain ⟨_, _, hf, _⟩ := step_follows hs hg.undisturbed h
    obtain ⟨j', hj', hid⟩ := hf.jobs j hj
    exact ⟨j', hj', hid, hblocked j hj hb j' hj' hid⟩
  | stop w =>
    cases h
    exact hsame rfl rfl (fun v t ht => working_of_setWorker (by rintro _ ⟨⟩) ht)
  | change i =>
    cases h
    exact hsame rfl rfl (fun v t ht => ht)
  | elapse seconds =>
    cases h
    exact hsame rfl rfl (fun v t ht => ht)

/-- What the runs that meet the condition keep. -/
def Reached (s : Ledger κ ω) : Prop := (s.ClaimsSound ∧ s.Serial) ∧ s.Outcomes

omit [DecidableEq ω] in
private theorem reached_empty (now : Int) : (Ledger.empty now : Ledger κ ω).Reached :=
  ⟨⟨.empty now, fun t ht => absurd ht (Table.not_mem_empty t)⟩, by rintro _ _ ⟨⟩,
    fun j hj => absurd hj (Table.not_mem_empty j), fun j hj => absurd hj (Table.not_mem_empty j)⟩

private theorem Reached.step (hs : s.Reached) {a : LedgerAction κ ω} (h : Guarded Ledger.step Timely s a s') :
    s'.Reached :=
  ⟨serial_step hs.1 h.2.undisturbed h.1, (outcomes_step hs.2 hs.1.1 hs.1.2 h.2 h.1).1⟩

/-- From any state of a timely run, a timely run keeps applied targets applied and
blocked jobs blocked, and ends jobs whose targets are all settled as applied. -/
theorem terminal_states_final {now : Int} {actions later : List (LedgerAction κ ω)}
    (h : Run (Guarded Ledger.step Timely) (Ledger.empty now) actions s)
    (h' : Run (Guarded Ledger.step Timely) s later s') :
    (∀ r ∈ s.targets, r.state = .applied → r ∈ s'.targets ∧
      ∀ w execution t u, Guarded Ledger.step Timely s' (.processTarget w execution) u → s'.workers w = .working t →
        t.id = r.id → ∀ i ∈ u.installations, i.id = r.installationId → i.lifecycle = .blocked → i ∈ s'.installations) ∧
    (∀ j ∈ s.jobs, j.status = .blocked → ∃ j' ∈ s'.jobs, j'.id = j.id ∧ j'.status = .blocked) ∧
    ∀ j ∈ s'.jobs, (∀ r ∈ s'.targets, r.jobId = j.id → r.state.settled = true) → j.status = .applied := by
  have hs : s.Reached := h.invariant (fun _ _ _ hi ha => hi.step ha) (reached_empty now)
  have hs' : s'.Reached := h'.invariant (fun _ _ _ hi ha => hi.step ha) hs
  have hkept : ∀ r ∈ s.targets, r.state = .applied → r ∈ s'.targets := by
    intro r hr happlied
    refine (Run.invariant (I := fun u => u.Reached ∧ r ∈ u.targets) ?_ h' ⟨hs, hr⟩).2
    rintro u a v ⟨hu, hmem⟩ ha
    exact ⟨hu.step ha, settled_kept hu.1.1 ha.2.undisturbed ha.1 hmem (by rw [happlied]; rfl)⟩
  refine ⟨fun r hr happlied => ⟨hkept r hr happlied, ?_⟩, ?_, hs'.2.applied⟩
  · intro w execution t u hstep ht hid
    rcases hstep.2 t ht r (hkept r hr happlied) hid.symm with hstate | ⟨hstate, _⟩ <;>
      · rw [happlied] at hstate
        cases hstate
  · intro j hj hb
    refine (Run.invariant (I := fun u => u.Reached ∧ ∃ j' ∈ u.jobs, j'.id = j.id ∧ j'.status = .blocked)
      ?_ h' ⟨hs, j, hj, rfl, hb⟩).2
    rintro u a v ⟨hu, j₁, hj₁, hid₁, hb₁⟩ ha
    obtain ⟨j₂, hj₂, hid₂, hb₂⟩ := (outcomes_step hu.2 hu.1.1 hu.1.2 ha.2 ha.1).2 j₁ hj₁ hb₁
    exact ⟨hu.step ha, j₂, hj₂, hid₂.trans hid₁, hb₂⟩

end Ledger

/-- The lease of the first worker runs out while it is still at work. A second one
takes its target over; both process it, one after the other. -/
def ownersOverlap : List (LedgerAction Nat Nat) :=
  [waiting 1, .persistRolloutJob 0 7 5 [(11, 1)]] ++ claimed 1 ++ [.elapse 121] ++ claimed 2 ++
    [.processTarget 1 (.converged "f")]

/-- Two siblings run at once; the first one fails. -/
def siblingFails : List (LedgerAction Nat Nat) :=
  claimsOverlap ++ [.commitClaim 2, .processTarget 1 (.failed .stepFailed)]

/-- The second owner takes an applied target back and blocks its installation; the
second sibling sets a blocked job running again. -/
theorem second_processing_reopens :
    (∃ s s' : Ledger Nat Nat, Run Ledger.step (Ledger.empty 0) ownersOverlap s ∧
      s.step (.processTarget 2 (.converged "f")) s' ∧
      (∃ t ∈ s.targets, t.id = 11 ∧ t.state = .applied) ∧ (∃ t ∈ s'.targets, t.id = 11 ∧ t.state = .failed) ∧
      ∃ i ∈ s'.installations, i.id = 1 ∧ i.lifecycle = .blocked) ∧
    ∃ s s' : Ledger Nat Nat, Run Ledger.step (Ledger.empty 0) siblingFails s ∧
      s.step (.processTarget 2 (.converged "f")) s' ∧
      (∃ j ∈ s.jobs, j.id = 5 ∧ j.status = .blocked) ∧ ∃ j ∈ s'.jobs, j.id = 5 ∧ j.status = .running := by
  constructor
  · obtain ⟨s, hs, s', hs', hrows⟩ : ∃ s : Ledger Nat Nat,
        execute Ledger.next (Ledger.empty 0) ownersOverlap = some s ∧
        ∃ s', s.next (.processTarget 2 (.converged "f")) = some s' ∧
        (∃ t ∈ s.targets.rows, t.id = 11 ∧ t.state = .applied) ∧ (∃ t ∈ s'.targets.rows, t.id = 11 ∧ t.state = .failed) ∧
        ∃ i ∈ s'.installations.rows, i.id = 1 ∧ i.lifecycle = .blocked := ⟨_, rfl, _, rfl, by decide⟩
    exact ⟨s, s', run_of_execute hs, hs', hrows⟩
  · obtain ⟨s, hs, s', hs', hrows⟩ : ∃ s : Ledger Nat Nat,
        execute Ledger.next (Ledger.empty 0) siblingFails = some s ∧
        ∃ s', s.next (.processTarget 2 (.converged "f")) = some s' ∧
        (∃ j ∈ s.jobs.rows, j.id = 5 ∧ j.status = .blocked) ∧ ∃ j ∈ s'.jobs.rows, j.id = 5 ∧ j.status = .running :=
      ⟨_, rfl, _, rfl, by decide⟩
    exact ⟨s, s', run_of_execute hs, hs', hrows⟩

/-- A job of one target, and then a claim that finds nothing more to do. -/
theorem one_target_final :
    ∃ s s' : Ledger Nat Nat,
      Run (Guarded Ledger.step Ledger.Timely) (Ledger.empty 0)
        ([waiting 1, .persistRolloutJob 0 7 5 [(11, 1)]] ++ claimed 1 ++ [.processTarget 1 (.converged "f")]) s ∧
      Run (Guarded Ledger.step Ledger.Timely) s (claimed 2) s' ∧
      ∃ r ∈ s.targets, r.state = .applied ∧ r ∈ s'.targets := by
  obtain ⟨s, s', hs, hs', r, hr, happlied⟩ : ∃ s s' : Ledger Nat Nat,
      Run (Guarded Ledger.step Ledger.Timely) (Ledger.empty 0)
        ([waiting 1, .persistRolloutJob 0 7 5 [(11, 1)]] ++ claimed 1 ++ [.processTarget 1 (.converged "f")]) s ∧
      Run (Guarded Ledger.step Ledger.Timely) s (claimed 2) s' ∧ ∃ r ∈ s.targets.rows, r.state = .applied := by
    refine ⟨_, _, .cons ⟨rfl, trivial⟩ (.cons ⟨rfl, trivial⟩ (.cons ⟨rfl, trivial⟩ (.cons ⟨rfl, trivial⟩
      (.cons ⟨rfl, trivial⟩ (.cons ⟨rfl, ?_⟩ (.cons ⟨rfl, ?_⟩ (.nil _))))))), .cons ⟨rfl, trivial⟩
      (.cons ⟨rfl, trivial⟩ (.cons ⟨rfl, trivial⟩ (.cons ⟨rfl, ?_⟩ (.nil _)))), by decide⟩
    · rintro tx t htx hstage
      cases htx
      cases hstage
      decide
    · rintro t ht
      cases ht
      decide
    · rintro tx t htx hstage
      cases htx
      cases hstage
  exact ⟨s, s', hs, hs', r, hr, happlied, ((Ledger.terminal_states_final hs hs').1 r hr happlied).1⟩

end Akb.Rollout
