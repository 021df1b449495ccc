import Akb.Rollout.Ledger

/-! What one step of the rollout ledger can do to the targets, to the locks and to
the other workers. -/
namespace Akb.Rollout
open Akb.Library
variable {κ ω : Type} [LinearOrder κ] [DecidableEq ω] {s s' : Ledger κ ω} {w : ω}

/-- The columns of a target that never change. -/
structure Target.Same (r' r : Target κ ω) : Prop where
  id : r'.id = r.id
  jobId : r'.jobId = r.jobId
  batchNo : r'.batchNo = r.batchNo

omit [LinearOrder κ] [DecidableEq ω] in
theorem Target.Same.refl (r : Target κ ω) : r.Same r := ⟨rfl, rfl, rfl⟩

namespace Ledger

omit [LinearOrder κ] in
theorem setWorker_of_ne {x : Worker κ ω} {v : ω} (h : some w ≠ some v) : s.setWorker w x v = s.workers v :=
  if_neg (fun hv => h (congrArg some hv.symm))

omit [LinearOrder κ] in
theorem setWorker_self (s : Ledger κ ω) (w : ω) (x : Worker κ ω) : s.setWorker w x w = x := if_pos rfl

theorem reclaim_spec (h : s.reclaim w = some s') :
    s.workers w = .idle ∧ ∃ ids : List κ,
      (∀ id ∈ ids, s.rowLocks id = none ∧ ∃ r ∈ s.targets, r.id = id ∧ r.state = .running) ∧
      s' = { s with
        rowLocks := fun id => if id ∈ ids then some w else s.rowLocks id
        workers := s.setWorker w (.claiming ⟨s.now, ids, .reclaimed, []⟩) } := by
  rw [reclaim] at h
  split at h
  case h_2 => cases h
  case h_1 hidle =>
    obtain ⟨hfree, hs'⟩ := Option.ite_none_right_eq_some.mp h
    refine ⟨hidle, _, ?_, (Option.some.inj hs').symm⟩
    intro id hid
    refine ⟨by simpa using List.all_eq_true.mp hfree id hid, ?_⟩
    obtain ⟨r, hr, rfl⟩ := List.mem_map.mp hid
    obtain ⟨hmem, hexp⟩ := List.mem_filter.mp hr
    rw [expired, Bool.and_eq_true, Bool.and_eq_true] at hexp
    exact ⟨r, hmem, rfl, by simpa using hexp.1.1⟩

theorem takeSnapshot_spec (h : s.takeSnapshot w = some s') :
    ∃ tx, s.workers w = .claiming tx ∧ tx.stage = .reclaimed ∧
      s' = { s with workers := s.setWorker w (.claiming { tx with
        stage := .reading (s.targets.rows.map (fun t => if t.id ∈ tx.reclaimed then t.withdraw else t))
        overtaken := [] }) } := by
  rw [takeSnapshot] at h
  split at h
  case h_2 => cases h
  case h_1 tx htx =>
    obtain ⟨hstage, hs'⟩ := Option.ite_none_right_eq_some.mp h
    exact ⟨tx, htx, hstage, (Option.some.inj hs').symm⟩

theorem claimTarget_spec {skipped : List κ} (h : s.claimTarget w skipped = some s') :
    ∃ tx snapshot found, s.workers w = .claiming tx ∧ tx.stage = .reading snapshot ∧
      (∀ t, found = some t → t ∈ snapshot ∧ t.eligible snapshot = true ∧
        (s.rowLocks t.id = none ∨ s.rowLocks t.id = some w) ∧
        (t.id ∈ tx.reclaimed ∨ ∃ r ∈ s.targets, r.id = t.id ∧ r.state = .pending)) ∧
      s' = { s with
        rowLocks := fun id => if found.any (fun t => t.id = id) then some w else s.rowLocks id
        workers := s.setWorker w (.claiming { tx with stage := .locked found }) } := by
  rw [claimTarget] at h
  split at h
  case h_2 => cases h
  case h_1 tx htx =>
    split at h
    case h_2 => cases h
    case h_1 snapshot hstage =>
      refine ⟨tx, snapshot, _, htx, hstage, ?_, (Option.some.inj h).symm⟩
      intro t ht
      have hmem := List.mem_filter.mp ((List.mem_insertionSort _).mp (List.mem_of_find?_eq_some ht))
      have hav := List.find?_some ht
      simp only [Bool.and_eq_true, Bool.or_eq_true, decide_eq_true_eq, List.any_eq_true] at hav
      exact ⟨hmem.1, hmem.2, hav.1.1, hav.2⟩

/-- What a commit does to a row: the reclaimed ones are pending again, and then
the target that was found is running. -/
def committed (w : ω) (tx : ClaimTx κ ω) (found : Option (Target κ ω)) (r : Target κ ω) : Target κ ω :=
  if found.any (fun t => t.id = r.id) then
    (if r.id ∈ tx.reclaimed then r.withdraw else r).claim w (tx.startedAt + leaseSeconds)
  else if r.id ∈ tx.reclaimed then r.withdraw else r

omit [DecidableEq ω] in
theorem committed_same (w : ω) (tx : ClaimTx κ ω) (found : Option (Target κ ω)) (r : Target κ ω) :
    (committed w tx found r).Same r := by
  rw [committed]
  split <;> split <;> exact ⟨rfl, rfl, rfl⟩

theorem commitClaim_spec (h : s.commitClaim w = some s') :
    ∃ tx found, s.workers w = .claiming tx ∧ tx.stage = .locked found ∧
      s'.targets.rows = s.targets.rows.map (committed w tx found) ∧
      s'.rowLocks = s.unlock w ∧ s'.installations = s.installations ∧
      (found = none ∧ s'.jobs = s.jobs ∧ s'.workers = s.setWorker w .idle ∨
        ∃ t, found = some t ∧ s'.jobs = s.setJob t.jobId Job.start Job.start_id ∧
          s'.workers = s.overtake w (.working t) t) := by
  rw [commitClaim] at h
  split at h
  case h_2 => cases h
  case h_1 tx htx =>
    split at h
    case h_2 => cases h
    case h_1 found hstage =>
      refine ⟨tx, found, htx, hstage, ?_⟩
      cases found with
      | none =>
        cases h
        refine ⟨?_, rfl, rfl, .inl ⟨rfl, rfl, rfl⟩⟩
        exact List.map_congr_left (fun r _ => by simp [committed])
      | some t =>
        cases h
        refine ⟨?_, rfl, rfl, .inr ⟨t, rfl, rfl, rfl⟩⟩
        simp only [setTarget, Table.updateWhere, List.map_map]
        apply List.map_congr_left
        intro r _
        by_cases hr : r.id ∈ tx.reclaimed
        · simp [committed, hr, Target.withdraw, eq_comm]
        · simp [committed, hr, eq_comm]

/-- What processing `t` does to a row. -/
def moved (s : Ledger κ ω) (t : Target κ ω) (execution : Execution) (r : Target κ ω) : Target κ ω :=
  match s.preflightTarget t, execution with
  | some reason, _ | none, .failed reason =>
    if r.id = t.id then r.fail reason else if r.jobId = t.jobId ∧ r.state = .pending then r.block else r
  | none, .yielded => if r.id = t.id then r.withdraw else r
  | none, .converged _ => if r.id = t.id then r.apply else r

omit [DecidableEq ω] in
theorem markJobBlocked_rows (s : Ledger κ ω) (t : Target κ ω) (reason : Reason) :
    (s.markJobBlocked t reason).targets.rows = s.targets.rows.map (fun r =>
      if r.id = t.id then r.fail reason else if r.jobId = t.jobId ∧ r.state = .pending then r.block else r) := by
  simp only [markJobBlocked, setTarget, Table.updateWhere, List.map_map]
  apply List.map_congr_left
  intro r _
  by_cases hr : r.id = t.id
  · simp [hr, Target.fail]
  · simp [hr]

omit [DecidableEq ω] in
theorem processed_rows (s : Ledger κ ω) (t : Target κ ω) (execution : Execution) :
    (s.processed t execution).targets.rows = s.targets.rows.map (s.moved t execution) := by
  unfold processed moved
  cases s.preflightTarget t with
  | some reason => exact s.markJobBlocked_rows t reason
  | none =>
    cases execution with
    | failed reason => exact s.markJobBlocked_rows t reason
    | yielded =>
      apply List.map_congr_left
      intro r _
      simp
    | converged fingerprint =>
      apply List.map_congr_left
      intro r _
      simp

omit [DecidableEq ω] in
theorem moved_same (s : Ledger κ ω) (t : Target κ ω) (execution : Execution) (r : Target κ ω) :
    (s.moved t execution r).Same r := by
  unfold moved
  split <;> repeat' split
  all_goals exact ⟨rfl, rfl, rfl⟩

omit [DecidableEq ω] in
/-- Only the target itself and, if its job is blocked, the pending ones move. -/
theorem moved_of_ne {t r : Target κ ω} {execution : Execution} (hne : r.id ≠ t.id)
    (h : s.moved t execution r ≠ r) :
    s.blocks t execution = true ∧ r.jobId = t.jobId ∧ r.state = .pending ∧ s.moved t execution r = r.block := by
  unfold moved at h ⊢
  unfold blocks
  cases hp : s.preflightTarget t with
  | some reason =>
    simp only [hp, if_neg hne] at h ⊢
    split at h
    case isTrue hpend => exact ⟨trivial, hpend.1, hpend.2, by rw [if_pos hpend]⟩
    case isFalse => exact absurd rfl h
  | none =>
    cases execution with
    | failed reason =>
      simp only [hp, if_neg hne] at h ⊢
      split at h
      case isTrue hpend => exact ⟨trivial, hpend.1, hpend.2, by rw [if_pos hpend]⟩
      case isFalse => exact absurd rfl h
    | yielded => exact absurd (by simp only [hp, if_neg hne]) h
    | converged => exact absurd (by simp only [hp, if_neg hne]) h

omit [DecidableEq ω] in
theorem mem_setJob {id : κ} {f : Job κ → Job κ} (hf : ∀ j, (f j).id = j.id) {j' : Job κ} :
    j' ∈ s.setJob id f hf ↔ ∃ j ∈ s.jobs, (if j.id = id then f j else j) = j' := by
  rw [setJob, Table.mem_def, Table.updateWhere, List.mem_map]
  simp only [decide_eq_true_eq]
  rfl

omit [DecidableEq ω] in
/-- Processing ends in one of three ways, with what each does to the rows. -/
theorem processed_cases (s : Ledger κ ω) (t : Target κ ω) (execution : Execution) :
    (∃ reason, s.blocks t execution = true ∧ s.processed t execution = s.markJobBlocked t reason ∧
      ∀ r, s.moved t execution r =
        if r.id = t.id then r.fail reason else if r.jobId = t.jobId ∧ r.state = .pending then r.block else r) ∨
    (s.processed t execution = s.yieldTarget t ∧
      ∀ r, s.moved t execution r = if r.id = t.id then r.withdraw else r) ∨
    ∃ fingerprint, s.processed t execution = s.convergeTarget t fingerprint ∧
      ∀ r, s.moved t execution r = if r.id = t.id then r.apply else r := by
  unfold processed moved blocks
  cases s.preflightTarget t with
  | some reason => exact .inl ⟨reason, rfl, rfl, fun _ => rfl⟩
  | none =>
    cases execution with
    | failed reason => exact .inl ⟨reason, rfl, rfl, fun _ => rfl⟩
    | yielded => exact .inr (.inl ⟨rfl, fun _ => rfl⟩)
    | converged fingerprint => exact .inr (.inr ⟨fingerprint, rfl, fun _ => rfl⟩)

theorem processTarget_spec {execution : Execution} (h : s.processTarget w execution = some s') :
    ∃ t, s.workers w = .working t ∧ s' = { s.processed t execution with workers := s.setWorker w .idle } ∧
      ∀ r ∈ s.targets, s.moved t execution r ≠ r → s.rowLocks r.id = none := by
  rw [processTarget] at h
  split at h
  case h_2 => cases h
  case h_1 t ht =>
    obtain ⟨hfree, hs'⟩ := Option.ite_none_right_eq_some.mp h
    refine ⟨t, ht, (Option.some.inj hs').symm, ?_⟩
    intro r hr hmoved
    have hrow := List.all_eq_true.mp hfree r hr
    by_cases hid : r.id = t.id
    · simpa [hid] using hrow
    · obtain ⟨hb, hj, hp, _⟩ := moved_of_ne hid hmoved
      simpa [hid, hb, hj, hp] using hrow

omit [DecidableEq ω] in
theorem processed_frame (s : Ledger κ ω) (t : Target κ ω) (execution : Execution) :
    (s.processed t execution).rowLocks = s.rowLocks ∧ (s.processed t execution).workers = s.workers := by
  unfold processed
  split <;> exact ⟨rfl, rfl⟩

/-- A new job comes with its targets, of which it has at least one. -/
structure Inserts (s s' : Ledger κ ω) (jobId : κ) : Prop where
  newJob : ∀ j ∈ s.jobs, j.id ≠ jobId
  newTargets : ∃ r ∈ s'.targets, r.jobId = jobId
  oldJobs : ∀ j ∈ s.jobs, j ∈ s'.jobs
  oldTargets : ∀ r ∈ s.targets, r ∈ s'.targets
  jobs : ∀ j ∈ s'.jobs, j ∈ s.jobs ∨ j.id = jobId ∧
    (j.status = .applied ∨ j.status = .pending ∧ ∃ r ∈ s'.targets, r.jobId = jobId ∧ r.state = .pending)
  targets : ∀ r ∈ s'.targets, r ∈ s.targets ∨ r.jobId = jobId ∧ (r.state = .pending ∨ r.state = .replayed)
  hasJob : ∃ j ∈ s'.jobs, j.id = jobId
  workers : s'.workers = s.workers
  rowLocks : s'.rowLocks = s.rowLocks

omit [DecidableEq ω] in
theorem insertJob_spec {appId releaseId jobId : κ} {entries : List (Entry κ)}
    (h : s.insertJob appId releaseId jobId entries = some s') : s.Inserts s' jobId := by
  obtain ⟨⟨hne, _⟩, h⟩ := Option.ite_none_right_eq_some.mp h
  obtain ⟨jobs, hjobs, h⟩ := Option.bind_eq_some_iff.mp h
  obtain ⟨targets, htargets, rfl⟩ := Option.map_eq_some_iff.mp h
  obtain ⟨hnew, hmemjobs⟩ := Table.insert?_eq_some hjobs
  have hmem := Table.mem_of_insertAll? htargets
  have hrow : ∀ e ∈ entries, ∃ r ∈ targets, r.jobId = jobId ∧
      (e.converged = false → r.state = TargetState.pending) := by
    intro e he
    obtain ⟨i, hi⟩ := List.mem_iff_getElem?.mp he
    have hi : (e, i) ∈ entries.zipIdx := List.mk_mem_zipIdx_iff_getElem?.mpr hi
    refine ⟨_, (hmem _).mpr (.inl (List.mem_map_of_mem hi)), rfl, ?_⟩
    intro hconv
    simp [Entry.target, hconv]
  obtain ⟨e, he⟩ := List.exists_mem_of_ne_nil entries hne
  obtain ⟨r, hr, hrjob, _⟩ := hrow e he
  refine ⟨hnew, ⟨r, hr, hrjob⟩, fun j hj => (hmemjobs j).mpr (.inr hj), fun r hr => (hmem r).mpr (.inr hr), ?_, ?_,
    ⟨_, (hmemjobs _).mpr (.inl rfl), rfl⟩, rfl, rfl⟩
  · intro j hj
    rcases (hmemjobs j).mp hj with rfl | hj
    · refine .inr ⟨rfl, ?_⟩
      by_cases hall : entries.all Entry.converged = true
      · exact .inl (by simp [hall])
      · obtain ⟨e, he, hconv⟩ := List.all_eq_false.mp (Bool.not_eq_true _ ▸ hall)
        obtain ⟨r, hr, hrjob, hpend⟩ := hrow e he
        exact .inr ⟨by simp [hall], r, hr, hrjob, hpend (by simpa using hconv)⟩
    · exact .inl hj
  · intro r hr
    rcases (hmem r).mp hr with hr | hr
    · obtain ⟨e, _, rfl⟩ := List.mem_map.mp hr
      refine .inr ⟨rfl, ?_⟩
      cases hc : e.1.converged <;> simp [Entry.target, hc]
    · exact .inl hr

omit [DecidableEq ω] in
theorem resumeRollout_spec {sourceId releaseId jobId : κ} {ids : List κ}
    (h : s.resumeRollout sourceId releaseId jobId ids = some s') : s.Inserts s' jobId := by
  rw [resumeRollout] at h
  split at h
  case h_1 => cases h
  case h_2 => exact insertJob_spec (Option.ite_none_right_eq_some.mp h).2

end Ledger
end Akb.Rollout
