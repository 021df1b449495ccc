import Akb.Rollout.Steps

/-! What an open claim knows of the targets that its statement did not lock, and
what the steps of the others leave of it. -/
namespace Akb.Rollout
open Akb.Library
variable {κ ω : Type} [LinearOrder κ] [DecidableEq ω] {s s' : Ledger κ ω} {w v : ω}

namespace Ledger

/-- Earlier batches are settled. In the batch of the target nothing else runs but
what the claim itself took back, unless another claim has overtaken it. -/
structure Gate (s : Ledger κ ω) (tx : ClaimTx κ ω) (t : Target κ ω) : Prop where
  known : ∃ r ∈ s.targets, r.Same t
  earlier : ∀ r ∈ s.targets, r.jobId = t.jobId → r.batchNo < t.batchNo → r.state.settled = true
  alone : (t.jobId, t.batchNo) ∉ tx.overtaken → ∀ r ∈ s.targets, r.jobId = t.jobId → r.batchNo = t.batchNo →
    r.state = .running → r.id ∈ tx.reclaimed

/-- What holds of an open claim transaction of `v`. -/
structure OpenClaim (s : Ledger κ ω) (v : ω) (tx : ClaimTx κ ω) : Prop where
  reclaimed : ∀ id ∈ tx.reclaimed, s.rowLocks id = some v ∧ ∃ r ∈ s.targets, r.id = id ∧ r.state = .running
  reading : ∀ snapshot, tx.stage = .reading snapshot → ∀ t ∈ snapshot, t.eligible snapshot = true → s.Gate tx t
  locked : ∀ t, tx.stage = .locked (some t) → s.Gate tx t ∧ s.rowLocks t.id = some v ∧
    (t.id ∈ tx.reclaimed ∨ ∃ r ∈ s.targets, r.id = t.id ∧ r.state = .pending)

structure ClaimsSound (s : Ledger κ ω) : Prop where
  hasJob : ∀ r ∈ s.targets, ∃ j ∈ s.jobs, j.id = r.jobId
  claims : ∀ v tx, s.workers v = .claiming tx → s.OpenClaim v tx

/-- What a step of `actor` leaves to the others. If it commits a claim, `started`
is the batch of its target. -/
structure Follows (s s' : Ledger κ ω) (actor : Option ω) (started : Option (κ × Nat)) : Prop where
  jobs : ∀ j ∈ s.jobs, ∃ j' ∈ s'.jobs, j'.id = j.id
  kept : ∀ r ∈ s.targets, ∃ r' ∈ s'.targets, r'.Same r
  rows : ∀ r' ∈ s'.targets, (∀ j ∈ s.jobs, j.id ≠ r'.jobId) ∧ r'.state ≠ .running ∨ ∃ r ∈ s.targets, r'.Same r ∧
    (r.state.settled = true → r'.state.settled = true) ∧
    (r'.state = .running → r.state = .running ∨ started = some (r'.jobId, r'.batchNo))
  locks : ∀ v, actor ≠ some v → ∀ id, s.rowLocks id = some v → s'.rowLocks id = some v ∧
    ∀ r ∈ s.targets, r.id = id → r ∈ s'.targets
  others : ∀ v, actor ≠ some v → ∀ tx', s'.workers v = .claiming tx' → ∃ tx, s.workers v = .claiming tx ∧
    tx'.reclaimed = tx.reclaimed ∧ tx'.stage = tx.stage ∧ (∀ p, p ∈ tx.overtaken ∨ started = some p → p ∈ tx'.overtaken)

omit [LinearOrder κ] [DecidableEq ω] in
private theorem Gate.follows {actor : Option ω} {started : Option (κ × Nat)} {tx tx' : ClaimTx κ ω} {t : Target κ ω}
    (hg : s.Gate tx t) (hjob : ∀ r ∈ s.targets, ∃ j ∈ s.jobs, j.id = r.jobId) (hf : s.Follows s' actor started)
    (hrec : tx'.reclaimed = tx.reclaimed) (hover : ∀ p, p ∈ tx.overtaken ∨ started = some p → p ∈ tx'.overtaken) :
    s'.Gate tx' t := by
  obtain ⟨r₀, hr₀, hsame₀⟩ := hg.known
  obtain ⟨j₀, hj₀, hjid⟩ := hjob r₀ hr₀
  have hold : ∀ r' ∈ s'.targets, r'.jobId = t.jobId → ∃ r ∈ s.targets, r'.Same r ∧
      (r.state.settled = true → r'.state.settled = true) ∧
      (r'.state = .running → r.state = .running ∨ started = some (r'.jobId, r'.batchNo)) := by
    intro r' hr' hjob'
    refine (hf.rows r' hr').resolve_left (fun hnew => ?_)
    exact hnew.1 j₀ hj₀ (by rw [hjid, hsame₀.jobId, hjob'])
  refine ⟨?_, ?_, ?_⟩
  · obtain ⟨r', hr', hsame⟩ := hf.kept r₀ hr₀
    exact ⟨r', hr', hsame.id.trans hsame₀.id, hsame.jobId.trans hsame₀.jobId, hsame.batchNo.trans hsame₀.batchNo⟩
  · intro r' hr' hjob' hbatch
    obtain ⟨r, hr, hsame, hsettled, _⟩ := hold r' hr' hjob'
    exact hsettled (hg.earlier r hr (hsame.jobId ▸ hjob') (hsame.batchNo ▸ hbatch))
  · intro hnot r' hr' hjob' hbatch hrun
    obtain ⟨r, hr, hsame, _, hrunning⟩ := hold r' hr' hjob'
    rcases hrunning hrun with hrun | hstart
    · rw [hrec, hsame.id]
      exact hg.alone (fun hm => hnot (hover _ (.inl hm))) r hr (hsame.jobId ▸ hjob') (hsame.batchNo ▸ hbatch) hrun
    · rw [hjob', hbatch] at hstart
      exact absurd (hover _ (.inr hstart)) hnot

omit [DecidableEq ω] in
/-- The claims of the others stay sound. -/
private theorem ClaimsSound.others (hs : s.ClaimsSound) {actor : Option ω} {started : Option (κ × Nat)}
    (hf : s.Follows s' actor started) (hv : actor ≠ some v) {tx' : ClaimTx κ ω} (h : s'.workers v = .claiming tx') :
    s'.OpenClaim v tx' := by
  obtain ⟨tx, htx, hrec, hstage, hover⟩ := hf.others v hv tx' h
  have hc := hs.claims v tx htx
  refine ⟨?_, ?_, ?_⟩
  · intro id hid
    obtain ⟨hlock, r, hr, hrid, hrun⟩ := hc.reclaimed id (hrec ▸ hid)
    obtain ⟨hlock', hkeep⟩ := hf.locks v hv id hlock
    exact ⟨hlock', r, hkeep r hr hrid, hrid, hrun⟩
  · intro snapshot hsnap t ht helig
    exact (hc.reading snapshot (hstage ▸ hsnap) t ht helig).follows hs.hasJob hf hrec hover
  · intro t hlocked
    obtain ⟨hg, hlock, hrow⟩ := hc.locked t (hstage ▸ hlocked)
    obtain ⟨hlock', hkeep⟩ := hf.locks v hv t.id hlock
    refine ⟨hg.follows hs.hasJob hf hrec hover, hlock', ?_⟩
    rcases hrow with hrow | ⟨r, hr, hrid, hpend⟩
    · exact .inl (hrec ▸ hrow)
    · exact .inr ⟨r, hkeep r hr hrid, hrid, hpend⟩

omit [DecidableEq ω] in
private theorem Follows.hasJob (hs : s.ClaimsSound) {actor : Option ω} {started : Option (κ × Nat)}
    (hf : s.Follows s' actor started)
    (hnew : ∀ r' ∈ s'.targets, (∀ j ∈ s.jobs, j.id ≠ r'.jobId) → ∃ j ∈ s'.jobs, j.id = r'.jobId) :
    ∀ r' ∈ s'.targets, ∃ j ∈ s'.jobs, j.id = r'.jobId := by
  intro r' hr'
  rcases hf.rows r' hr' with hno | ⟨r, hr, hsame, _⟩
  · exact hnew r' hr' hno.1
  · obtain ⟨j, hj, hjid⟩ := hs.hasJob r hr
    obtain ⟨j', hj', hjid'⟩ := hf.jobs j hj
    exact ⟨j', hj', by rw [hjid', hjid, hsame.jobId]⟩

omit [LinearOrder κ] [DecidableEq ω] in
/-- What a step that touches no target, no job and no claim of another leaves. -/
private theorem follows_of_targets {actor : Option ω} (htargets : s'.targets = s.targets) (hjobs : s'.jobs = s.jobs)
    (hlocks : ∀ v, actor ≠ some v → ∀ id, s.rowLocks id = some v → s'.rowLocks id = some v)
    (hothers : ∀ v, actor ≠ some v → s'.workers v = s.workers v) : s.Follows s' actor none := by
  refine ⟨?_, ?_, ?_, ?_, ?_⟩
  · exact fun j hj => ⟨j, hjobs ▸ hj, rfl⟩
  · exact fun r hr => ⟨r, htargets ▸ hr, .refl r⟩
  · exact fun r hr => .inr ⟨r, htargets ▸ hr, .refl r, id, .inl⟩
  · exact fun v hv id hid => ⟨hlocks v hv id hid, fun r hr _ => htargets ▸ hr⟩
  · intro v hv tx htx
    exact ⟨tx, hothers v hv ▸ htx, rfl, rfl, fun p hp => hp.resolve_right (by rintro ⟨⟩)⟩

omit [LinearOrder κ] [DecidableEq ω] in
theorem Inserts.follows {jobId : κ} (h : s.Inserts s' jobId) : s.Follows s' none none := by
  refine ⟨fun j hj => ⟨j, h.oldJobs j hj, rfl⟩, fun r hr => ⟨r, h.oldTargets r hr, .refl r⟩, ?_, ?_, ?_⟩
  · intro r hr
    rcases h.targets r hr with hr | ⟨hjob, hstate⟩
    · exact .inr ⟨r, hr, .refl r, id, .inl⟩
    · refine .inl ⟨fun j hj => hjob ▸ h.newJob j hj, ?_⟩
      rcases hstate with hstate | hstate <;> rw [hstate] <;> decide
  · exact fun v _ id hid => ⟨h.rowLocks ▸ hid, fun r hr _ => h.oldTargets r hr⟩
  · intro v _ tx htx
    exact ⟨tx, h.workers ▸ htx, rfl, rfl, fun p hp => hp.resolve_right (by rintro ⟨⟩)⟩

omit [DecidableEq ω] in
/-- A row that a claim has locked is moved by nobody else. -/
private theorem committed_of_locked (hs : s.ClaimsSound) {tx : ClaimTx κ ω} {found : Option (Target κ ω)}
    (htx : s.workers w = .claiming tx) (hstage : tx.stage = .locked found) {r : Target κ ω}
    (hr : s.rowLocks r.id ≠ some w) : committed w tx found r = r := by
  have hc := hs.claims w tx htx
  have hrec : r.id ∉ tx.reclaimed := fun hm => hr (hc.reclaimed _ hm).1
  rw [committed, if_neg hrec, if_neg]
  rintro hfound
  cases found with
  | none => cases hfound
  | some t =>
    have hid : t.id = r.id := by simpa using hfound
    exact hr (hid ▸ (hc.locked t hstage).2.1)

omit [DecidableEq ω] in
/-- A commit leaves a row alone that is neither pending nor running. -/
theorem committed_idle (hs : s.ClaimsSound) {tx : ClaimTx κ ω} {found : Option (Target κ ω)}
    (htx : s.workers w = .claiming tx) (hstage : tx.stage = .locked found) {r : Target κ ω} (hr : r ∈ s.targets)
    (hpending : r.state ≠ .pending) (hrunning : r.state ≠ .running) : committed w tx found r = r := by
  have hc := hs.claims w tx htx
  have hrec : r.id ∉ tx.reclaimed := by
    intro hm
    obtain ⟨_, r', hr', hid, hrun⟩ := hc.reclaimed _ hm
    exact hrunning (Table.eq_of_key hr' hr hid ▸ hrun)
  rw [committed, if_neg hrec, if_neg]
  rintro hfound
  obtain ⟨t, rfl, ht⟩ := (Option.any_eq_true _ _).mp hfound
  have hid : t.id = r.id := of_decide_eq_true ht
  rcases (hc.locked t hstage).2.2 with hm | ⟨r', hr', hid', hpend⟩
  · exact hrec (hid ▸ hm)
  · exact hpending (Table.eq_of_key hr' hr (hid'.trans hid) ▸ hpend)

omit [DecidableEq ω] in
theorem committed_settled (hs : s.ClaimsSound) {tx : ClaimTx κ ω} {found : Option (Target κ ω)}
    (htx : s.workers w = .claiming tx) (hstage : tx.stage = .locked found) {r : Target κ ω} (hr : r ∈ s.targets)
    (hsettled : r.state.settled = true) : committed w tx found r = r := by
  refine committed_idle hs htx hstage hr ?_ ?_ <;> intro he <;> rw [he] at hsettled <;> cases hsettled

private theorem commitClaim_follows (hs : s.ClaimsSound) (h : s.commitClaim w = some s') :
    ∃ started, s.Follows s' (some w) started ∧ ∀ tx t, s.workers w = .claiming tx → tx.stage = .locked (some t) →
      started = some (t.jobId, t.batchNo) := by
  obtain ⟨tx, found, htx, hstage, hrows, hlocks, _, hrest⟩ := commitClaim_spec h
  have hmem : ∀ r', r' ∈ s'.targets ↔ ∃ r ∈ s.targets, committed w tx found r = r' := by
    intro r'
    rw [Table.mem_def, hrows, List.mem_map]
    rfl
  refine ⟨found.map (fun t => (t.jobId, t.batchNo)), ⟨?_, ?_, ?_, ?_, ?_⟩, ?_⟩
  · intro j hj
    rcases hrest with ⟨_, hjobs, _⟩ | ⟨t, _, hjobs, _⟩
    · exact ⟨j, hjobs ▸ hj, rfl⟩
    · refine ⟨if j.id = t.jobId then j.start else j, ?_, by split <;> simp⟩
      rw [hjobs, setJob, Table.mem_def]
      exact List.mem_map.mpr ⟨j, hj, by simp⟩
  · exact fun r hr => ⟨_, (hmem _).mpr ⟨r, hr, rfl⟩, committed_same w tx found r⟩
  · intro r' hr'
    obtain ⟨r, hr, rfl⟩ := (hmem r').mp hr'
    refine .inr ⟨r, hr, committed_same w tx found r, ?_, ?_⟩
    · intro hsettled
      rw [committed_settled hs htx hstage hr hsettled]
      exact hsettled
    · intro hrun
      by_cases hfound : found.any (fun t => t.id = r.id) = true
      · cases found with
        | none => cases hfound
        | some t =>
          have hid : t.id = r.id := by simpa using hfound
          obtain ⟨r₀, hr₀, hsame⟩ := ((hs.claims w tx htx).locked t hstage).1.known
          have heq : r₀ = r := Table.eq_of_key hr₀ hr (hsame.id.trans hid)
          refine .inr ?_
          rw [Option.map_some, (committed_same w tx (some t) r).jobId, (committed_same w tx (some t) r).batchNo, ← heq,
            hsame.jobId, hsame.batchNo]
      · rw [committed, if_neg hfound] at hrun
        split at hrun
        · cases hrun
        · exact .inl hrun
  · intro v hv id hid
    have hne : some v ≠ some w := fun he => hv he.symm
    refine ⟨?_, ?_⟩
    · rw [hlocks, unlock, if_neg (hid ▸ hne)]
      exact hid
    · rintro r hr rfl
      exact (hmem r).mpr ⟨r, hr, committed_of_locked hs htx hstage (hid ▸ hne)⟩
  · intro v hv tx' htx'
    rcases hrest with ⟨hnone, _, hworkers⟩ | ⟨t, hsome, _, hworkers⟩
    · rw [hworkers, setWorker_of_ne hv] at htx'
      refine ⟨tx', htx', rfl, rfl, fun p hp => ?_⟩
      rw [hnone] at hp
      exact hp.resolve_right (by rintro ⟨⟩)
    · rw [hworkers, overtake, if_neg (fun he => hv (congrArg some he.symm))] at htx'
      cases hw : s.workers v with
      | claiming tx₀ =>
        rw [hw] at htx'
        cases htx'
        refine ⟨tx₀, rfl, rfl, rfl, ?_⟩
        intro p hp
        rw [hsome, Option.map_some, Option.some.injEq] at hp
        exact List.mem_cons.mpr (hp.symm.imp Eq.symm id)
      | idle =>
        rw [hw] at htx'
        cases htx'
      | working t₀ =>
        rw [hw] at htx'
        cases htx'
  · intro tx₀ t htx₀ hstage₀
    rw [htx] at htx₀
    cases htx₀
    rw [hstage] at hstage₀
    cases hstage₀
    rfl

omit [DecidableEq ω] in
theorem moved_settled {t r : Target κ ω} {execution : Execution}
    (ht : r.id = t.id → r.state.settled = false) (hsettled : r.state.settled = true) : s.moved t execution r = r := by
  by_contra hmoved
  have hne : r.id ≠ t.id := fun hid => by simp [ht hid] at hsettled
  obtain ⟨_, _, hpend, _⟩ := moved_of_ne hne hmoved
  rw [hpend] at hsettled
  cases hsettled

omit [DecidableEq ω] in
theorem moved_running {t r : Target κ ω} {execution : Execution}
    (h : (s.moved t execution r).state = .running) : r.state = .running ∧ r.id ≠ t.id := by
  by_cases hid : r.id = t.id
  · unfold moved at h
    split at h <;> simp [hid, Target.fail, Target.withdraw, Target.apply] at h
  · refine ⟨?_, hid⟩
    by_contra hrun
    obtain ⟨_, _, _, hblock⟩ := moved_of_ne hid (fun he => hrun (he ▸ h))
    rw [hblock] at h
    cases h

/-- No claim of a batch is committed once another one has been, since its snapshot;
and no target is processed that is settled already. -/
def Undisturbed (s : Ledger κ ω) : LedgerAction κ ω → Prop
  | .commitClaim w => ∀ tx t, s.workers w = .claiming tx → tx.stage = .locked (some t) →
      (t.jobId, t.batchNo) ∉ tx.overtaken
  | .processTarget w _ => ∀ t, s.workers w = .working t → ∀ r ∈ s.targets, r.id = t.id → r.state.settled = false
  | _ => True

private theorem processTarget_follows {execution : Execution} (hg : s.Undisturbed (.processTarget w execution))
    (h : s.processTarget w execution = some s') : s.Follows s' (some w) none := by
  obtain ⟨t, ht, rfl, hfree⟩ := processTarget_spec h
  have hmem : ∀ r', r' ∈ (s.processed t execution).targets ↔ ∃ r ∈ s.targets, s.moved t execution r = r' := by
    intro r'
    rw [Table.mem_def, processed_rows, List.mem_map]
    rfl
  obtain ⟨hlocks, _⟩ := s.processed_frame t execution
  refine ⟨?_, ?_, ?_, ?_, ?_⟩
  · intro j hj
    have hset : ∀ f hf, ∃ j' ∈ s.setJob t.jobId f hf, j'.id = j.id := by
      intro f hf
      refine ⟨if j.id = t.jobId then f j else j, List.mem_map.mpr ⟨j, hj, by simp⟩, ?_⟩
      split
      · exact hf j
      · rfl
    unfold processed
    split
    case h_3 => exact ⟨j, hj, rfl⟩
    case h_1 reason _ _ => exact hset (Job.block reason) (fun _ => rfl)
    case h_2 reason _ _ => exact hset (Job.block reason) (fun _ => rfl)
    case h_4 => exact hset (Job.advance _) (fun _ => rfl)
  · exact fun r hr => ⟨_, (hmem _).mpr ⟨r, hr, rfl⟩, moved_same s t execution r⟩
  · intro r' hr'
    obtain ⟨r, hr, rfl⟩ := (hmem r').mp hr'
    refine .inr ⟨r, hr, moved_same s t execution r, ?_, fun hrun => .inl (moved_running hrun).1⟩
    intro hsettled
    rw [moved_settled (hg t ht r hr) hsettled]
    exact hsettled
  · intro v hv id hid
    refine ⟨hlocks ▸ hid, ?_⟩
    rintro r hr rfl
    refine (hmem r).mpr ⟨r, hr, ?_⟩
    by_contra hmoved
    rw [hfree r hr hmoved] at hid
    cases hid
  · intro v hv tx htx
    exact ⟨tx, (setWorker_of_ne hv).symm.trans htx, rfl, rfl, fun p hp => hp.resolve_right (by rintro ⟨⟩)⟩

omit [DecidableEq ω] in
/-- What the snapshot of a claim shows of the others is what there is. -/
private theorem gate_of_snapshot {tx tx' : ClaimTx κ ω} (hrec : tx'.reclaimed = tx.reclaimed)
    {snapshot : List (Target κ ω)}
    (hsnap : snapshot = s.targets.rows.map (fun t => if t.id ∈ tx.reclaimed then t.withdraw else t)) {t : Target κ ω}
    (ht : t ∈ snapshot) (helig : t.eligible snapshot = true) : s.Gate tx' t := by
  have hrow : ∀ r ∈ s.targets, (if r.id ∈ tx.reclaimed then r.withdraw else r) ∈ snapshot := by
    intro r hr
    rw [hsnap]
    exact List.mem_map_of_mem hr
  have hsame : ∀ r : Target κ ω, (if r.id ∈ tx.reclaimed then r.withdraw else r).Same r := by
    intro r
    split <;> exact ⟨rfl, rfl, rfl⟩
  rw [Target.eligible, Bool.and_eq_true, Bool.and_eq_true, Bool.not_eq_true', Bool.not_eq_true', List.any_eq_false,
    List.any_eq_false] at helig
  obtain ⟨⟨_, hprior⟩, hsibling⟩ := helig
  refine ⟨?_, ?_, ?_⟩
  · rw [hsnap] at ht
    obtain ⟨r, hr, rfl⟩ := List.mem_map.mp ht
    have := hsame r
    exact ⟨r, hr, this.id.symm, this.jobId.symm, this.batchNo.symm⟩
  · intro r hr hjob hbatch
    have hnot := hprior _ (hrow r hr)
    rw [(hsame r).jobId, (hsame r).batchNo] at hnot
    by_cases hm : r.id ∈ tx.reclaimed
    · simp [hm, hjob, hbatch, Target.withdraw, TargetState.settled] at hnot
    · simpa [hm, hjob, hbatch] using hnot
  · intro _ r hr hjob hbatch hrun
    rw [hrec]
    by_contra hm
    have hnot := hsibling _ (hrow r hr)
    simp [hm, hjob, hbatch, hrun] at hnot

/-- The soundness of the claims after a step, from what it leaves to the others
and what becomes of the claim of its actor. -/
private theorem ClaimsSound.of_follows (hs : s.ClaimsSound) {actor : Option ω} {started : Option (κ × Nat)}
    (hf : s.Follows s' actor started)
    (hnew : ∀ r' ∈ s'.targets, (∀ j ∈ s.jobs, j.id ≠ r'.jobId) → ∃ j ∈ s'.jobs, j.id = r'.jobId)
    (hown : ∀ v tx, actor = some v → s'.workers v = .claiming tx → s'.OpenClaim v tx) : s'.ClaimsSound := by
  refine ⟨hf.hasJob hs hnew, ?_⟩
  intro v tx htx
  by_cases hv : actor = some v
  · exact hown v tx hv htx
  · exact hs.others hf hv htx

omit [DecidableEq ω] in
private theorem no_new (hs : s.ClaimsSound) (htargets : ∀ r ∈ s'.targets, ∃ r₀ ∈ s.targets, r₀.jobId = r.jobId) :
    ∀ r' ∈ s'.targets, (∀ j ∈ s.jobs, j.id ≠ r'.jobId) → ∃ j ∈ s'.jobs, j.id = r'.jobId := by
  intro r' hr' hno
  obtain ⟨r, hr, hjob⟩ := htargets r' hr'
  obtain ⟨j, hj, hid⟩ := hs.hasJob r hr
  exact absurd (hid.trans hjob) (hno j hj)

private theorem reclaim_follows (h : s.reclaim w = some s') : s.Follows s' (some w) none := by
  obtain ⟨_, ids, hids, rfl⟩ := reclaim_spec h
  refine follows_of_targets rfl rfl ?_ (fun v hv => setWorker_of_ne hv)
  intro v _ id hid
  have hnot : id ∉ ids := fun hm => by simp [(hids id hm).1] at hid
  exact (if_neg hnot).trans hid

private theorem takeSnapshot_follows (h : s.takeSnapshot w = some s') : s.Follows s' (some w) none := by
  obtain ⟨tx, _, _, rfl⟩ := takeSnapshot_spec h
  exact follows_of_targets rfl rfl (fun v _ id hid => hid) (fun v hv => setWorker_of_ne hv)

private theorem claimTarget_follows {skipped : List κ} (h : s.claimTarget w skipped = some s') :
    s.Follows s' (some w) none := by
  obtain ⟨_, _, found, _, _, hfound, rfl⟩ := claimTarget_spec h
  refine follows_of_targets rfl rfl ?_ (fun v hv => setWorker_of_ne hv)
  intro v hv id hid
  refine (if_neg ?_).trans hid
  intro hany
  obtain ⟨t, rfl, ht⟩ := (Option.any_eq_true _ _).mp hany
  rcases (hfound t rfl).2.2.1 with hlock | hlock <;> rw [of_decide_eq_true ht, hid] at hlock
  · cases hlock
  · exact hv hlock.symm

omit [LinearOrder κ] in
private theorem stop_follows (s : Ledger κ ω) (w : ω) :
    s.Follows { s with rowLocks := s.unlock w, workers := s.setWorker w .idle } (some w) none := by
  refine follows_of_targets rfl rfl ?_ (fun v hv => setWorker_of_ne hv)
  intro v hv id hid
  have hne : s.rowLocks id ≠ some w := hid ▸ fun he => hv he.symm
  exact (if_neg hne).trans hid

/-- What any step leaves to the others, and which one starts a target. -/
theorem step_follows (hs : s.ClaimsSound) {a : LedgerAction κ ω} (hg : s.Undisturbed a) (h : s.step a s') :
    ∃ actor started, s.Follows s' actor started ∧ (started = none ∨ ∃ w, a = .commitClaim w) := by
  cases a with
  | persistRolloutJob appId releaseId jobId targets => exact ⟨_, _, (insertJob_spec h).follows, .inl rfl⟩
  | resumeRollout sourceId releaseId jobId ids => exact ⟨_, _, (resumeRollout_spec h).follows, .inl rfl⟩
  | reclaim w => exact ⟨_, _, reclaim_follows h, .inl rfl⟩
  | takeSnapshot w => exact ⟨_, _, takeSnapshot_follows h, .inl rfl⟩
  | claimTarget w skipped => exact ⟨_, _, claimTarget_follows h, .inl rfl⟩
  | commitClaim w =>
    obtain ⟨started, hf, _⟩ := commitClaim_follows hs h
    exact ⟨_, started, hf, .inr ⟨w, rfl⟩⟩
  | processTarget w execution => exact ⟨_, _, processTarget_follows hg h, .inl rfl⟩
  | stop w =>
    cases h
    exact ⟨_, _, stop_follows s w, .inl rfl⟩
  | change i =>
    cases h
    exact ⟨none, none, follows_of_targets rfl rfl (fun v _ id hid => hid) (fun v _ => rfl), .inl rfl⟩
  | elapse seconds =>
    cases h
    exact ⟨none, none, follows_of_targets rfl rfl (fun v _ id hid => hid) (fun v _ => rfl), .inl rfl⟩

private theorem OpenClaim.reclaim (h : s.reclaim w = some s') {tx : ClaimTx κ ω} (htx : s'.workers w = .claiming tx) :
    s'.OpenClaim w tx := by
  obtain ⟨_, ids, hids, rfl⟩ := reclaim_spec h
  obtain rfl := Worker.claiming.inj ((setWorker_self s w _).symm.trans htx)
  refine ⟨?_, by rintro _ ⟨⟩, by rintro _ ⟨⟩⟩
  exact fun id hid => ⟨if_pos hid, (hids id hid).2⟩

private theorem OpenClaim.takeSnapshot (hs : s.ClaimsSound) (h : s.takeSnapshot w = some s') {tx' : ClaimTx κ ω}
    (htx' : s'.workers w = .claiming tx') : s'.OpenClaim w tx' := by
  obtain ⟨tx, htx, _, rfl⟩ := takeSnapshot_spec h
  obtain rfl := Worker.claiming.inj ((setWorker_self s w _).symm.trans htx')
  refine ⟨(hs.claims w tx htx).reclaimed, ?_, by rintro _ ⟨⟩⟩
  rintro snapshot hsnap t ht helig
  have hgate : s.Gate { tx with stage := .reclaimed, overtaken := [] } t :=
    gate_of_snapshot (by rfl) (ClaimStage.reading.inj hsnap).symm ht helig
  exact ⟨hgate.known, hgate.earlier, hgate.alone⟩

private theorem OpenClaim.claimTarget (hs : s.ClaimsSound) {skipped : List κ} (h : s.claimTarget w skipped = some s')
    {tx' : ClaimTx κ ω} (htx' : s'.workers w = .claiming tx') : s'.OpenClaim w tx' := by
  obtain ⟨tx, snapshot, found, htx, hstage, hfound, rfl⟩ := claimTarget_spec h
  have hc := hs.claims w tx htx
  obtain rfl := Worker.claiming.inj ((setWorker_self s w _).symm.trans htx')
  refine ⟨?_, by rintro _ ⟨⟩, ?_⟩
  · intro id hid
    obtain ⟨hlock, hrow⟩ := hc.reclaimed id hid
    exact ⟨by simp [hlock], hrow⟩
  · intro t ht
    cases ht
    obtain ⟨hmem, helig, _, hrow⟩ := hfound t rfl
    have hg := hc.reading snapshot hstage t hmem helig
    exact ⟨⟨hg.known, hg.earlier, hg.alone⟩, by simp, hrow⟩

/-- Every step keeps the claims sound, whoever else is at work. -/
theorem ClaimsSound.step (hs : s.ClaimsSound) {a : LedgerAction κ ω} (hg : s.Undisturbed a) (h : s.step a s') :
    s'.ClaimsSound := by
  have hinsert : ∀ {jobId}, s.Inserts s' jobId → s'.ClaimsSound := by
    intro jobId hins
    refine hs.of_follows hins.follows ?_ (by rintro _ _ ⟨⟩)
    intro r' hr' hno
    rcases hins.targets r' hr' with hr | ⟨hjob, _⟩
    · obtain ⟨j, hj, hid⟩ := hs.hasJob r' hr
      exact absurd hid (hno j hj)
    · exact hjob ▸ hins.hasJob
  have henv : s.Follows s' none none → s'.targets = s.targets → s'.ClaimsSound := by
    intro hf htargets
    exact hs.of_follows hf (no_new hs (fun r hr => ⟨r, htargets ▸ hr, rfl⟩)) (by rintro _ _ ⟨⟩)
  cases a with
  | persistRolloutJob appId releaseId jobId targets => exact hinsert (insertJob_spec h)
  | resumeRollout sourceId releaseId jobId ids => exact hinsert (resumeRollout_spec h)
  | reclaim w =>
    obtain ⟨_, _, _, hs'⟩ := reclaim_spec h
    refine hs.of_follows (reclaim_follows h) (no_new hs (fun r hr => ⟨r, by simpa [hs'] using hr, rfl⟩)) ?_
    rintro v tx hv htx
    cases hv
    exact .reclaim h htx
  | takeSnapshot w =>
    obtain ⟨_, _, _, hs'⟩ := takeSnapshot_spec h
    refine hs.of_follows (takeSnapshot_follows h) (no_new hs (fun r hr => ⟨r, by simpa [hs'] using hr, rfl⟩)) ?_
    rintro v tx hv htx
    cases hv
    exact .takeSnapshot hs h htx
  | claimTarget w skipped =>
    obtain ⟨_, _, _, _, _, _, hs'⟩ := claimTarget_spec h
    refine hs.of_follows (claimTarget_follows h) (no_new hs (fun r hr => ⟨r, by simpa [hs'] using hr, rfl⟩)) ?_
    rintro v tx hv htx
    cases hv
    exact .claimTarget hs h htx
  | commitClaim w =>
    obtain ⟨started, hf, _⟩ := commitClaim_follows hs h
    obtain ⟨tx, found, _, _, hrows, _, _, hrest⟩ := commitClaim_spec h
    refine hs.of_follows hf (no_new hs ?_) ?_
    · intro r' hr'
      rw [Table.mem_def, hrows] at hr'
      obtain ⟨r, hr, rfl⟩ := List.mem_map.mp hr'
      exact ⟨r, hr, (committed_same w tx found r).jobId.symm⟩
    · rintro v tx' hv htx'
      cases hv
      rcases hrest with ⟨_, _, hworkers⟩ | ⟨t, _, _, hworkers⟩
      · rw [hworkers, setWorker_self] at htx'
        cases htx'
      · rw [hworkers, overtake, if_pos rfl] at htx'
        cases htx'
  | processTarget w execution =>
    have hf := processTarget_follows hg h
    obtain ⟨t, _, rfl, _⟩ := processTarget_spec h
    refine hs.of_follows hf (no_new hs ?_) ?_
    · intro r' hr'
      rw [Table.mem_def, processed_rows] at hr'
      obtain ⟨r, hr, rfl⟩ := List.mem_map.mp hr'
      exact ⟨r, hr, (moved_same s t execution r).jobId.symm⟩
    · rintro v tx' hv htx'
      cases hv
      cases (setWorker_self s w .idle).symm.trans htx'
  | stop w =>
    cases h
    refine hs.of_follows (stop_follows s w) (no_new hs (fun r hr => ⟨r, hr, rfl⟩)) ?_
    rintro v tx' hv htx'
    cases hv
    cases (setWorker_self s w .idle).symm.trans htx'
  | change i =>
    cases h
    exact henv (follows_of_targets rfl rfl (fun v _ id hid => hid) (fun v _ => rfl)) rfl
  | elapse seconds =>
    cases h
    exact henv (follows_of_targets rfl rfl (fun v _ id hid => hid) (fun v _ => rfl)) rfl

omit [DecidableEq ω] in
theorem ClaimsSound.empty (now : Int) : (Ledger.empty now : Ledger κ ω).ClaimsSound :=
  ⟨fun r hr => absurd hr (Table.not_mem_empty r), by rintro _ _ ⟨⟩⟩

end Ledger
end Akb.Rollout
