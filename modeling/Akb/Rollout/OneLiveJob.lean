import Akb.Rollout.Commands
import Akb.Rollout.BatchGate
import Akb.Rollout.LifecycleInvariant

/-! The jobs in which an installation is still open, and what the steps of the ledger do to them. -/
namespace Akb.Rollout
open Akb.Library
variable {κ ω : Type} [LinearOrder κ] [DecidableEq ω]

namespace Ledger
variable {s s' : Ledger κ ω} {w : ω}

/-- The installation is a pending or running target of an unfinished job. -/
def OpenIn (s : Ledger κ ω) (x b : κ) : Prop :=
  (∃ r ∈ s.targets, r.installationId = x ∧ r.jobId = b ∧ r.state.open = true) ∧
    ∃ j ∈ s.jobs, j.id = b ∧ j.status.live = true

/-- What an open claim has locked is open, and stays so until it is committed. -/
def Held (s : Ledger κ ω) : Prop := ∀ v tx, s.workers v = .claiming tx →
  (∀ id ∈ tx.reclaimed, s.rowLocks id = some v ∧ ∃ r ∈ s.targets, r.id = id ∧ r.state.open = true) ∧
    ∀ t, tx.stage = .locked (some t) → s.rowLocks t.id = some v ∧ ∃ r ∈ s.targets, r.id = t.id ∧ r.state.open = true

omit [LinearOrder κ] [DecidableEq ω] in
/-- Nobody touches what another worker has locked, nor the claim of another worker. -/
theorem Held.step (hs : s.Held) (actor : Option ω)
    (hlocks : ∀ v, actor ≠ some v → ∀ id, s.rowLocks id = some v → s'.rowLocks id = some v ∧
      ∀ r ∈ s.targets, r.id = id → r ∈ s'.targets)
    (hothers : ∀ v, actor ≠ some v → ∀ tx', s'.workers v = .claiming tx' → ∃ tx, s.workers v = .claiming tx ∧
      tx'.reclaimed = tx.reclaimed ∧ tx'.stage = tx.stage)
    (hown : ∀ v, actor = some v → ∀ tx, s'.workers v = .claiming tx →
      (∀ id ∈ tx.reclaimed, s'.rowLocks id = some v ∧ ∃ r ∈ s'.targets, r.id = id ∧ r.state.open = true) ∧
        ∀ t, tx.stage = .locked (some t) → s'.rowLocks t.id = some v ∧
          ∃ r ∈ s'.targets, r.id = t.id ∧ r.state.open = true) : s'.Held := by
  intro v tx' htx'
  by_cases hv : actor = some v
  · exact hown v hv tx' htx'
  · obtain ⟨tx, htx, hrec, hstage⟩ := hothers v hv tx' htx'
    obtain ⟨hreclaimed, hlocked⟩ := hs v tx htx
    have hkeep : ∀ id, s.rowLocks id = some v ∧ (∃ r ∈ s.targets, r.id = id ∧ r.state.open = true) →
        s'.rowLocks id = some v ∧ ∃ r ∈ s'.targets, r.id = id ∧ r.state.open = true := by
      rintro id ⟨hlock, r, hr, hid, hopen⟩
      obtain ⟨hlock', hsame⟩ := hlocks v hv id hlock
      exact ⟨hlock', r, hsame r hr hid, hid, hopen⟩
    exact ⟨fun id hid => hkeep id (hreclaimed id (hrec ▸ hid)), fun t ht => hkeep t.id (hlocked t (hstage ▸ ht))⟩

omit [DecidableEq ω] in
/-- A commit opens no row that was closed. -/
theorem committed_open (hs : s.Held) {tx : ClaimTx κ ω} {found : Option (Target κ ω)} (htx : s.workers w = .claiming tx)
    (hstage : tx.stage = .locked found) {r : Target κ ω} (hr : r ∈ s.targets)
    (hopen : (committed w tx found r).state.open = true) : r.state.open = true := by
  obtain ⟨hreclaimed, hlocked⟩ := hs w tx htx
  have hrow : ∀ id, (∃ r' ∈ s.targets, r'.id = id ∧ r'.state.open = true) → id = r.id → r.state.open = true := by
    rintro id ⟨r', hr', hid, hopen'⟩ heq
    exact Table.eq_of_key hr' hr (hid.trans heq) ▸ hopen'
  rw [committed] at hopen
  split at hopen
  case isTrue hfound =>
    obtain ⟨t, rfl, ht⟩ := (Option.any_eq_true _ _).mp hfound
    exact hrow t.id (hlocked t hstage).2 (of_decide_eq_true ht)
  case isFalse =>
    split at hopen
    case isTrue hid => exact hrow r.id (hreclaimed r.id hid).2 rfl
    case isFalse => exact hopen

omit [DecidableEq ω] in
theorem committed_of_free (hs : s.Held) {tx : ClaimTx κ ω} {found : Option (Target κ ω)}
    (htx : s.workers w = .claiming tx) (hstage : tx.stage = .locked found) {r : Target κ ω}
    (hfree : s.rowLocks r.id ≠ some w) : committed w tx found r = r := by
  obtain ⟨hreclaimed, hlocked⟩ := hs w tx htx
  have hrec : r.id ∉ tx.reclaimed := fun hm => hfree (hreclaimed _ hm).1
  rw [committed, if_neg hrec, if_neg]
  rintro hfound
  obtain ⟨t, rfl, ht⟩ := (Option.any_eq_true _ _).mp hfound
  exact hfree (of_decide_eq_true ht ▸ (hlocked t hstage).1)

/-- Targets and jobs move, but none is new or lost, and none changes what it is for. -/
structure Moves (s s' : Ledger κ ω) : Prop where
  rows : ∀ r' ∈ s'.targets, ∃ r ∈ s.targets, r'.jobId = r.jobId ∧ r'.installationId = r.installationId
  jobs : ∀ j ∈ s.jobs, ∃ j' ∈ s'.jobs, j'.id = j.id
  installations : ∀ i ∈ s.installations, ∃ i' ∈ s'.installations, i'.id = i.id
  held : s'.Held

/-- No installation is opened in a job, unless it is in the one that is `opened` and in no other. -/
def Opens (s s' : Ledger κ ω) (opened : Option κ) : Prop :=
  ∀ x b, s'.OpenIn x b → s.OpenIn x b ∨ opened = some b ∧ ∀ c, s.OpenIn x c → opened = some c

omit [LinearOrder κ] [DecidableEq ω] in
theorem opens_of_same (htargets : s'.targets = s.targets) (hjobs : s'.jobs = s.jobs) : s.Opens s' none := by
  intro x b h
  rw [OpenIn, htargets, hjobs] at h
  exact .inl h

omit [LinearOrder κ] [DecidableEq ω] in
/-- A step that changes neither targets nor jobs. -/
theorem moves_of_same (htargets : s'.targets = s.targets) (hjobs : s'.jobs = s.jobs)
    (hinst : ∀ i ∈ s.installations, ∃ i' ∈ s'.installations, i'.id = i.id) (hheld : s'.Held) : s.Moves s' :=
  ⟨fun r hr => ⟨r, htargets ▸ hr, rfl, rfl⟩, fun j hj => ⟨j, hjobs ▸ hj, rfl⟩, hinst, hheld⟩

omit [LinearOrder κ] [DecidableEq ω] in
/-- The ledger with other installations or another time. -/
theorem Held.congr (hs : s.Held) (htargets : s'.targets = s.targets) (hlocks : s'.rowLocks = s.rowLocks)
    (hworkers : s'.workers = s.workers) : s'.Held := by
  intro v tx htx
  rw [htargets, hlocks]
  exact hs v tx (hworkers ▸ htx)

theorem reclaim_moves (hs : s.Held) (h : s.reclaim w = some s') : s.Moves s' ∧ s'.targets = s.targets ∧ s'.jobs = s.jobs := by
  obtain ⟨-, ids, hids, rfl⟩ := reclaim_spec h
  refine ⟨moves_of_same rfl rfl (fun i hi => ⟨i, hi, rfl⟩) (hs.step (some w) ?_ ?_ ?_), rfl, rfl⟩
  · intro v _ id hid
    have hnot : id ∉ ids := fun hm => by simp [(hids id hm).1] at hid
    exact ⟨(if_neg hnot).trans hid, fun r hr _ => hr⟩
  · intro v hv tx htx
    exact ⟨tx, (setWorker_of_ne hv).symm.trans htx, rfl, rfl⟩
  · rintro v hv tx htx
    cases hv
    obtain rfl := Worker.claiming.inj ((setWorker_self s w _).symm.trans htx)
    refine ⟨fun id hid => ⟨if_pos hid, ?_⟩, by rintro _ ⟨⟩⟩
    obtain ⟨-, r, hr, hrid, hrun⟩ := hids id hid
    exact ⟨r, hr, hrid, by rw [hrun]; rfl⟩

theorem takeSnapshot_moves (hs : s.Held) (h : s.takeSnapshot w = some s') :
    s.Moves s' ∧ s'.targets = s.targets ∧ s'.jobs = s.jobs := by
  obtain ⟨tx, htx, -, rfl⟩ := takeSnapshot_spec h
  refine ⟨moves_of_same rfl rfl (fun i hi => ⟨i, hi, rfl⟩) (hs.step (some w) (fun v _ id hid => ⟨hid, fun r hr _ => hr⟩) ?_ ?_),
    rfl, rfl⟩
  · intro v hv tx htx
    exact ⟨tx, (setWorker_of_ne hv).symm.trans htx, rfl, rfl⟩
  · rintro v hv tx' htx'
    cases hv
    obtain rfl := Worker.claiming.inj ((setWorker_self s w _).symm.trans htx')
    exact ⟨(hs w tx htx).1, by rintro _ ⟨⟩⟩

theorem claimTarget_moves (hs : s.Held) {skipped : List κ} (h : s.claimTarget w skipped = some s') :
    s.Moves s' ∧ s'.targets = s.targets ∧ s'.jobs = s.jobs := by
  obtain ⟨tx, snapshot, found, htx, -, hfound, rfl⟩ := claimTarget_spec h
  refine ⟨moves_of_same rfl rfl (fun i hi => ⟨i, hi, rfl⟩) (hs.step (some w) ?_ ?_ ?_), rfl, rfl⟩
  · intro v hv id hid
    refine ⟨(if_neg ?_).trans hid, fun r hr _ => hr⟩
    intro hany
    obtain ⟨t, rfl, ht⟩ := (Option.any_eq_true _ _).mp hany
    rcases (hfound t rfl).2.2.1 with hlock | hlock <;> rw [of_decide_eq_true ht, hid] at hlock
    · cases hlock
    · exact hv hlock.symm
  · intro v hv tx' htx'
    exact ⟨tx', (setWorker_of_ne hv).symm.trans htx', rfl, rfl⟩
  · rintro v hv tx' htx'
    cases hv
    obtain rfl := Worker.claiming.inj ((setWorker_self s w _).symm.trans htx')
    refine ⟨fun id hid => ?_, fun t ht => ?_⟩
    · obtain ⟨hlock, hrow⟩ := (hs w tx htx).1 id hid
      exact ⟨by simp [hlock], hrow⟩
    · cases ht
      refine ⟨by simp, ?_⟩
      rcases (hfound t rfl).2.2.2 with hm | ⟨r, hr, hid, hpend⟩
      · exact ((hs w tx htx).1 t.id hm).2
      · exact ⟨r, hr, hid, by rw [hpend]; rfl⟩

omit [LinearOrder κ] in
theorem stop_moves (hs : s.Held) :
    s.Moves { s with rowLocks := s.unlock w, workers := s.setWorker w .idle } := by
  refine moves_of_same rfl rfl (fun i hi => ⟨i, hi, rfl⟩) (hs.step (some w) ?_ ?_ ?_)
  · intro v hv id hid
    have hne : s.rowLocks id ≠ some w := hid ▸ fun he => hv he.symm
    exact ⟨(if_neg hne).trans hid, fun r hr _ => hr⟩
  · intro v hv tx htx
    exact ⟨tx, (setWorker_of_ne hv).symm.trans htx, rfl, rfl⟩
  · rintro v hv tx htx
    cases hv
    cases (setWorker_self s w .idle).symm.trans htx

end Ledger
end Akb.Rollout

/-! An installation is open in one unfinished job at most, as long as no job is made for an installation,
and none is taken up again, while another job has it open. -/
namespace Akb.Rollout
open Akb.Library
variable {κ ω : Type} [LinearOrder κ] [DecidableEq ω]

namespace Ledger
variable {s s' : Ledger κ ω} {w : ω}

/-- A worker that yields a target which had ended, or completes one of a job which had ended, opens
nothing that another job has open. -/
def Reopens (s : Ledger κ ω) (t : Target κ ω) : Execution → Prop
  | .failed _ => True
  | .yielded => ∀ r ∈ s.targets, r.id = t.id → r.state.open = false →
      (∃ j ∈ s.jobs, j.id = r.jobId ∧ j.status.live = true) → ∀ c, s.OpenIn r.installationId c → c = r.jobId
  | .converged _ => ∀ j ∈ s.jobs, j.id = t.jobId → j.status.live = false → ∀ r ∈ s.targets, r.jobId = t.jobId →
      r.id ≠ t.id → r.state.open = true → ∀ c, s.OpenIn r.installationId c → c = t.jobId

omit [DecidableEq ω] in
private theorem committed_installation (w : ω) (tx : ClaimTx κ ω) (found : Option (Target κ ω)) (r : Target κ ω) :
    (committed w tx found r).installationId = r.installationId := by
  rw [committed]
  split <;> split <;> rfl

theorem commitClaim_moves (hs : s.Held) (h : s.commitClaim w = some s') : s.Moves s' ∧ s.Opens s' none := by
  obtain ⟨tx, found, htx, hstage, hrows, hlocks, hinst, hrest⟩ := commitClaim_spec h
  have hmem : ∀ r', r' ∈ s'.targets ↔ ∃ r ∈ s.targets, committed w tx found r = r' := by
    intro r'
    rw [Table.mem_def, hrows, List.mem_map]
    rfl
  have hjobs : ∃ f : Job κ → Job κ, (∀ j, (f j).id = j.id ∧ (f j).status.live = j.status.live) ∧
      ∀ j', j' ∈ s'.jobs ↔ ∃ j ∈ s.jobs, f j = j' := by
    rcases hrest with ⟨-, hsame, -⟩ | ⟨t, -, hset, -⟩
    · exact ⟨id, fun _ => ⟨rfl, rfl⟩, fun j' => by simp [hsame]⟩
    · refine ⟨fun j => if j.id = t.jobId then j.start else j, fun j => ?_, fun j' => hset ▸ mem_setJob Job.start_id⟩
      dsimp only
      split
      · refine ⟨Job.start_id j, ?_⟩
        rw [Job.start]
        split
        case isTrue hp => rw [hp]; rfl
        case isFalse => rfl
      · exact ⟨rfl, rfl⟩
  obtain ⟨f, hf, hjmem⟩ := hjobs
  refine ⟨⟨?_, ?_, ?_, ?_⟩, ?_⟩
  · intro r' hr'
    obtain ⟨r, hr, rfl⟩ := (hmem r').mp hr'
    exact ⟨r, hr, (committed_same w tx found r).jobId, committed_installation w tx found r⟩
  · exact fun j hj => ⟨f j, (hjmem _).mpr ⟨j, hj, rfl⟩, (hf j).1⟩
  · exact fun i hi => ⟨i, hinst ▸ hi, rfl⟩
  · refine hs.step (some w) ?_ ?_ ?_
    · intro v hv id hid
      have hne : some v ≠ some w := fun he => hv he.symm
      refine ⟨by rw [hlocks, unlock, if_neg (hid ▸ hne)]; exact hid, ?_⟩
      rintro r hr rfl
      exact (hmem r).mpr ⟨r, hr, committed_of_free hs htx hstage (hid ▸ hne)⟩
    · intro v hv tx' htx'
      have hne : v ≠ w := fun he => hv (congrArg some he.symm)
      rcases hrest with ⟨-, -, hworkers⟩ | ⟨t, -, -, hworkers⟩
      · rw [hworkers, setWorker, if_neg hne] at htx'
        exact ⟨tx', htx', rfl, rfl⟩
      · rw [hworkers, overtake, if_neg hne] at htx'
        cases hw : s.workers v with
        | claiming tx₀ =>
          rw [hw] at htx'
          cases htx'
          exact ⟨tx₀, rfl, rfl, rfl⟩
        | idle =>
          rw [hw] at htx'
          cases htx'
        | working t₀ =>
          rw [hw] at htx'
          cases htx'
    · rintro v hv tx' htx'
      cases hv
      rcases hrest with ⟨-, -, hworkers⟩ | ⟨t, -, -, hworkers⟩
      · rw [hworkers, setWorker, if_pos rfl] at htx'
        cases htx'
      · rw [hworkers, overtake, if_pos rfl] at htx'
        cases htx'
  · rintro x b ⟨⟨r', hr', hx, hb, hopen⟩, j', hj', hjb, hlive⟩
    obtain ⟨r, hr, rfl⟩ := (hmem r').mp hr'
    obtain ⟨j, hj, rfl⟩ := (hjmem j').mp hj'
    rw [committed_installation] at hx
    rw [(committed_same w tx found r).jobId] at hb
    rw [(hf j).1] at hjb
    rw [(hf j).2] at hlive
    exact .inl ⟨⟨r, hr, hx, hb, committed_open hs htx hstage hr hopen⟩, j, hj, hjb, hlive⟩

omit [DecidableEq ω] in
private theorem moved_installation (s : Ledger κ ω) (t : Target κ ω) (execution : Execution) (r : Target κ ω) :
    (s.moved t execution r).installationId = r.installationId := by
  unfold moved
  split <;> repeat' split
  all_goals rfl

omit [DecidableEq ω] in
/-- A job whose row a step replaces by one with the same key. -/
private theorem job_kept {f : Job κ → Job κ} (hf : ∀ j, (f j).id = j.id) {id : κ} {jobs : Table (Job κ) Job.id}
    (h : jobs = s.setJob id f hf) : ∀ j ∈ s.jobs, ∃ j' ∈ jobs, j'.id = j.id := by
  intro j hj
  refine ⟨_, h ▸ (mem_setJob hf).mpr ⟨j, hj, rfl⟩, ?_⟩
  split
  · exact hf j
  · rfl

omit [DecidableEq ω] in
/-- What processing opens, if what it reopens is open nowhere else. -/
theorem processed_opens {t : Target κ ω} {execution : Execution}
    (hg : s.blocks t execution = false → s.Reopens t execution) : ∃ b₀, s.Opens (s.processed t execution) (some b₀) := by
  unfold blocks at hg
  unfold processed
  have hblock : ∀ reason, s.Opens (s.markJobBlocked t reason) (some t.jobId) := by
    rintro reason x b ⟨⟨r', hr', hx, hb, hopen⟩, j', hj', hjb, hlive⟩
    obtain ⟨r, hr, rfl⟩ : ∃ r ∈ s.targets, (if r.id = t.id then r.fail reason else
        if r.jobId = t.jobId ∧ r.state = .pending then r.block else r) = r' := by
      rw [Table.mem_def, markJobBlocked_rows] at hr'
      exact List.mem_map.mp hr'
    obtain ⟨j, hj, rfl⟩ := (mem_setJob (f := Job.block reason) (fun _ => rfl)).mp hj'
    split at hopen
    · cases hopen
    · rename_i hne
      rw [if_neg hne] at hx hb
      split at hopen
      · cases hopen
      · rename_i hne'
        rw [if_neg hne'] at hx hb
        split at hlive
        · cases hlive
        · rename_i hother
          rw [if_neg hother] at hjb
          exact .inl ⟨⟨r, hr, hx, hb, hopen⟩, j, hj, hjb, hlive⟩
  cases hpre : s.preflightTarget t with
  | some reason => exact ⟨_, hblock reason⟩
  | none =>
    cases execution with
    | failed reason => exact ⟨_, hblock reason⟩
    | yielded =>
      have hg' := hg (by rw [hpre])
      by_cases hrow : ∃ r ∈ s.targets, r.id = t.id
      · obtain ⟨r₀, hr₀, hid₀⟩ := hrow
        refine ⟨r₀.jobId, ?_⟩
        rintro x b ⟨⟨r', hr', hx, hb, hopen⟩, j, hj, hjb, hlive⟩
        obtain ⟨r, hr, rfl⟩ := List.mem_map.mp hr'
        by_cases hid : r.id = t.id
        · obtain rfl : r = r₀ := Table.eq_of_key hr hr₀ (hid.trans hid₀.symm)
          rw [if_pos (decide_eq_true hid)] at hx hb
          by_cases hclosed : r.state.open = true
          · exact .inl ⟨⟨r, hr, hx, hb, hclosed⟩, j, hj, hjb, hlive⟩
          · refine .inr ⟨congrArg some hb, fun c hc => ?_⟩
            have hx' : r.installationId = x := hx
            rw [hg' r hr hid (Bool.not_eq_true _ ▸ hclosed) ⟨j, hj, hjb.trans hb.symm, hlive⟩ c (hx' ▸ hc)]
        · rw [if_neg (by simpa using hid)] at hx hb hopen
          exact .inl ⟨⟨r, hr, hx, hb, hopen⟩, j, hj, hjb, hlive⟩
      · refine ⟨t.jobId, ?_⟩
        rintro x b ⟨⟨r', hr', hx, hb, hopen⟩, j, hj, hjb, hlive⟩
        obtain ⟨r, hr, rfl⟩ := List.mem_map.mp hr'
        have hid : r.id ≠ t.id := fun he => hrow ⟨r, hr, he⟩
        rw [if_neg (by simpa using hid)] at hx hb hopen
        exact .inl ⟨⟨r, hr, hx, hb, hopen⟩, j, hj, hjb, hlive⟩
    | converged fingerprint =>
      have hg' := hg (by rw [hpre])
      refine ⟨t.jobId, ?_⟩
      rintro x b ⟨⟨r', hr', hx, hb, hopen⟩, j', hj', hjb, hlive⟩
      obtain ⟨r, hr, rfl⟩ := List.mem_map.mp hr'
      obtain ⟨j, hj, rfl⟩ := (mem_setJob (f := Job.advance _) (fun _ => rfl)).mp hj'
      by_cases hid : r.id = t.id
      · rw [if_pos (decide_eq_true hid)] at hopen
        cases hopen
      · rw [if_neg (by simpa using hid)] at hx hb hopen
        by_cases hjt : j.id = t.jobId
        · rw [if_pos hjt] at hjb
          have hjb' : j.id = b := hjb
          by_cases hended : j.status.live = true
          · exact .inl ⟨⟨r, hr, hx, hb, hopen⟩, j, hj, hjb', hended⟩
          · refine .inr ⟨congrArg some (hjt.symm.trans hjb'), fun c hc => ?_⟩
            rw [hg' j hj hjt (Bool.not_eq_true _ ▸ hended) r hr (hb.trans (hjb'.symm.trans hjt)) hid hopen c (hx ▸ hc)]
        · rw [if_neg hjt] at hjb hlive
          exact .inl ⟨⟨r, hr, hx, hb, hopen⟩, j, hj, hjb, hlive⟩

theorem processTarget_moves (hs : s.Held) {execution : Execution} (h : s.processTarget w execution = some s')
    (hg : ∀ t, s.workers w = .working t → s.blocks t execution = false → s.Reopens t execution) :
    s.Moves s' ∧ ∃ b₀, s.Opens s' (some b₀) := by
  obtain ⟨t, ht, rfl, hfree⟩ := processTarget_spec h
  obtain ⟨b₀, hopens⟩ := processed_opens (hg t ht)
  have hmem : ∀ r', r' ∈ (s.processed t execution).targets ↔ ∃ r ∈ s.targets, s.moved t execution r = r' := by
    intro r'
    rw [Table.mem_def, processed_rows, List.mem_map]
    rfl
  obtain ⟨hlocks, -⟩ := s.processed_frame t execution
  refine ⟨⟨?_, ?_, ?_, ?_⟩, b₀, hopens⟩
  · intro r' hr'
    obtain ⟨r, hr, rfl⟩ := (hmem r').mp hr'
    exact ⟨r, hr, (s.moved_same t execution r).jobId, s.moved_installation t execution r⟩
  · intro j hj
    rcases s.processed_cases t execution with ⟨reason, -, hp, -⟩ | ⟨hp, -⟩ | ⟨fingerprint, hp, -⟩
    · exact job_kept (f := Job.block reason) (fun _ => rfl) (by rw [hp]; rfl) j hj
    · exact ⟨j, by rw [hp]; exact hj, rfl⟩
    · exact job_kept (f := Job.advance _) (fun _ => rfl) (by rw [hp]; rfl) j hj
  · intro i hi
    have hset : ∀ f hf, ∃ i' ∈ s.setInstallation t f hf, i'.id = i.id := by
      intro f hf
      refine ⟨_, List.mem_map.mpr ⟨i, hi, rfl⟩, ?_⟩
      split
      · exact hf i
      · rfl
    rcases s.processed_cases t execution with ⟨reason, -, hp, -⟩ | ⟨hp, -⟩ | ⟨fingerprint, hp, -⟩
    · rw [hp]
      exact hset (Installation.block reason) (fun _ => rfl)
    · rw [hp]
      exact ⟨i, hi, rfl⟩
    · rw [hp]
      exact hset (Installation.converge t.releaseId fingerprint) (fun _ => rfl)
  · refine hs.step (some w) ?_ ?_ ?_
    · intro v hv id hid
      refine ⟨hlocks ▸ hid, ?_⟩
      rintro r hr rfl
      refine (hmem r).mpr ⟨r, hr, ?_⟩
      by_contra hmoved
      rw [hfree r hr hmoved] at hid
      cases hid
    · intro v hv tx htx
      exact ⟨tx, (if_neg (fun he => hv (congrArg some he.symm))).symm.trans htx, rfl, rfl⟩
    · rintro v hv tx htx
      cases hv
      cases (if_pos (c := w = w) rfl).symm.trans htx

end Ledger
end Akb.Rollout
