import Akb.Rollout.OpenClaims

/-! The batch gate: targets of one job run one after another, as long as no claim
overtakes another of its batch and no settled target is processed again. -/
namespace Akb.Rollout
open Akb.Library
variable {κ ω : Type} [LinearOrder κ] [DecidableEq ω] {s s' : Ledger κ ω} {w : ω}

namespace Ledger

/-- Wherever a target runs, the earlier batches of its job are settled and no other
target of the job runs. -/
def Serial (s : Ledger κ ω) : Prop := ∀ t ∈ s.targets, t.state = .running →
  (∀ r ∈ s.targets, r.jobId = t.jobId → r.batchNo < t.batchNo → r.state.settled = true) ∧
    ∀ r ∈ s.targets, r.jobId = t.jobId → r.state = .running → r.id = t.id

omit [DecidableEq ω] in
private theorem Serial.follows (hserial : s.Serial) (hs : s.ClaimsSound) {actor : Option ω}
    (hf : s.Follows s' actor none) : s'.Serial := by
  have hrow : ∀ t' ∈ s'.targets, t'.state = .running → ∃ t ∈ s.targets, t'.Same t ∧ t.state = .running := by
    intro t' ht' hrun
    rcases hf.rows t' ht' with ⟨_, hno⟩ | ⟨t, ht, hsame, _, hrunning⟩
    · exact absurd hrun hno
    · exact ⟨t, ht, hsame, (hrunning hrun).resolve_right (by rintro ⟨⟩)⟩
  intro t' ht' hrun'
  obtain ⟨t, ht, hsame, hrun⟩ := hrow t' ht' hrun'
  obtain ⟨hearlier, halone⟩ := hserial t ht hrun
  constructor
  · intro r' hr' hjob hbatch
    rcases hf.rows r' hr' with ⟨hno, _⟩ | ⟨r, hr, hrsame, hsettled, _⟩
    · obtain ⟨j, hj, hid⟩ := hs.hasJob t ht
      exact absurd (hid.trans (hsame.jobId.symm.trans hjob.symm)) (hno j hj)
    · exact hsettled (hearlier r hr (by rw [← hrsame.jobId, hjob, hsame.jobId])
        (by rwa [← hrsame.batchNo, ← hsame.batchNo]))
  · intro r' hr' hjob hrun₂
    obtain ⟨r, hr, hrsame, hrrun⟩ := hrow r' hr' hrun₂
    rw [hrsame.id, hsame.id]
    exact halone r hr (by rw [← hrsame.jobId, hjob, hsame.jobId]) hrrun

omit [DecidableEq ω] in
/-- Nothing runs beside a target whose claim is not overtaken. -/
private theorem found_alone (hserial : s.Serial) {tx : ClaimTx κ ω} {t r : Target κ ω} (hc : s.OpenClaim w tx)
    (hstage : tx.stage = .locked (some t)) (hover : (t.jobId, t.batchNo) ∉ tx.overtaken) (hr : r ∈ s.targets)
    (hjob : r.jobId = t.jobId) (hrun : r.state = .running) : r.id ∈ tx.reclaimed := by
  obtain ⟨hgate, _, hrow⟩ := hc.locked t hstage
  obtain ⟨r₀, hr₀, hsame⟩ := hgate.known
  rcases Nat.lt_trichotomy r.batchNo t.batchNo with hlt | heq | hgt
  · have hsettled := hgate.earlier r hr hjob hlt
    rw [hrun] at hsettled
    cases hsettled
  · exact hgate.alone hover r hr hjob heq hrun
  · have hsettled := (hserial r hr hrun).1 r₀ hr₀ (hsame.jobId.trans hjob.symm) (by rw [hsame.batchNo]; exact hgt)
    rcases hrow with hm | ⟨r₁, hr₁, hid₁, hpend⟩
    · obtain ⟨_, r₁, hr₁, hid₁, hrun₁⟩ := hc.reclaimed _ hm
      rw [← Table.eq_of_key hr₁ hr₀ (hid₁.trans hsame.id.symm), hrun₁] at hsettled
      cases hsettled
    · rw [← Table.eq_of_key hr₁ hr₀ (hid₁.trans hsame.id.symm), hpend] at hsettled
      cases hsettled

omit [DecidableEq ω] in
private theorem committed_running {tx : ClaimTx κ ω} {found : Option (Target κ ω)} {r : Target κ ω}
    (h : (committed w tx found r).state = .running) :
    (∃ t, found = some t ∧ t.id = r.id) ∨ r.id ∉ tx.reclaimed ∧ r.state = .running := by
  by_cases hfound : found.any (fun t => t.id = r.id) = true
  · obtain ⟨t, ht, hid⟩ := (Option.any_eq_true _ _).mp hfound
    exact .inl ⟨t, ht, of_decide_eq_true hid⟩
  · rw [committed, if_neg hfound] at h
    split at h
    case isTrue => cases h
    case isFalse hm => exact .inr ⟨hm, h⟩

private theorem Serial.commitClaim (hserial : s.Serial) (hs : s.ClaimsSound) (hg : s.Undisturbed (.commitClaim w))
    (h : s.commitClaim w = some s') : s'.Serial := by
  obtain ⟨tx, found, htx, hstage, hrows, _⟩ := commitClaim_spec h
  have hc := hs.claims w tx htx
  have hmem : ∀ r' ∈ s'.targets, ∃ r ∈ s.targets, committed w tx found r = r' := by
    intro r' hr'
    rw [Table.mem_def, hrows] at hr'
    exact List.mem_map.mp hr'
  have hsame := committed_same w tx found
  -- Two running rows of one job are one: an old one and the found one exclude each other.
  have halone : ∀ a ∈ s.targets, ∀ b ∈ s.targets, b.jobId = a.jobId → (committed w tx found a).state = .running →
      (committed w tx found b).state = .running → b.id = a.id := by
    intro a ha b hb hjob hra hrb
    rcases committed_running hra with ⟨t, rfl, hta⟩ | ⟨hma, hra'⟩ <;>
      rcases committed_running hrb with ⟨t', ht', htb⟩ | ⟨hmb, hrb'⟩
    · rw [← htb, ← hta, Option.some.inj ht']
    · obtain ⟨a₀, ha₀, hsame₀⟩ := (hc.locked t hstage).1.known
      have haa := Table.eq_of_key ha₀ ha (hsame₀.id.trans hta)
      exact absurd (found_alone hserial hc hstage (hg tx t htx hstage) hb (by rw [hjob, ← haa, hsame₀.jobId]) hrb') hmb
    · subst ht'
      obtain ⟨b₀, hb₀, hsame₀⟩ := (hc.locked t' hstage).1.known
      have hbb := Table.eq_of_key hb₀ hb (hsame₀.id.trans htb)
      exact absurd (found_alone hserial hc hstage (hg tx t' htx hstage) ha (by rw [← hjob, ← hbb, hsame₀.jobId]) hra') hma
    · exact (hserial a ha hra').2 b hb hjob hrb'
  intro t' ht' hrun
  obtain ⟨a, ha, rfl⟩ := hmem t' ht'
  refine ⟨?_, ?_⟩
  · intro r' hr' hjob hbatch
    obtain ⟨r, hr, rfl⟩ := hmem r' hr'
    rw [(hsame r).jobId, (hsame a).jobId] at hjob
    rw [(hsame r).batchNo, (hsame a).batchNo] at hbatch
    have hsettled : r.state.settled = true := by
      rcases committed_running hrun with ⟨t, rfl, hta⟩ | ⟨_, hra⟩
      · have hgate := (hc.locked t hstage).1
        obtain ⟨a₀, ha₀, hsame₀⟩ := hgate.known
        have haa := Table.eq_of_key ha₀ ha (hsame₀.id.trans hta)
        exact hgate.earlier r hr (by rw [hjob, ← haa, hsame₀.jobId]) (by rwa [← hsame₀.batchNo, haa])
      · exact (hserial a ha hra).1 r hr hjob hbatch
    rw [committed_settled hs htx hstage hr hsettled]
    exact hsettled
  · intro r' hr' hjob hrun'
    obtain ⟨r, hr, rfl⟩ := hmem r' hr'
    rw [(hsame r).jobId, (hsame a).jobId] at hjob
    rw [(hsame r).id, (hsame a).id]
    exact halone a ha r hr hjob hrun hrun'

/-- The claims stay sound and the targets run one after another. -/
theorem serial_step (hs : s.ClaimsSound ∧ s.Serial) {a : LedgerAction κ ω} (hg : s.Undisturbed a) (h : s.step a s') :
    s'.ClaimsSound ∧ s'.Serial := by
  refine ⟨hs.1.step hg h, ?_⟩
  obtain ⟨actor, started, hf, rfl | ⟨w, rfl⟩⟩ := step_follows hs.1 hg h
  · exact hs.2.follows hs.1 hf
  · exact hs.2.commitClaim hs.1 hg h

theorem serial_run {now : Int} {actions : List (LedgerAction κ ω)}
    (h : Run (Guarded Ledger.step Undisturbed) (Ledger.empty now) actions s) : s.ClaimsSound ∧ s.Serial :=
  Run.invariant (I := fun s => s.ClaimsSound ∧ s.Serial) (fun _ _ _ hi ha => serial_step hi ha.2 ha.1) h
    ⟨.empty now, fun t ht => absurd ht (Table.not_mem_empty t)⟩

/-- In a run that no second claim and no second processing disturbs, a running target
follows on settled batches and runs alone in its job. -/
theorem batches_gated {now : Int} {actions : List (LedgerAction κ ω)}
    (h : Run (Guarded Ledger.step Undisturbed) (Ledger.empty now) actions s) :
    ∀ t ∈ s.targets, t.state = .running →
      (∀ r ∈ s.targets, r.jobId = t.jobId → r.batchNo < t.batchNo → r.state.settled = true) ∧
        ∀ r ∈ s.targets, r.jobId = t.jobId → r.state = .running → r.id = t.id :=
  (serial_run h).2

end Ledger

/-- Installations that wait for a first release. -/
def waiting (id : Nat) : LedgerAction Nat Nat := .change ⟨id, 0, .installing, none, some 7, 1, some 1, none, none⟩

def claimed (w : Nat) : List (LedgerAction Nat Nat) := [.reclaim w, .takeSnapshot w, .claimTarget w [], .commitClaim w]

/-- One worker takes the canary and then a target of the next batch. -/
def oneByOne : List (LedgerAction Nat Nat) :=
  [waiting 1, waiting 2, .persistRolloutJob 0 7 5 [(11, 1), (12, 2)]] ++ claimed 1 ++
    [.processTarget 1 (.converged "f")] ++ claimed 1

private theorem oneByOne_run :
    ∃ s : Ledger Nat Nat, Run (Guarded Ledger.step Ledger.Undisturbed) (Ledger.empty 0) oneByOne s ∧
      ∃ t ∈ s.targets.rows, t.batchNo = 1 ∧ t.state = .running := by
  refine ⟨_, .cons ⟨rfl, trivial⟩ (.cons ⟨rfl, trivial⟩ (.cons ⟨rfl, trivial⟩ (.cons ⟨rfl, trivial⟩
    (.cons ⟨rfl, trivial⟩ (.cons ⟨rfl, trivial⟩ (.cons ⟨rfl, ?_⟩ (.cons ⟨rfl, ?_⟩ (.cons ⟨rfl, trivial⟩
    (.cons ⟨rfl, trivial⟩ (.cons ⟨rfl, trivial⟩ (.cons ⟨rfl, ?_⟩ (.nil _)))))))))))), by decide⟩
  · rintro tx t htx hstage
    cases htx
    cases hstage
    decide
  · rintro t ht
    cases ht
    decide
  · rintro tx t htx hstage
    cases htx
    cases hstage
    decide

theorem next_batch_gated :
    ∃ s : Ledger Nat Nat, Run (Guarded Ledger.step Ledger.Undisturbed) (Ledger.empty 0) oneByOne s ∧
      ∃ t ∈ s.targets, t.batchNo = 1 ∧ t.state = .running ∧
        (∀ r ∈ s.targets, r.jobId = t.jobId → r.batchNo < t.batchNo → r.state.settled = true) ∧
        ∀ r ∈ s.targets, r.jobId = t.jobId → r.state = .running → r.id = t.id := by
  obtain ⟨s, hrun, t, ht, hbatch, hstate⟩ := oneByOne_run
  exact ⟨s, hrun, t, ht, hbatch, hstate, Ledger.batches_gated hrun t ht hstate⟩

/-- The canary has converged. Two workers then claim from the next batch at once. -/
def claimsOverlap : List (LedgerAction Nat Nat) :=
  [waiting 1, waiting 2, waiting 3, .persistRolloutJob 0 7 5 [(11, 1), (12, 2), (13, 3)]] ++ claimed 1 ++
    [.processTarget 1 (.converged "f"), .reclaim 1, .takeSnapshot 1, .claimTarget 1 [], .reclaim 2, .takeSnapshot 2,
      .claimTarget 2 [], .commitClaim 1]

/-- The second claim moves a target to running beside the first one. -/
theorem siblings_run_together :
    ∃ s s' : Ledger Nat Nat, Run Ledger.step (Ledger.empty 0) claimsOverlap s ∧ s.step (.commitClaim 2) s' ∧
      ∃ t ∈ s'.targets, ∃ r ∈ s'.targets, r.jobId = t.jobId ∧ r.batchNo = t.batchNo ∧ r.id ≠ t.id ∧
        r.state = .running ∧ t.state = .running ∧ s'.workers 2 = .working t.withdraw := by
  obtain ⟨s, hs, s', hs', hrows⟩ : ∃ s : Ledger Nat Nat, execute Ledger.next (Ledger.empty 0) claimsOverlap = some s ∧
      ∃ s', s.next (.commitClaim 2) = some s' ∧
      ∃ t ∈ s'.targets.rows, ∃ r ∈ s'.targets.rows, r.jobId = t.jobId ∧ r.batchNo = t.batchNo ∧ r.id ≠ t.id ∧
        r.state = .running ∧ t.state = .running ∧ s'.workers 2 = .working t.withdraw := ⟨_, rfl, _, rfl, by decide⟩
  exact ⟨s, s', run_of_execute hs, hs', hrows⟩

end Akb.Rollout
