import Akb.Queues.Attempts

/-! The accounts hold in every state that the workers reach. -/
namespace Akb.Queues
open Akb.Library Akb.Events
variable {κ π ω : Type} [LinearOrder κ] [DecidableEq ω] {s s' : Queue κ π ω} {w : ω}

omit [LinearOrder κ] in
private theorem mem_setWorker_idle {v : ω} {h : ClaimedRow κ π} (hh : h ∈ (s.setWorker w .idle v).rows) :
    v ≠ w ∧ h ∈ (s.workers v).rows := by
  by_cases hv : v = w
  · rw [Queue.setWorker, if_pos hv] at hh
    exact absurd hh List.not_mem_nil
  · rw [Queue.setWorker, if_neg hv] at hh
    exact ⟨hv, hh⟩

/-- What is handed back was this worker's: its claim was the last one. -/
private theorem RowAccounted.handBack {r : QueueRow κ π} (hr : RowAccounted s r) (hd : Discipline s)
    {h : ClaimedRow κ π} (hh : h ∈ (s.workers w).rows) (hid : h.id = r.id) (hsince : r.heldSince h.claimedAt = true)
    (ids : List κ) :
    RowAccounted { s with
      workers := s.setWorker w .idle
      ledger := s.ledger.settle (s.workers w).batch ids .handedBack } (r.handBack s.now) := by
  simp only [QueueRow.heldSince, Bool.and_eq_true, Option.isNone_iff_eq_none, decide_eq_true_eq] at hsince
  obtain ⟨⟨hdone, hab⟩, hat⟩ := hsince
  refine ⟨?_, fun _ h => absurd hab h, ?_, fun _ _ _ _ _ h => absurd h.symm (Option.some_ne_none _)⟩
  · have hspent := ClaimLedger.spent_le_settle hd.keyed (s.workers w).batch ids r.id .handedBack
    have hcov := hr.covered
    change r.attempts - 1 ≤ (s.ledger.settle (s.workers w).batch ids .handedBack).spent r.id
    omega
  · intro _ v h' hh' hid'
    obtain ⟨hv, hmem⟩ := mem_setWorker_idle hh'
    obtain ⟨hfewer, hbefore⟩ := hr.latest hdone w h hh hid hat v hv h' hmem hid'
    have hnow := (hr.held hdone w h hh hid).earlier
    refine ⟨Nat.le_sub_one_of_lt hfewer, ?_, fun _ => ⟨s.now, rfl, ?_⟩⟩
    · change h'.claimedAt ≤ s.now
      omega
    · omega

theorem Accounted.release (hs : Accounted s) (w : ω) :
    Accounted { s with
      rows := release s.rows s.now (s.workers w).rows
      workers := s.setWorker w .idle
      ledger := s.ledger.settle (s.workers w).batch (s.released (s.workers w).rows) .handedBack } := by
  have hd := hs.discipline
  have hidle : LeftOf .idle (s.workers w) := .inl rfl
  cases hbatch : (s.workers w).rows with
  | nil =>
    have hshrunk := hs.shrink hidle
    refine ⟨hshrunk.discipline.settle .handedBack (fun _ _ _ => .inr List.not_mem_nil), fun r hr => ?_⟩
    exact (hshrunk.row r hr).settle _ _ _ (.inr (.inr List.not_mem_nil))
  | cons first rest =>
    rw [← hbatch]
    have hfirst : first ∈ (s.workers w).rows := hbatch ▸ List.mem_cons_self
    set selected : QueueRow κ π → Bool := fun r =>
      ((s.workers w).rows.map ClaimedRow.id).contains r.id && r.heldSince first.claimedAt with hselected
    have hrelease : Queues.release s.rows s.now (s.workers w).rows = updateRows s.rows selected (QueueRow.handBack s.now) := by
      rw [hselected, hbatch]
      rfl
    have hreleased : s.released (s.workers w).rows = (s.rows.filter selected).map QueueRow.id := by
      rw [hselected, hbatch]
      rfl
    rw [hrelease, hreleased]
    refine ⟨((hd.shrink hidle).settle .handedBack ?_).update _ (fun _ => rfl), ?_⟩
    · intro v h hh
      obtain ⟨hv, hmem⟩ := mem_setWorker_idle hh
      have hne := hd.apart v w hv (List.ne_nil_of_mem hmem) (List.ne_nil_of_mem hfirst)
      refine .inl ?_
      change (s.setWorker w .idle v).batch ≠ _
      rw [Queue.setWorker, if_neg hv]
      exact hne
    · intro r' hr'
      obtain ⟨r, hr, ⟨hsel, rfl⟩ | ⟨hsel, rfl⟩⟩ := mem_updateRows hr'
      · rw [hselected, Bool.and_eq_true, List.contains_iff_mem] at hsel
        obtain ⟨h, hh, hid⟩ := List.mem_map.mp hsel.1
        have hsince : r.heldSince h.claimedAt = true := hd.together w h hh first hfirst ▸ hsel.2
        have hacc := (hs.row r hr).handBack hd hh hid hsince ((s.rows.filter selected).map QueueRow.id)
        exact { hacc with }
      · have hout : r'.id ∉ (s.rows.filter selected).map QueueRow.id := by
          intro hmem
          obtain ⟨q, hq, hid⟩ := List.mem_map.mp hmem
          rw [List.mem_filter] at hq
          rw [List.inj_on_of_nodup_map hd.unique hq.1 hr hid, hsel] at hq
          exact Bool.false_ne_true hq.2
        have hacc := ((hs.row r' hr).shrink hidle).settle (s.workers w).batch _ .handedBack (.inr (.inr hout))
        exact { hacc with }

section processing
variable {row : ClaimedRow κ π} {rest : List (ClaimedRow κ π)}

omit [LinearOrder κ] in
/-- The claim at the head of a batch is held nowhere else. -/
private theorem Discipline.head_free (hd : Discipline s) (hrows : (s.workers w).rows = row :: rest) (releasing : Bool)
    (v : ω) : ∀ h ∈ (s.setWorker w ⟨(s.workers w).batch, rest, releasing⟩ v).rows,
      (s.setWorker w ⟨(s.workers w).batch, rest, releasing⟩ v).batch ≠ (s.workers w).batch ∨ h.id ≠ row.id := by
  intro h hh
  by_cases hv : v = w
  · rw [Queue.setWorker, if_pos hv] at hh
    have hdistinct := hd.distinct w
    rw [hrows, List.map_cons, List.nodup_cons] at hdistinct
    exact .inr (fun hid => hdistinct.1 (hid ▸ List.mem_map_of_mem hh))
  · rw [Queue.setWorker, if_neg hv] at hh ⊢
    exact .inl (hd.apart v w hv (List.ne_nil_of_mem hh) (hrows ▸ List.cons_ne_nil _ _))

private theorem Accounted.fail (hs : Accounted s) (hrows : (s.workers w).rows = row :: rest) (releasing : Bool)
    (error : String) :
    Accounted { s with
      rows := Queues.markFailed s.rows s.now row.id row.attempts error
      workers := s.setWorker w ⟨(s.workers w).batch, rest, releasing⟩
      ledger := s.ledger.settle (s.workers w).batch [row.id] .failed } := by
  have hleft : LeftOf ⟨(s.workers w).batch, rest, releasing⟩ (s.workers w) :=
    .inr ⟨rfl, hrows ▸ List.sublist_cons_self _ _⟩
  refine (hs.shrink hleft).markFailed error (hs.discipline.head_free hrows releasing) ?_
  intro r hr hid hdone
  exact ((hs.row r hr).held hdone w row (hrows ▸ List.mem_cons_self) hid.symm).counted

private theorem QueueKind.markFailed_eq (kind : QueueKind) (rows : List (QueueRow κ π)) (now : Int) (id : κ) (n : Nat)
    (error : String) : kind.markFailed rows now id n error = Queues.markFailed rows now id n error := by
  cases kind <;> rfl

theorem Accounted.process (hs : Accounted s) {kind : QueueKind} (hrows : (s.workers w).rows = row :: rest) {step : Step}
    (h : s.process kind w row rest step = some s') : Accounted s' := by
  have hleft : LeftOf ⟨(s.workers w).batch, rest, false⟩ (s.workers w) :=
    .inr ⟨rfl, hrows ▸ List.sublist_cons_self _ _⟩
  cases step with
  | succeed =>
    have hmark : kind.markDone s.rows s.now row.id = Queues.markDone s.rows s.now row.id := by cases kind <;> rfl
    rw [Queue.process, hmark] at h
    obtain ⟨_, h⟩ := Option.ite_none_right_eq_some.mp h
    cases h
    exact (hs.shrink hleft).markDone (hs.discipline.head_free hrows false)
  | fail error =>
    rw [Queue.process, kind.markFailed_eq] at h
    cases h
    exact hs.fail hrows false error
  | failAndStop error =>
    rw [Queue.process, kind.markFailed_eq] at h
    cases h
    exact hs.fail hrows true error
  | terminate error =>
    cases h
    exact (hs.shrink hleft).markTerminal error (hs.discipline.head_free hrows false)
      (hs.discipline.entered w row (hrows ▸ List.mem_cons_self))
  | vanish =>
    obtain ⟨_, h⟩ := Option.ite_none_left_eq_some.mp h
    cases h
    exact hs.shrink hleft
  | handBack =>
    cases h
    exact hs.shrink (.inr ⟨rfl, hrows ▸ List.Sublist.refl _⟩)

end processing

theorem Accounted.step {kind : QueueKind} {a : QueueAction κ π ω} (hs : Accounted s) (h : s.step kind a s') :
    Accounted s' := by
  rw [Queue.step] at h
  cases a with
  | insert id data createdAt nextAttemptAt =>
    obtain ⟨hnew, h⟩ := Option.ite_none_left_eq_some.mp h
    cases h
    exact hs.insert hnew data createdAt nextAttemptAt
  | delete id =>
    cases h
    exact hs.delete id
  | claim w locked =>
    obtain ⟨_, h⟩ := Option.ite_none_right_eq_some.mp h
    cases h
    cases kind with
    | events => exact hs.claim w
    | vectorDeletes => exact hs.claim w
    | chunks batchSize => exact hs.claim w
  | process w step =>
    rw [Queue.next] at h
    split at h
    case h_1 row rest hidle hrows =>
      obtain ⟨_, h⟩ := Option.ite_none_right_eq_some.mp h
      exact hs.process hrows h
    case h_2 => cases h
  | release w =>
    have hrelease : kind.releaseUnattempted s.rows s.now (s.workers w).rows =
        Queues.release s.rows s.now (s.workers w).rows := by
      cases kind <;> rfl
    rw [Queue.next, hrelease] at h
    obtain ⟨_, h⟩ := Option.ite_none_right_eq_some.mp h
    cases h
    exact hs.release w
  | stop w =>
    cases h
    exact hs.shrink (.inl rfl)
  | rescue =>
    cases h
    exact hs.rescue
  | elapse seconds =>
    cases h
    exact hs.elapse seconds

omit [DecidableEq ω] in
theorem accounted_empty (now : Int) : Accounted (Queue.empty now : Queue κ π ω) := by
  refine ⟨⟨List.nodup_nil, ?_, List.nodup_nil, ?_, ?_, ?_, ?_, ?_, ?_, ?_⟩, ?_⟩
  · exact fun r hr => absurd hr List.not_mem_nil
  · exact fun c hc => absurd hc List.not_mem_nil
  · exact fun _ h => absurd rfl h
  · exact fun _ _ _ h => absurd rfl h
  · exact fun _ h hh => absurd hh List.not_mem_nil
  · exact fun _ h hh => absurd hh List.not_mem_nil
  · exact fun _ => List.nodup_nil
  · exact fun _ h hh => absurd hh List.not_mem_nil
  · exact fun r hr => absurd hr List.not_mem_nil

/-- Only a chunk meets a fault for good. -/
private theorem tally_terminal_step {kind : QueueKind} (hkind : ∀ error, kind.takes (.terminate error) = false)
    {a : QueueAction κ π ω} {id : κ} (hs : s.ledger.tally id .terminal = 0) (h : s.step kind a s') :
    s'.ledger.tally id .terminal = 0 := by
  have hsettle : ∀ batch ids o, o ≠ .terminal → (s.ledger.settle batch ids o).tally id .terminal = 0 := by
    intro batch ids o ho
    rw [ClaimLedger.tally_settle_of_ne _ _ _ _ (by decide) ho.symm]
    exact hs
  rw [Queue.step] at h
  cases a with
  | insert id data createdAt nextAttemptAt =>
    obtain ⟨_, h⟩ := Option.ite_none_left_eq_some.mp h
    cases h
    exact hs
  | claim w locked =>
    obtain ⟨_, h⟩ := Option.ite_none_right_eq_some.mp h
    cases h
    rw [Queue.takeOn, ClaimLedger.tally_enter_of_ne _ _ _ _ (by decide)]
    exact hs
  | process w step =>
    rw [Queue.next] at h
    split at h
    case h_2 => cases h
    case h_1 row rest hidle hrows =>
      obtain ⟨htakes, h⟩ := Option.ite_none_right_eq_some.mp h
      cases step with
      | succeed =>
        obtain ⟨_, h⟩ := Option.ite_none_right_eq_some.mp h
        cases h
        exact hsettle _ _ _ (by decide)
      | vanish =>
        obtain ⟨_, h⟩ := Option.ite_none_left_eq_some.mp h
        cases h
        exact hs
      | terminate error =>
        rw [hkind error] at htakes
        cases htakes
      | _ =>
        cases h
        first
        | exact hs
        | exact hsettle _ _ _ (by decide)
  | release w =>
    obtain ⟨_, h⟩ := Option.ite_none_right_eq_some.mp h
    cases h
    exact hsettle _ _ _ (by decide)
  | _ =>
    cases h
    exact hs

/-- In every run of the workers of a queue, a row's counter is at most the number
of its own claims that failed or were left unsettled, and an unfinished row is
abandoned after that many reached the limit, or as a chunk with a fault for good. -/
theorem attempts_accounted (kind : QueueKind) (now : Int) (actions : List (QueueAction κ π ω)) (s : Queue κ π ω)
    (hrun : Run (Queue.step kind) (Queue.empty now) actions s) :
    ∀ r ∈ s.rows, r.attempts ≤ s.ledger.spent r.id ∧
      (r.doneAt = none → r.abandonedAt ≠ none → maxRetries ≤ s.ledger.spent r.id ∨
        (∃ batchSize, kind = .chunks batchSize) ∧ 0 < s.ledger.tally r.id .terminal) := by
  have hacc : Accounted s := hrun.invariant (fun _ _ _ hs h => hs.step h) (accounted_empty now)
  intro r hr
  have hrow := hacc.row r hr
  refine ⟨hrow.covered, fun hdone hab => ?_⟩
  rcases hrow.abandoned hdone hab with h | h
  · exact .inl (Nat.le_trans h hrow.covered)
  · refine .inr ⟨?_, h⟩
    by_contra hkind
    have hnever : ∀ error, kind.takes (.terminate error) = false := by
      intro error
      cases kind with
      | events => rfl
      | vectorDeletes => rfl
      | chunks batchSize => exact absurd ⟨batchSize, rfl⟩ hkind
    have hzero : s.ledger.tally r.id .terminal = 0 :=
      hrun.invariant (fun _ _ _ hs h => tally_terminal_step hnever hs h) rfl
    exact Nat.ne_of_gt h hzero

/-- A worker that is killed on each of eight claims. -/
def killedEachTime : List (QueueAction Nat Unit Nat) :=
  .insert 1 () 0 none :: (List.replicate 8 [.claim 0 [], .stop 0, .elapse 600]).flatten ++ [.rescue]

/-- The counter also counts claims that no failure followed, and those alone abandon a row. -/
theorem killed_worker_abandons :
    ¬ ∀ (kind : QueueKind) (now : Int) (actions : List (QueueAction Nat Unit Nat)) (s : Queue Nat Unit Nat),
      Run (Queue.step kind) (Queue.empty now) actions s →
      ∀ r ∈ s.rows, r.attempts ≤ s.ledger.tally r.id .failed + s.ledger.tally r.id .terminal ∧
        (r.abandonedAt ≠ none → maxRetries ≤ s.ledger.tally r.id .failed + s.ledger.tally r.id .terminal) := by
  intro h
  obtain ⟨s, hs, hrow⟩ : ∃ s : Queue Nat Unit Nat,
      execute (Queue.next .events) (Queue.empty 0) killedEachTime = some s ∧
      ∃ r ∈ s.rows, r.attempts = 8 ∧ r.abandonedAt ≠ none ∧
        s.ledger.tally r.id .failed + s.ledger.tally r.id .terminal = 0 :=
    ⟨_, rfl, by decide⟩
  obtain ⟨r, hr, hattempts, _, hnone⟩ := hrow
  have hle := (h .events 0 killedEachTime s (run_of_execute hs) r hr).1
  rw [hattempts, hnone] at hle
  exact absurd hle (by decide)

/-- A delete that failed once and was then claimed by a worker that was killed. -/
theorem attempts_accounted_twice :
    ∃ s : Queue Nat Unit Nat, Run (Queue.step .vectorDeletes) (Queue.empty 0)
        [.insert 1 () 0 (some 0), .claim 0 [], .process 0 (.fail "timeout"), .elapse 60, .claim 0 [], .stop 0] s ∧
      (∃ r ∈ s.rows, r.attempts = 2) ∧ ∀ r ∈ s.rows, r.attempts ≤ s.ledger.spent r.id := by
  obtain ⟨s, hs, hrow⟩ : ∃ s : Queue Nat Unit Nat, execute (Queue.next .vectorDeletes) (Queue.empty 0)
      [.insert 1 () 0 (some 0), .claim 0 [], .process 0 (.fail "timeout"), .elapse 60, .claim 0 [], .stop 0] = some s ∧
      ∃ r ∈ s.rows, r.attempts = 2 :=
    ⟨_, rfl, by decide⟩
  have hrun := run_of_execute hs
  exact ⟨s, hrun, hrow, fun r hr => (attempts_accounted .vectorDeletes 0 _ s hrun r hr).1⟩

end Akb.Queues
