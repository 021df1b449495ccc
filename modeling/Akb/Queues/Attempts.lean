import Akb.Queues.Accounting

/-! Each step of a worker, of the rescuer and of the writers keeps the accounts. -/
namespace Akb.Queues
open Akb.Library Akb.Events
variable {κ π ω : Type} [LinearOrder κ] {s : Queue κ π ω}

/-- A statement on one row together with the settlement of the claim it ends. -/
private theorem Accounted.mark (hs : Accounted s) {batch : Nat} {id : κ} {o : Outcome} {f : QueueRow κ π → QueueRow κ π}
    (hf : ∀ r, (f r).id = r.id)
    (hfree : ∀ w, ∀ h ∈ (s.workers w).rows, (s.workers w).batch ≠ batch ∨ h.id ≠ id)
    (hrow : ∀ r ∈ s.rows, r.id = id → RowAccounted { s with ledger := s.ledger.settle batch [id] o } (f r)) :
    Accounted { s with
      rows := updateRows s.rows (fun r => r.id = id) f, ledger := s.ledger.settle batch [id] o } := by
  refine ⟨(hs.discipline.settle o ?_).update _ hf, ?_⟩
  · intro w h hh
    rw [List.mem_singleton]
    exact hfree w h hh
  · intro r' hr'
    obtain ⟨r, hr, ⟨hid, rfl⟩ | ⟨hid, rfl⟩⟩ := mem_updateRows hr'
    · have hacc := hrow r hr (of_decide_eq_true hid)
      exact { hacc with }
    · have hne : r'.id ∉ [id] := by
        rw [List.mem_singleton]
        exact of_decide_eq_false hid
      have hacc := (hs.row r' hr).settle batch [id] o (.inr (.inr hne))
      exact { hacc with }

theorem Accounted.markDone (hs : Accounted s) {batch : Nat} {id : κ}
    (hfree : ∀ w, ∀ h ∈ (s.workers w).rows, (s.workers w).batch ≠ batch ∨ h.id ≠ id) :
    Accounted { s with rows := markDone s.rows s.now id, ledger := s.ledger.settle batch [id] .succeeded } :=
  hs.mark (fun _ => rfl) hfree (fun _ _ _ => .of_done (Option.some_ne_none _) rfl)

theorem Accounted.markFailed (hs : Accounted s) {batch : Nat} {h : ClaimedRow κ π} (error : String)
    (hfree : ∀ w, ∀ h' ∈ (s.workers w).rows, (s.workers w).batch ≠ batch ∨ h'.id ≠ h.id)
    (hcount : ∀ r ∈ s.rows, r.id = h.id → r.doneAt = none → h.attempts ≤ r.attempts) :
    Accounted { s with
      rows := markFailed s.rows s.now h.id h.attempts error
      ledger := s.ledger.settle batch [h.id] .failed } := by
  refine hs.mark (fun _ => rfl) hfree (fun r hr hid => ?_)
  have hacc := (hs.row r hr).settle batch [h.id] .failed (.inl rfl)
  refine ⟨hacc.covered, ?_, ?_, ?_⟩
  · intro hdone hab
    refine .inl (Nat.le_trans ?_ (hcount r hr hid hdone))
    by_contra hlt
    refine hab ?_
    rw [QueueRow.fail, decide_eq_false hlt]
    rfl
  · intro hdone w h' hh' hid'
    obtain ⟨hc, he, _⟩ := hacc.held hdone w h' hh' hid'
    refine ⟨hc, he, fun hab => ?_⟩
    have hterm : decide (maxRetries ≤ h.attempts) = false := by
      by_contra ht
      rw [Bool.not_eq_false] at ht
      rw [QueueRow.fail, ht] at hab
      exact Option.some_ne_none _ hab
    refine ⟨s.now + nextAttemptDelay (h.attempts - 1), ?_, ?_⟩
    · rw [QueueRow.fail, hterm]
      rfl
    · have hpos := nextAttemptDelay_pos (h.attempts - 1)
      change h'.claimedAt ≤ s.now at he
      omega
  · exact fun _ _ _ _ _ hat => absurd hat.symm (Option.some_ne_none _)

theorem Accounted.markTerminal (hs : Accounted s) {batch : Nat} {id : κ} (error : String)
    (hfree : ∀ w, ∀ h ∈ (s.workers w).rows, (s.workers w).batch ≠ batch ∨ h.id ≠ id)
    (hentered : ⟨batch, id, .unsettled⟩ ∈ s.ledger) :
    Accounted { s with
      rows := EmbedWorker.markTerminal s.rows s.now id error
      ledger := s.ledger.settle batch [id] .terminal } := by
  refine hs.mark (fun _ => rfl) hfree (fun r hr hid => ?_)
  have hacc := (hs.row r hr).settle batch [id] .terminal (.inr (.inl rfl))
  refine ⟨hacc.covered, ?_, ?_, ?_⟩
  · intro _ _
    rw [← hid] at hentered ⊢
    exact .inr (ClaimLedger.tally_settle_pos .terminal hentered (List.mem_singleton.mpr rfl))
  · intro hdone w h hh hid'
    obtain ⟨hc, he, _⟩ := hacc.held hdone w h hh hid'
    exact ⟨hc, he, fun hab => absurd hab (Option.some_ne_none _)⟩
  · exact fun _ _ _ _ _ hat => absurd hat.symm (Option.some_ne_none _)

theorem Accounted.rescue (hs : Accounted s) : Accounted { s with rows := rescueExpired s.rows s.now } := by
  refine ⟨hs.discipline.update _ (fun _ => rfl), ?_⟩
  intro r' hr'
  obtain ⟨r, hr, ⟨hexp, rfl⟩ | ⟨_, rfl⟩⟩ := mem_updateRows hr'
  · have hacc := hs.row r hr
    simp only [QueueRow.expired, Bool.and_eq_true, decide_eq_true_eq] at hexp
    refine ⟨hacc.covered, fun _ _ => .inl hexp.1.2, ?_, ?_⟩
    · intro hdone w h hh hid
      obtain ⟨hc, he, _⟩ := hacc.held hdone w h hh hid
      exact ⟨hc, he, fun hab => absurd hab (Option.some_ne_none _)⟩
    · exact fun _ _ _ _ _ hat => absurd hat.symm (Option.some_ne_none _)
  · have hacc := hs.row r' hr
    exact { hacc with }

theorem Accounted.elapse (hs : Accounted s) (seconds : Nat) : Accounted { s with now := s.now + seconds } := by
  refine ⟨{ hs.discipline with }, fun r hr => ?_⟩
  have hacc := hs.row r hr
  refine { hacc with held := ?_ }
  intro hdone w h hh hid
  obtain ⟨hc, he, hl⟩ := hacc.held hdone w h hh hid
  refine ⟨hc, ?_, hl⟩
  change h.claimedAt ≤ s.now + seconds
  omega

theorem Accounted.delete (hs : Accounted s) (id : κ) :
    Accounted { s with rows := s.rows.filter (fun r => r.id ≠ id) } := by
  refine ⟨{ hs.discipline with unique := ?_, drawn := ?_ }, fun r hr => ?_⟩
  · exact hs.discipline.unique.sublist (List.filter_sublist.map _)
  · exact fun r hr => hs.discipline.drawn r (List.mem_of_mem_filter hr)
  · have hacc := hs.row r (List.mem_of_mem_filter hr)
    exact { hacc with }

theorem Accounted.insert (hs : Accounted s) {id : κ} (hnew : id ∉ s.drawn) (data : π) (createdAt : Int)
    (nextAttemptAt : Option Int) :
    Accounted { s with
      rows := s.rows ++ [⟨id, data, createdAt, none, 0, none, nextAttemptAt, none, none⟩], drawn := id :: s.drawn } := by
  have hd := hs.discipline
  refine ⟨{ hd with unique := ?_, drawn := ?_, known := ?_ }, fun r hr => ?_⟩
  · rw [List.map_append, List.map_singleton, List.nodup_append]
    refine ⟨hd.unique, List.nodup_singleton _, ?_⟩
    rintro a ha b hb rfl
    obtain ⟨r, hr, rfl⟩ := List.mem_map.mp ha
    have hid : r.id = id := List.mem_singleton.mp hb
    exact hnew (hid ▸ hd.drawn r hr)
  · intro r hr
    rcases List.mem_append.mp hr with hr | hr
    · exact List.mem_cons_of_mem _ (hd.drawn r hr)
    · rw [List.mem_singleton.mp hr]
      exact List.mem_cons_self
  · exact fun w h hh => List.mem_cons_of_mem _ (hd.known w h hh)
  · rcases List.mem_append.mp hr with hr | hr
    · have hacc := hs.row r hr
      exact { hacc with }
    · rw [List.mem_singleton.mp hr]
      have hnone : ∀ w, ∀ h ∈ (s.workers w).rows, h.id ≠ id := fun w h hh hid => hnew (hid ▸ hd.known w h hh)
      refine ⟨Nat.zero_le _, fun _ hab => absurd rfl hab, ?_, ?_⟩
      · exact fun _ w h hh hid => absurd hid (hnone w h hh)
      · exact fun _ w h hh hid => absurd hid (hnone w h hh)

variable [DecidableEq ω]

section claiming
variable {claimed : List (ClaimedRow κ π) × List (QueueRow κ π)} {w : ω}

omit [LinearOrder κ] in
theorem takeOn_self : (s.takeOn w claimed).workers w = ⟨s.nextBatch, claimed.1, false⟩ := if_pos rfl

omit [LinearOrder κ] in
theorem takeOn_other {v : ω} (h : v ≠ w) : (s.takeOn w claimed).workers v = s.workers v := if_neg h

omit [LinearOrder κ] in
/-- A claim that another worker holds was there before. -/
private theorem mem_takeOn {v : ω} {h : ClaimedRow κ π} (hh : h ∈ ((s.takeOn w claimed).workers v).rows) :
    v = w ∧ h ∈ claimed.1 ∨ v ≠ w ∧ h ∈ (s.workers v).rows := by
  by_cases hv : v = w
  · rw [hv, takeOn_self] at hh
    exact .inl ⟨hv, hh⟩
  · rw [takeOn_other hv] at hh
    exact .inr ⟨hv, hh⟩

omit [LinearOrder κ] in
private theorem batch_takeOn (s : Queue κ π ω) (w : ω) (claimed : List (ClaimedRow κ π) × List (QueueRow κ π)) (v : ω) :
    v = w ∧ ((s.takeOn w claimed).workers v).batch = s.nextBatch ∨
      v ≠ w ∧ (s.takeOn w claimed).workers v = s.workers v := by
  by_cases hv : v = w
  · rw [hv, takeOn_self]
    exact .inl ⟨rfl, rfl⟩
  · exact .inr ⟨hv, takeOn_other hv⟩

omit [LinearOrder κ] in
private theorem Discipline.takeOn (hd : Discipline s) (hrows : claimed.2.map QueueRow.id = s.rows.map QueueRow.id)
    (hnodup : (claimed.1.map ClaimedRow.id).Nodup) (hknown : ∀ h ∈ claimed.1, h.id ∈ s.drawn)
    (hsame : ∀ h ∈ claimed.1, h.claimedAt = s.now) : Discipline (s.takeOn w claimed) := by
  refine ⟨?_, ?_, ?_, ?_, ?_, ?_, ?_, ?_, ?_, ?_⟩
  · change (claimed.2.map QueueRow.id).Nodup
    rw [hrows]
    exact hd.unique
  · intro r hr
    have hid : r.id ∈ s.rows.map QueueRow.id := hrows ▸ List.mem_map_of_mem hr
    obtain ⟨q, hq, hqid⟩ := List.mem_map.mp hid
    exact hqid ▸ hd.drawn q hq
  · exact ClaimLedger.keyed_enter hd.keyed hnodup hd.opened
  · intro c hc
    rcases List.mem_append.mp hc with hc | hc
    · exact Nat.lt_succ_of_lt (hd.opened c hc)
    · obtain ⟨_, _, rfl⟩ := List.mem_map.mp hc
      exact Nat.lt_succ_self _
  · intro v hv
    rcases batch_takeOn s w claimed v with ⟨_, hb⟩ | ⟨_, hv'⟩
    · rw [hb]
      exact Nat.lt_succ_self _
    · rw [hv'] at hv ⊢
      exact Nat.lt_succ_of_lt (hd.numbered v hv)
  · intro u v huv hu hv
    rcases batch_takeOn s w claimed u with ⟨huw, hub⟩ | ⟨huw, hu'⟩
    · rw [takeOn_other (fun h => huv (huw.trans h.symm))] at hv ⊢
      rw [hub]
      exact (Nat.ne_of_lt (hd.numbered v hv)).symm
    · rw [hu'] at hu ⊢
      rcases batch_takeOn s w claimed v with ⟨_, hvb⟩ | ⟨_, hv'⟩
      · rw [hvb]
        exact Nat.ne_of_lt (hd.numbered u hu)
      · rw [hv'] at hv ⊢
        exact hd.apart u v huv hu hv
  · intro v h hh
    rcases mem_takeOn hh with ⟨rfl, hmem⟩ | ⟨hv, hmem⟩
    · rw [takeOn_self]
      exact List.mem_append_right _ (List.mem_map.mpr ⟨h.id, List.mem_map_of_mem hmem, rfl⟩)
    · rw [takeOn_other hv]
      exact List.mem_append_left _ (hd.entered v h hmem)
  · intro v h hh
    rcases mem_takeOn hh with ⟨_, hmem⟩ | ⟨_, hmem⟩
    · exact hknown h hmem
    · exact hd.known v h hmem
  · intro v
    rcases batch_takeOn s w claimed v with ⟨rfl, _⟩ | ⟨_, hv⟩
    · rw [takeOn_self]
      exact hnodup
    · rw [hv]
      exact hd.distinct v
  · intro v h hh h' hh'
    rcases mem_takeOn hh with ⟨hv, hmem⟩ | ⟨hv, hmem⟩
    · rcases mem_takeOn hh' with ⟨_, hmem'⟩ | ⟨hv', _⟩
      · rw [hsame h hmem, hsame h' hmem']
      · exact absurd hv hv'
    · rw [takeOn_other hv] at hh'
      exact hd.together v h hmem h' hh'

/-- A row that the claim leaves alone. -/
private theorem RowAccounted.takeOn_unpicked {r : QueueRow κ π} (hr : RowAccounted s r)
    (hout : ∀ h ∈ claimed.1, h.id ≠ r.id) : RowAccounted (s.takeOn w claimed) r := by
  have hmem : ∀ v, ∀ h ∈ ((s.takeOn w claimed).workers v).rows, h.id = r.id → h ∈ (s.workers v).rows := by
    intro v h hh hid
    rcases mem_takeOn hh with ⟨_, hnew⟩ | ⟨_, hold⟩
    · exact absurd hid (hout h hnew)
    · exact hold
  refine ⟨?_, ?_, ?_, ?_⟩
  · change r.attempts ≤ (s.ledger.enter s.nextBatch (claimed.1.map ClaimedRow.id)).spent r.id
    rw [ClaimLedger.spent_enter]
    exact Nat.le_add_right_of_le hr.covered
  · intro hdone hab
    change _ ∨ 0 < (s.ledger.enter s.nextBatch (claimed.1.map ClaimedRow.id)).tally r.id .terminal
    rw [ClaimLedger.tally_enter_of_ne _ _ _ _ (by decide)]
    exact hr.abandoned hdone hab
  · exact fun hdone v h hh hid => hr.held hdone v h (hmem v h hh hid) hid
  · intro hdone v h hh hid hat u huv h' hh' hid'
    exact hr.latest hdone v h (hmem v h hh hid) hid hat u huv h' (hmem u h' hh' hid') hid'

/-- A row is claimed when no lease on it runs, so the new claim is the last one. -/
private theorem RowAccounted.takeOn_picked {r : QueueRow κ π} (hr : RowAccounted s r) (hpend : r.pending s.now = true)
    (hnodup : (claimed.1.map ClaimedRow.id).Nodup) (hmem : r.claimed s.now ∈ claimed.1)
    (honly : ∀ h ∈ claimed.1, h.id = r.id → h = r.claimed s.now) :
    RowAccounted (s.takeOn w claimed) (r.claim s.now) := by
  simp only [QueueRow.pending, Bool.and_eq_true, Option.isNone_iff_eq_none] at hpend
  obtain ⟨⟨⟨hdone, hdue⟩, _⟩, hab⟩ := hpend
  have hlapsed : ∀ v, ∀ h ∈ (s.workers v).rows, h.id = r.id → h.attempts ≤ r.attempts ∧ h.claimedAt < s.now := by
    intro v h hh hid
    obtain ⟨hc, _, hl⟩ := hr.held hdone v h hh hid
    obtain ⟨at_, hat, hlt⟩ := hl hab
    rw [QueueRow.due, hat] at hdue
    exact ⟨hc, Int.lt_of_lt_of_le hlt (of_decide_eq_true hdue)⟩
  have hnext : (r.claim s.now).nextAttemptAt = some (s.now + claimSecs) := rfl
  have hpos : 0 < claimSecs := by decide
  refine ⟨?_, fun _ h => absurd hab h, ?_, ?_⟩
  · have hcount : (claimed.1.map ClaimedRow.id).count r.id = 1 :=
      List.count_eq_one_of_mem hnodup (List.mem_map.mpr ⟨_, hmem, rfl⟩)
    change r.attempts + 1 ≤ (s.ledger.enter s.nextBatch (claimed.1.map ClaimedRow.id)).spent r.id
    rw [ClaimLedger.spent_enter, hcount]
    exact Nat.succ_le_succ hr.covered
  · intro _ v h hh hid
    rcases mem_takeOn hh with ⟨_, hnew⟩ | ⟨_, hold⟩
    · rw [honly h hnew hid]
      exact ⟨Nat.le_refl _, Int.le_refl _, fun _ => ⟨_, hnext, Int.lt_add_of_pos_right _ hpos⟩⟩
    · obtain ⟨hc, hlt⟩ := hlapsed v h hold hid
      refine ⟨Nat.le_succ_of_le hc, Int.le_of_lt hlt, fun _ => ⟨_, hnext, ?_⟩⟩
      omega
  · intro _ v h hh hid hat u huv h' hh' hid'
    have hnow : h.claimedAt = s.now := (Option.some.inj hat).symm
    rcases mem_takeOn hh with ⟨hv, _⟩ | ⟨_, hold⟩
    · rcases mem_takeOn hh' with ⟨hu, _⟩ | ⟨_, hold'⟩
      · exact absurd (hu.trans hv.symm) huv
      · obtain ⟨hc, hlt⟩ := hlapsed u h' hold' hid'
        exact ⟨Nat.lt_succ_of_le hc, hnow ▸ hlt⟩
    · exact absurd hnow (Int.ne_of_lt (hlapsed v h hold hid).2)

variable {before : QueueRow κ π → QueueRow κ π → Bool} {batchSize : Nat} {locked : List κ}

private theorem pending_of_mem_pick {rows : List (QueueRow κ π)} {now : Int} {id : κ}
    (h : id ∈ pick before batchSize rows now locked) : ∃ r ∈ rows, r.id = id ∧ r.pending now = true := by
  obtain ⟨r, hr, rfl⟩ := List.mem_map.mp h
  have hmem := List.mem_of_mem_take hr
  rw [(List.perm_insertionSort _ _).mem_iff, List.mem_filter, Bool.and_eq_true] at hmem
  exact ⟨r, hmem.1, rfl, hmem.2.1⟩

private theorem mem_claimed {rows : List (QueueRow κ π)} {now : Int} {h : ClaimedRow κ π} :
    h ∈ (claim before batchSize rows now locked).1 ↔
      ∃ r ∈ rows, r.id ∈ pick before batchSize rows now locked ∧ h = r.claimed now := by
  simp only [claim, List.mem_map, List.mem_filter, List.contains_iff_mem]
  constructor
  · rintro ⟨r, ⟨hr, hp⟩, rfl⟩
    exact ⟨r, hr, hp, rfl⟩
  · rintro ⟨r, hr, hp, rfl⟩
    exact ⟨r, ⟨hr, hp⟩, rfl⟩

theorem Accounted.claim (hs : Accounted s) (w : ω) :
    Accounted (s.takeOn w (claim before batchSize s.rows s.now locked)) := by
  have hunique := hs.discipline.unique
  have hnodup : ((Queues.claim before batchSize s.rows s.now locked).1.map ClaimedRow.id).Nodup := by
    rw [Queues.claim, List.map_map]
    exact hunique.sublist (List.filter_sublist.map _)
  refine ⟨hs.discipline.takeOn (map_id_updateRows (fun _ => rfl)) hnodup ?_ ?_, ?_⟩
  · intro h hh
    obtain ⟨r, hr, _, rfl⟩ := mem_claimed.mp hh
    exact hs.discipline.drawn r hr
  · intro h hh
    obtain ⟨r, _, _, rfl⟩ := mem_claimed.mp hh
    rfl
  · intro r' hr'
    obtain ⟨r, hr, ⟨hsel, rfl⟩ | ⟨hsel, rfl⟩⟩ := mem_updateRows hr'
    · have hpick : r.id ∈ pick before batchSize s.rows s.now locked := List.contains_iff_mem.mp hsel
      obtain ⟨q, hq, hid, hpend⟩ := pending_of_mem_pick hpick
      rw [List.inj_on_of_nodup_map hunique hq hr hid] at hpend
      refine (hs.row r hr).takeOn_picked hpend hnodup (mem_claimed.mpr ⟨r, hr, hpick, rfl⟩) ?_
      intro h hh hid
      obtain ⟨q, hq, _, rfl⟩ := mem_claimed.mp hh
      rw [List.inj_on_of_nodup_map hunique hq hr hid]
    · refine (hs.row r' hr).takeOn_unpicked ?_
      intro h hh hid
      obtain ⟨q, _, hq, rfl⟩ := mem_claimed.mp hh
      have hout : r'.id ∉ pick before batchSize s.rows s.now locked := by
        rw [← List.contains_iff_mem, hsel]
        exact Bool.false_ne_true
      exact hout (hid ▸ hq)

end claiming

end Akb.Queues
