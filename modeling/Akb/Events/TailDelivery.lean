import Akb.Events.Tail

/-! What one tail delivers while transactions commit around it. Frames never
repeat; they are complete as long as no poll passes an id still in flight. -/
namespace Akb.Events
open Akb.Library
variable {Vault Tx : Type} [DecidableEq Vault] [DecidableEq Tx]

/-- Rows the loop has fetched and not yet reached. -/
def Phase.rows : Phase Vault → List (EventRow Vault)
  | .draining row rest => row :: rest
  | _ => []

omit [DecidableEq Vault] in
@[simp] theorem Phase.rows_ofRows (rows : List (EventRow Vault)) : (Phase.ofRows rows).rows = rows := by
  cases rows <;> rfl

omit [DecidableEq Vault] in
theorem frameOf_position (kinds : List String) (row : EventRow Vault) :
    (frameOf kinds row).position = some row.id := by
  unfold frameOf
  split <;> rfl

omit [DecidableEq Tx] in
theorem listVaultEvents_batch (l : EventLog Vault Tx) (vault : Vault) (position : Nat) :
    listVaultEvents l vault position eventBatchSize =
      .ok (nextBatch EventRow.id (vaultRows l vault) position eventBatchSize) := rfl

omit [DecidableEq Tx] in
/-- Every way one stretch of the loop can go. -/
theorem act_cases {l : EventLog Vault Tx} {t t' : Tail Vault} {a : TailAction} (h : t.act l a = some t') :
    (a = .poll ∧ t.phase.rows = [] ∧ ∃ phase, t' = { t with phase := phase } ∧
      phase.rows = nextBatch EventRow.id (vaultRows l t.vaultId) t.currentPosition eventBatchSize) ∨
    (∃ row rest, t.phase.rows = row :: rest ∧ t' = { t with
      currentPosition := row.id, phase := .ofRows rest, frames := t.frames ++ [frameOf t.kinds row] }) ∨
    ∃ phase frames, t' = { t with phase := phase, frames := frames } ∧ phase.rows = [] ∧
      (frames = t.frames ∨ frames = t.frames ++ [.heartbeat]) := by
  cases a with
  | poll =>
    simp only [Tail.act, listVaultEvents_batch] at h
    split at h
    · rename_i hphase hrows
      cases h
      exact Or.inl ⟨rfl, by rw [hphase]; rfl, _, rfl, (Except.ok.inj hrows).symm⟩
    · rename_i hphase hrows
      cases h
      exact Or.inl ⟨rfl, by rw [hphase]; rfl, _, rfl, (Except.ok.inj hrows).symm⟩
    · cases h
  | deliver =>
    simp only [Tail.act] at h
    split at h
    · rename_i row rest hphase
      cases h
      exact Or.inr (Or.inl ⟨row, rest, by rw [hphase]; rfl, rfl⟩)
    · cases h
  | disconnect =>
    simp only [Tail.act] at h
    split at h
    · cases h
      exact Or.inr (Or.inr ⟨_, _, rfl, rfl, Or.inl rfl⟩)
    · cases h
      exact Or.inr (Or.inr ⟨_, _, rfl, rfl, Or.inl rfl⟩)
    · cases h
  | wake timedOut =>
    simp only [Tail.act] at h
    split at h
    · cases h
      refine Or.inr (Or.inr ⟨_, _, rfl, rfl, ?_⟩)
      cases timedOut
      · exact Or.inl rfl
      · exact Or.inr rfl
    · cases h

/-- Positions along the stream. -/
def Tail.delivered (t : Tail Vault) : List Nat := t.frames.filterMap Frame.position

omit [DecidableEq Vault] in
theorem delivered_append (t : Tail Vault) (frame : Frame Vault) :
    (t.frames ++ [frame]).filterMap Frame.position = t.delivered ++ frame.position.toList := by
  rw [List.filterMap_append, Tail.delivered]
  cases hp : frame.position with
  | none => simp [hp]
  | some p => simp [hp]

/-- The loop only moves forward, over rows it read from the vault. -/
structure Ordered (start : Nat) (s : Service Vault Tx) : Prop where
  from_start : start ≤ s.tail.currentPosition
  drawn : s.tail.currentPosition = start ∨ s.tail.currentPosition < s.log.nextId
  increasing : s.tail.delivered.Pairwise (· < ·)
  reached : ∀ p ∈ s.tail.delivered, p ≤ s.tail.currentPosition
  ahead : ∀ r ∈ s.tail.phase.rows, r ∈ vaultRows s.log s.tail.vaultId ∧ s.tail.currentPosition < r.id
  sorted : s.tail.phase.rows.Pairwise (fun a b => a.id < b.id)

omit [DecidableEq Vault] in
/-- Writers only add rows, and only ids that were in flight or are new. -/
theorem write_spec (l : EventLog Vault Tx) (w : WriterAction Vault Tx) :
    l.nextId ≤ (l.write w).nextId ∧ (∀ r ∈ l.rows, r ∈ (l.write w).rows) ∧
    (∀ r ∈ (l.write w).rows, r ∈ l.rows ∨ ∃ e ∈ l.openRows, e.2 = r) ∧
    ∀ e ∈ (l.write w).openRows, e ∈ l.openRows ∨ e.2.id = l.nextId := by
  cases w with
  | emit tx now e =>
    refine ⟨Nat.le_succ _, fun r hr => hr, fun r hr => Or.inl hr, ?_⟩
    intro o ho
    simp only [EventLog.write, EventLog.emitEvent, List.mem_append, List.mem_singleton] at ho
    rcases ho with ho | rfl
    · exact Or.inl ho
    · exact Or.inr rfl
  | commit tx =>
    refine ⟨le_rfl, fun r hr => EventLog.mem_commit.mpr (Or.inl hr), ?_, ?_⟩
    · intro r hr
      exact (EventLog.mem_commit.mp hr).imp id (fun h => ⟨_, h, rfl⟩)
    · intro o ho
      exact Or.inl (List.mem_of_mem_filter ho)
  | rollback tx =>
    exact ⟨le_rfl, fun r hr => hr, fun r hr => Or.inl hr, fun o ho => Or.inl (List.mem_of_mem_filter ho)⟩

theorem vaultRows_write {l : EventLog Vault Tx} {w : WriterAction Vault Tx} {vault : Vault} {r : EventRow Vault}
    (h : r ∈ vaultRows l vault) : r ∈ vaultRows (l.write w) vault :=
  mem_vaultRows.mpr ⟨(write_spec l w).2.1 r (mem_vaultRows.mp h).1, (mem_vaultRows.mp h).2⟩

theorem ordered_step (start : Nat) (s : Service Vault Tx) (a : ServiceAction Vault Tx) (s' : Service Vault Tx)
    (h : Ordered start s) (hstep : s.step a s') : Ordered start s' := by
  cases a with
  | write w =>
    cases hstep
    refine ⟨h.from_start, ?_, h.increasing, h.reached, ?_, h.sorted⟩
    · exact h.drawn.imp id (fun hlt => hlt.trans_le (write_spec s.log w).1)
    · exact fun r hr => ⟨vaultRows_write (h.ahead r hr).1, (h.ahead r hr).2⟩
  | tail a =>
    obtain ⟨t', ht, rfl⟩ := Option.map_eq_some_iff.mp hstep
    rcases act_cases ht with ⟨_, _, phase, rfl, hrows⟩ | ⟨row, rest, hrows, rfl⟩ | ⟨phase, frames, rfl, hrows, hframes⟩
    · refine ⟨h.from_start, h.drawn, h.increasing, h.reached, ?_, ?_⟩
      · intro r hr
        rw [hrows] at hr
        exact mem_nextBatch hr
      · rw [hrows]
        exact nextBatch_strict (vaultRows_nodup _ _)
    · have hsorted := h.sorted
      rw [hrows, List.pairwise_cons] at hsorted
      obtain ⟨hmem, hpos⟩ := h.ahead row (hrows ▸ List.mem_cons_self)
      have hdel : Tail.delivered { s.tail with
          currentPosition := row.id, phase := .ofRows rest, frames := s.tail.frames ++ [frameOf s.tail.kinds row] } =
          s.tail.delivered ++ [row.id] := by
        rw [Tail.delivered, delivered_append, frameOf_position]
        rfl
      refine ⟨h.from_start.trans hpos.le, Or.inr (s.log.row_lt (mem_vaultRows.mp hmem).1), ?_, ?_, ?_, ?_⟩
      · rw [hdel, List.pairwise_append]
        refine ⟨h.increasing, List.pairwise_singleton _ _, ?_⟩
        intro p hp q hq
        rw [List.mem_singleton.mp hq]
        exact (h.reached p hp).trans_lt hpos
      · intro p hp
        rw [hdel, List.mem_append, List.mem_singleton] at hp
        rcases hp with hp | rfl
        · exact (h.reached p hp).trans hpos.le
        · exact le_rfl
      · intro r hr
        rw [Phase.rows_ofRows] at hr
        exact ⟨(h.ahead r (hrows ▸ List.mem_cons_of_mem _ hr)).1, hsorted.1 r hr⟩
      · rw [Phase.rows_ofRows]
        exact hsorted.2
    · have hdel : Tail.delivered { s.tail with phase := phase, frames := frames } = s.tail.delivered := by
        rcases hframes with rfl | rfl
        · rfl
        · rw [Tail.delivered, delivered_append]
          exact List.append_nil _
      refine ⟨h.from_start, h.drawn, ?_, ?_, ?_, ?_⟩
      · rw [hdel]
        exact h.increasing
      · rw [hdel]
        exact h.reached
      · intro r hr
        rw [hrows] at hr
        cases hr
      · rw [hrows]
        exact .nil

omit [DecidableEq Tx] in
theorem ordered_opened (log : EventLog Vault Tx) (vault : Vault) (kinds : List String) (start : Nat) :
    Ordered start ⟨log, Tail.opened vault kinds start⟩ where
  from_start := le_rfl
  drawn := Or.inl rfl
  increasing := .nil
  reached := by simp [Tail.opened, Tail.delivered]
  ahead := by simp [Tail.opened, Phase.rows]
  sorted := .nil

/-- A poll now would return a row above an id of the vault that is still in flight. -/
def PassesOpenRow (s : Service Vault Tx) : Prop :=
  ∃ e ∈ s.log.openRows, e.2.ofVault s.tail.vaultId ∧ s.tail.currentPosition < e.2.id ∧
    (∃ r ∈ vaultRows s.log s.tail.vaultId, e.2.id < r.id) ∧
    ((vaultRows s.log s.tail.vaultId).filter
      (fun r => s.tail.currentPosition < r.id ∧ r.id ≤ e.2.id)).length < eventBatchSize

/-- The side condition on a step: no poll passes an id in flight. -/
def PollsBehindOpenRows (s : Service Vault Tx) (a : ServiceAction Vault Tx) : Prop :=
  a = .tail .poll → ¬ PassesOpenRow s

/-- Nothing behind the position is missing or still to come. -/
structure Complete (start : Nat) (s : Service Vault Tx) : Prop where
  delivered : ∀ r ∈ vaultRows s.log s.tail.vaultId, start < r.id → r.id ≤ s.tail.currentPosition →
    frameOf s.tail.kinds r ∈ s.tail.frames
  fetched : ∀ b ∈ s.tail.phase.rows, ∀ r ∈ vaultRows s.log s.tail.vaultId,
    s.tail.currentPosition < r.id → r.id ≤ b.id → r ∈ s.tail.phase.rows
  open_ahead : ∀ e ∈ s.log.openRows, e.2.ofVault s.tail.vaultId → start < e.2.id →
    s.tail.currentPosition < e.2.id ∧ ∀ b ∈ s.tail.phase.rows, b.id < e.2.id

omit [DecidableEq Tx] in
/-- A poll that passes no id in flight returns rows below all of them. -/
theorem nextBatch_below_open {s : Service Vault Tx} (hguard : ¬ PassesOpenRow s) {e : Tx × EventRow Vault}
    (he : e ∈ s.log.openRows) (hv : e.2.ofVault s.tail.vaultId) (hp : s.tail.currentPosition < e.2.id)
    {b : EventRow Vault} (hb : b ∈ nextBatch EventRow.id (vaultRows s.log s.tail.vaultId) s.tail.currentPosition
      eventBatchSize) : b.id < e.2.id := by
  have hrow := (mem_vaultRows.mp (mem_nextBatch hb).1).1
  refine lt_of_le_of_ne (le_of_not_gt fun hlt => hguard ?_) (s.log.row_ne_openRow hrow he)
  obtain ⟨⟨r, hr, _, hrlt⟩, hroom⟩ := (nextBatch_passes_iff (vaultRows_nodup _ _) e.2.id).mp ⟨b, hb, hlt⟩
  exact ⟨e, he, hv, hp, ⟨r, hr, hrlt⟩, hroom⟩

theorem complete_write {start : Nat} {s : Service Vault Tx} (w : WriterAction Vault Tx) (ho : Ordered start s)
    (h : Complete start s) : Complete start { s with log := s.log.write w } := by
  obtain ⟨hnext, _, hrows, hopen⟩ := write_spec s.log w
  -- A row new to the readers was in flight, hence ahead of everything read.
  have hold (r : EventRow Vault) (hr : r ∈ vaultRows (s.log.write w) s.tail.vaultId) (hs : start < r.id) :
      r ∈ vaultRows s.log s.tail.vaultId ∨
        (s.tail.currentPosition < r.id ∧ ∀ b ∈ s.tail.phase.rows, b.id < r.id) := by
    obtain ⟨hr, hv⟩ := mem_vaultRows.mp hr
    rcases hrows r hr with hr | ⟨e, he, rfl⟩
    · exact Or.inl (mem_vaultRows.mpr ⟨hr, hv⟩)
    · exact Or.inr (h.open_ahead e he hv hs)
  constructor
  · intro r hr hs hle
    rcases hold r hr hs with hr | ⟨hlt, _⟩
    · exact h.delivered r hr hs hle
    · exact absurd hle hlt.not_ge
  · intro b hb r hr hlt hle
    rcases hold r hr (ho.from_start.trans_lt hlt) with hr | ⟨_, hall⟩
    · exact h.fetched b hb r hr hlt hle
    · exact absurd hle (hall b hb).not_ge
  · intro e he hv hs
    rcases hopen e he with he | hid
    · exact h.open_ahead e he hv hs
    · rw [hid] at hs ⊢
      refine ⟨ho.drawn.elim (fun heq => heq ▸ hs) id, ?_⟩
      exact fun b hb => s.log.row_lt (mem_vaultRows.mp (ho.ahead b hb).1).1

theorem complete_step (start : Nat) (s : Service Vault Tx) (a : ServiceAction Vault Tx) (s' : Service Vault Tx)
    (ho : Ordered start s) (h : Complete start s) (hstep : s.step a s') (hguard : PollsBehindOpenRows s a) :
    Complete start s' := by
  cases a with
  | write w =>
    cases hstep
    exact complete_write w ho h
  | tail a =>
    obtain ⟨t', ht, rfl⟩ := Option.map_eq_some_iff.mp hstep
    rcases act_cases ht with ⟨rfl, _, phase, rfl, hrows⟩ | ⟨row, rest, hrows, rfl⟩ | ⟨phase, frames, rfl, hrows, hframes⟩
    · refine ⟨h.delivered, ?_, ?_⟩
      · intro b hb r hr hlt hle
        rw [hrows] at hb ⊢
        by_contra hout
        exact absurd hle (nextBatch_lt_of_not_mem (vaultRows_nodup _ _) hb hr hlt hout).not_ge
      · intro e he hv hs
        have hp := (h.open_ahead e he hv hs).1
        refine ⟨hp, fun b hb => ?_⟩
        rw [hrows] at hb
        exact nextBatch_below_open (hguard rfl) he hv hp hb
    · have hsorted := ho.sorted
      rw [hrows, List.pairwise_cons] at hsorted
      have hrow : row ∈ s.tail.phase.rows := hrows ▸ List.mem_cons_self
      constructor
      · intro r hr hs hle
        rw [List.mem_append, List.mem_singleton]
        by_cases hpos : r.id ≤ s.tail.currentPosition
        · exact Or.inl (h.delivered r hr hs hpos)
        · have hm := h.fetched row hrow r hr (not_le.mp hpos) hle
          rw [hrows, List.mem_cons] at hm
          rcases hm with rfl | hm
          · exact Or.inr rfl
          · exact absurd hle (hsorted.1 r hm).not_ge
      · intro b hb r hr hlt hle
        rw [Phase.rows_ofRows] at hb ⊢
        have hm := h.fetched b (hrows ▸ List.mem_cons_of_mem _ hb) r hr ((ho.ahead row hrow).2.trans hlt) hle
        rw [hrows, List.mem_cons] at hm
        rcases hm with rfl | hm
        · exact absurd hlt (lt_irrefl _)
        · exact hm
      · intro e he hv hs
        obtain ⟨_, hall⟩ := h.open_ahead e he hv hs
        refine ⟨hall row hrow, fun b hb => hall b ?_⟩
        rw [Phase.rows_ofRows] at hb
        exact hrows ▸ List.mem_cons_of_mem _ hb
    · refine ⟨?_, ?_, ?_⟩
      · intro r hr hs hle
        rcases hframes with rfl | rfl
        · exact h.delivered r hr hs hle
        · exact List.mem_append_left _ (h.delivered r hr hs hle)
      · intro b hb
        rw [hrows] at hb
        cases hb
      · intro e he hv hs
        refine ⟨(h.open_ahead e he hv hs).1, fun b hb => ?_⟩
        rw [hrows] at hb
        cases hb

omit [DecidableEq Tx] in
theorem complete_opened (log : EventLog Vault Tx) (vault : Vault) (kinds : List String) (start : Nat) :
    Complete start ⟨log, Tail.opened vault kinds start⟩ where
  delivered _ _ hs hle := absurd hle hs.not_ge
  fetched := by simp [Tail.opened, Phase.rows]
  open_ahead _ _ _ hs := ⟨hs, by simp [Tail.opened, Phase.rows]⟩

/-- No run of writers and one tail delivers an event twice. -/
theorem tail_never_repeats {log : EventLog Vault Tx} {vault : Vault} {kinds : List String} {start : Nat}
    {s : Service Vault Tx} {actions : List (ServiceAction Vault Tx)}
    (hrun : Run Service.step ⟨log, Tail.opened vault kinds start⟩ actions s) : s.tail.delivered.Nodup := by
  have h := hrun.invariant (ordered_step start) (ordered_opened log vault kinds start)
  exact h.increasing.imp (fun hlt => hlt.ne)

theorem tail_scope {vault : Vault} {kinds : List String} (s : Service Vault Tx) (a : ServiceAction Vault Tx)
    (s' : Service Vault Tx) (h : s.tail.vaultId = vault ∧ s.tail.kinds = kinds) (hstep : s.step a s') :
    s'.tail.vaultId = vault ∧ s'.tail.kinds = kinds := by
  cases a with
  | write w =>
    cases hstep
    exact h
  | tail a =>
    obtain ⟨t', ht, rfl⟩ := Option.map_eq_some_iff.mp hstep
    rcases act_cases ht with ⟨_, _, phase, rfl, _⟩ | ⟨row, rest, _, rfl⟩ | ⟨phase, frames, rfl, _⟩ <;> exact h

/-- In every interleaving of transactions with one tail whose polls stay behind
the ids in flight: each committed event between the start and the tail's position
was delivered, a selected kind as a change and any other as a checkpoint, and no
event was delivered twice. -/
theorem tail_delivers_each_event {log : EventLog Vault Tx} {vault : Vault} {kinds : List String} {start : Nat}
    {s : Service Vault Tx} {actions : List (ServiceAction Vault Tx)}
    (hrun : Run (Guarded Service.step PollsBehindOpenRows) ⟨log, Tail.opened vault kinds start⟩ actions s) :
    (∀ r ∈ s.log.rows, r.vaultId = some vault → start < r.id → r.id ≤ s.tail.currentPosition →
      frameOf kinds r ∈ s.tail.frames) ∧ s.tail.delivered.Nodup := by
  have hinv := hrun.invariant
    (I := fun s => Ordered start s ∧ Complete start s ∧ s.tail.vaultId = vault ∧ s.tail.kinds = kinds)
    (fun s a s' h hstep => ⟨ordered_step start s a s' h.1 hstep.1,
      complete_step start s a s' h.1 h.2.1 hstep.1 hstep.2, tail_scope s a s' h.2.2 hstep.1⟩)
    ⟨ordered_opened log vault kinds start, complete_opened log vault kinds start, rfl, rfl⟩
  obtain ⟨hordered, hcomplete, rfl, rfl⟩ := hinv
  refine ⟨?_, hordered.increasing.imp (fun hlt => hlt.ne)⟩
  intro r hr hv hs hle
  exact hcomplete.delivered r (mem_vaultRows.mpr ⟨hr, by simpa [EventRow.ofVault] using hv⟩) hs hle

instance (s : Service Vault Tx) : Decidable (PassesOpenRow s) :=
  inferInstanceAs (Decidable (∃ e ∈ s.log.openRows, _))

instance (s : Service Vault Tx) (a : ServiceAction Vault Tx) : Decidable (PollsBehindOpenRows s a) :=
  inferInstanceAs (Decidable (_ → _))

/-- Ids 1 and 2 commit in reverse order, and the tail reads after both. -/
def lateCommitRead : List (ServiceAction Nat Nat) :=
  [.write (.emit 1 0 documentPut), .write (.emit 2 0 documentPut), .write (.commit 2), .write (.commit 1),
    .tail .poll, .tail .deliver, .tail .deliver]

theorem tail_delivers_late_commit :
    ∃ s : Service Nat Nat, s.tail.currentPosition = 2 ∧ s.tail.delivered.Nodup ∧
      ∀ r ∈ s.log.rows, r.vaultId = some 7 → 0 < r.id → r.id ≤ s.tail.currentPosition →
        frameOf [] r ∈ s.tail.frames := by
  have hsome : ((execute (fun s a => if PollsBehindOpenRows s a then s.next a else none)
      (⟨.fresh, Tail.opened 7 [] 0⟩ : Service Nat Nat) lateCommitRead).map (fun s => s.tail.currentPosition)) =
        some 2 := by decide
  obtain ⟨s, hs, hpos⟩ := Option.map_eq_some_iff.mp hsome
  obtain ⟨hall, honce⟩ := tail_delivers_each_event (guarded_run_of_execute hs)
  exact ⟨s, hpos, honce, hall⟩

/-- The tail reads id 2 while id 1 is in flight; id 1 commits behind its position. -/
theorem tail_loses_late_commit :
    ¬ ∀ (log : EventLog Nat Nat) (vault : Nat) (kinds : List String) (start : Nat) (s : Service Nat Nat)
      (actions : List (ServiceAction Nat Nat)), Run Service.step ⟨log, Tail.opened vault kinds start⟩ actions s →
      (∀ r ∈ s.log.rows, r.vaultId = some vault → start < r.id → r.id ≤ s.tail.currentPosition →
        frameOf kinds r ∈ s.tail.frames) ∧ s.tail.delivered.Nodup := by
  intro h
  have hsome : ((execute Service.next (⟨.fresh, Tail.opened 7 [] 0⟩ : Service Nat Nat)
      [.write (.emit 1 0 documentPut), .write (.emit 2 0 documentPut), .write (.commit 2), .tail .poll,
        .tail .deliver, .write (.commit 1)]).any (fun s => s.log.rows.any (fun r => r.vaultId = some 7 ∧ 0 < r.id ∧
          r.id ≤ s.tail.currentPosition ∧ frameOf [] r ∉ s.tail.frames))) := by decide +kernel
  obtain ⟨s, hs, hlost⟩ := (Option.any_eq_true _ _).mp hsome
  obtain ⟨r, hr, hlost⟩ := List.any_eq_true.mp hlost
  obtain ⟨hv, hs0, hle, hout⟩ := of_decide_eq_true hlost
  exact hout ((h .fresh 7 [] 0 s _ (run_of_execute hs)).1 r hr hv hs0 hle)

end Akb.Events
