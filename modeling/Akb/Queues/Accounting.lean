import Akb.Queues.Rows
import Akb.Library.ClaimLedger
import Akb.Library.Run

/-! The three workers as processes over one queue. A worker claims a batch, takes
its rows in turn and commits after each; between two commits it may stop. -/
namespace Akb.Queues
open Akb.Library Akb.Events
variable {κ π ω : Type} [LinearOrder κ] [DecidableEq ω]

inductive QueueKind where
  | events
  | vectorDeletes
  | chunks (batchSize : Nat)
  deriving DecidableEq

def QueueKind.claim : QueueKind → List (QueueRow κ π) → Int → List κ → List (ClaimedRow κ π) × List (QueueRow κ π)
  | .events => EventsPublisher.claimBatch
  | .vectorDeletes => DeleteWorker.claimDeleteBatch
  | .chunks batchSize => EmbedWorker.claimBatch batchSize

def QueueKind.markDone : QueueKind → List (QueueRow κ π) → Int → κ → List (QueueRow κ π)
  | .events => EventsPublisher.markPublished
  | .vectorDeletes => DeleteWorker.markDeleteSuccess
  | .chunks _ => EmbedWorker.markSuccess

def QueueKind.markFailed : QueueKind → List (QueueRow κ π) → Int → κ → Nat → String → List (QueueRow κ π)
  | .events => EventsPublisher.markFailure
  | .vectorDeletes => DeleteWorker.markDeleteFailure
  | .chunks _ => EmbedWorker.markFailure

def QueueKind.releaseUnattempted : QueueKind → List (QueueRow κ π) → Int → List (ClaimedRow κ π) → List (QueueRow κ π)
  | .events => EventsPublisher.releaseUnattempted
  | .vectorDeletes => DeleteWorker.releaseUnattempted
  | .chunks _ => EmbedWorker.releaseUnattempted

/-- The rest of a worker's batch, and whether it is only to be handed back. -/
structure WorkerState (κ π : Type) where
  batch : Nat
  rows : List (ClaimedRow κ π)
  releasing : Bool
  deriving DecidableEq

def WorkerState.idle : WorkerState κ π := ⟨0, [], false⟩

/-- The table, its clock and its workers. `drawn` are the ids used so far, which
never come again; the ledger remembers the claims and what became of them. -/
structure Queue (κ π ω : Type) where
  rows : List (QueueRow κ π)
  now : Int
  workers : ω → WorkerState κ π
  drawn : List κ
  nextBatch : Nat
  ledger : ClaimLedger κ

def Queue.empty (now : Int) : Queue κ π ω := ⟨[], now, fun _ => .idle, [], 1, []⟩

/-- What happens to the head of a worker's batch. -/
inductive Step where
  | succeed
  | fail (error : String)
  | failAndStop (error : String)
  | terminate (error : String)
  | vanish
  | handBack
  deriving DecidableEq

/-- An event goes out or ends the batch. A delete may also fail alone. A chunk may
meet a fault for good, have been deleted, or find a renumbering under way. -/
def QueueKind.takes : QueueKind → Step → Bool
  | .events, .succeed | .events, .failAndStop _ => true
  | .events, _ => false
  | .vectorDeletes, .succeed | .vectorDeletes, .fail _ | .vectorDeletes, .failAndStop _ => true
  | .vectorDeletes, _ => false
  | .chunks _, _ => true

inductive QueueAction (κ π ω : Type) where
  | insert (id : κ) (data : π) (createdAt : Int) (nextAttemptAt : Option Int)
  | delete (id : κ)
  | claim (w : ω) (locked : List κ)
  | process (w : ω) (step : Step)
  | release (w : ω)
  | stop (w : ω)
  | rescue
  | elapse (seconds : Nat)
  deriving DecidableEq

namespace Queue

def setWorker (s : Queue κ π ω) (w : ω) (p : WorkerState κ π) : ω → WorkerState κ π :=
  fun v => if v = w then p else s.workers v

/-- A worker begins on the batch that a claim returned. -/
def takeOn (s : Queue κ π ω) (w : ω) (claimed : List (ClaimedRow κ π) × List (QueueRow κ π)) : Queue κ π ω :=
  { s with
    rows := claimed.2
    workers := s.setWorker w ⟨s.nextBatch, claimed.1, false⟩
    nextBatch := s.nextBatch + 1
    ledger := s.ledger.enter s.nextBatch (claimed.1.map ClaimedRow.id) }

/-- The rows of the batch that a release still finds as they were claimed. -/
def released (s : Queue κ π ω) (batch : List (ClaimedRow κ π)) : List κ :=
  match batch with
  | [] => []
  | first :: _ =>
    (s.rows.filter (fun r => (batch.map ClaimedRow.id).contains r.id && r.heldSince first.claimedAt)).map QueueRow.id

def process (s : Queue κ π ω) (kind : QueueKind) (w : ω) (row : ClaimedRow κ π) (rest : List (ClaimedRow κ π)) :
    Step → Option (Queue κ π ω)
  | .succeed =>
    -- A chunk is locked and found again before its point is stored.
    if kind = .events ∨ kind = .vectorDeletes ∨ row.id ∈ s.rows.map QueueRow.id then
      some { s with
        rows := kind.markDone s.rows s.now row.id
        workers := s.setWorker w ⟨(s.workers w).batch, rest, false⟩
        ledger := s.ledger.settle (s.workers w).batch [row.id] .succeeded }
    else none
  | .fail error =>
    some { s with
      rows := kind.markFailed s.rows s.now row.id row.attempts error
      workers := s.setWorker w ⟨(s.workers w).batch, rest, false⟩
      ledger := s.ledger.settle (s.workers w).batch [row.id] .failed }
  | .failAndStop error =>
    some { s with
      rows := kind.markFailed s.rows s.now row.id row.attempts error
      workers := s.setWorker w ⟨(s.workers w).batch, rest, true⟩
      ledger := s.ledger.settle (s.workers w).batch [row.id] .failed }
  | .terminate error =>
    some { s with
      rows := EmbedWorker.markTerminal s.rows s.now row.id error
      workers := s.setWorker w ⟨(s.workers w).batch, rest, false⟩
      ledger := s.ledger.settle (s.workers w).batch [row.id] .terminal }
  | .vanish =>
    if row.id ∈ s.rows.map QueueRow.id then none
    else some { s with workers := s.setWorker w ⟨(s.workers w).batch, rest, false⟩ }
  | .handBack => some { s with workers := s.setWorker w ⟨(s.workers w).batch, row :: rest, true⟩ }

def next (kind : QueueKind) (s : Queue κ π ω) : QueueAction κ π ω → Option (Queue κ π ω)
  | .insert id data createdAt nextAttemptAt =>
    if id ∈ s.drawn then none
    else some { s with
      rows := s.rows ++ [⟨id, data, createdAt, none, 0, none, nextAttemptAt, none, none⟩]
      drawn := id :: s.drawn }
  | .delete id => some { s with rows := s.rows.filter (fun r => r.id ≠ id) }
  | .claim w locked =>
    if (s.workers w).rows = [] ∧ (s.workers w).releasing = false then
      some (s.takeOn w (kind.claim s.rows s.now locked))
    else none
  | .process w step =>
    match (s.workers w).releasing, (s.workers w).rows with
    | false, row :: rest => if kind.takes step then s.process kind w row rest step else none
    | _, _ => none
  | .release w =>
    if (s.workers w).releasing then
      some { s with
        rows := kind.releaseUnattempted s.rows s.now (s.workers w).rows
        workers := s.setWorker w .idle
        ledger := s.ledger.settle (s.workers w).batch (s.released (s.workers w).rows) .handedBack }
    else none
  | .stop w => some { s with workers := s.setWorker w .idle }
  | .rescue => some { s with rows := rescueExpired s.rows s.now }
  | .elapse seconds => some { s with now := s.now + seconds }

def step (kind : QueueKind) (s : Queue κ π ω) (a : QueueAction κ π ω) (s' : Queue κ π ω) : Prop := s.next kind a = some s'

end Queue
end Akb.Queues

/-! Retry accounting over whole runs. The counter of a row is covered by claims of
its own; a row that several workers still hold belongs to the last claim. -/
namespace Akb.Queues
open Akb.Library Akb.Events
variable {κ π ω : Type}

theorem nextAttemptDelay_pos (n : Nat) : 0 < nextAttemptDelay n := by
  have h : ∀ i < backoffSecs.length, 0 < backoffSecs.getD i 0 := by decide
  exact h _ (Nat.lt_of_le_of_lt (Nat.min_le_right _ _) (by decide))

section rows
variable {rows : List (QueueRow κ π)} {selected : QueueRow κ π → Bool} {f : QueueRow κ π → QueueRow κ π}

theorem map_id_updateRows (hf : ∀ r, (f r).id = r.id) :
    (updateRows rows selected f).map QueueRow.id = rows.map QueueRow.id := by
  rw [updateRows, List.map_map]
  apply List.map_congr_left
  intro r _
  rw [Function.comp_apply]
  split
  · exact hf r
  · rfl

theorem mem_updateRows {r' : QueueRow κ π} (h : r' ∈ updateRows rows selected f) :
    ∃ r ∈ rows, (selected r = true ∧ r' = f r) ∨ (selected r = false ∧ r' = r) := by
  obtain ⟨r, hr, rfl⟩ := List.mem_map.mp h
  refine ⟨r, hr, ?_⟩
  by_cases hs : selected r = true
  · exact .inl ⟨hs, if_pos hs⟩
  · exact .inr ⟨by simpa using hs, if_neg hs⟩

end rows

/-- What is left of a worker's batch, or a new idle state. -/
def LeftOf (p q : WorkerState κ π) : Prop := p.rows = [] ∨ p.batch = q.batch ∧ p.rows.Sublist q.rows

theorem LeftOf.subset {p q : WorkerState κ π} (h : LeftOf p q) {x : ClaimedRow κ π} (hx : x ∈ p.rows) :
    x ∈ q.rows ∧ p.batch = q.batch := by
  rcases h with h | h
  · rw [h] at hx
    exact absurd hx List.not_mem_nil
  · exact ⟨h.2.subset hx, h.1⟩

theorem LeftOf.rfl {p : WorkerState κ π} : LeftOf p p := .inr ⟨Eq.refl _, List.Sublist.refl _⟩

variable [LinearOrder κ]

/-- An unfinished row against a worker's claim of it. -/
structure Holds (now : Int) (r : QueueRow κ π) (h : ClaimedRow κ π) : Prop where
  counted : h.attempts ≤ r.attempts
  earlier : h.claimedAt ≤ now
  leased : r.abandonedAt = none → ∃ at_, r.nextAttemptAt = some at_ ∧ h.claimedAt < at_

/-- A claim that a later claim of the row has followed. -/
structure Overtaken (r : QueueRow κ π) (h h' : ClaimedRow κ π) : Prop where
  fewer : h'.attempts < r.attempts
  before : h'.claimedAt < h.claimedAt

/-- How the workers' batches and the ledger fit together. -/
structure Discipline (s : Queue κ π ω) : Prop where
  unique : (s.rows.map QueueRow.id).Nodup
  drawn : ∀ r ∈ s.rows, r.id ∈ s.drawn
  keyed : s.ledger.Keyed
  opened : ∀ c ∈ s.ledger, c.batch < s.nextBatch
  numbered : ∀ w, (s.workers w).rows ≠ [] → (s.workers w).batch < s.nextBatch
  apart : ∀ v w, v ≠ w → (s.workers v).rows ≠ [] → (s.workers w).rows ≠ [] →
    (s.workers v).batch ≠ (s.workers w).batch
  entered : ∀ w, ∀ h ∈ (s.workers w).rows, ⟨(s.workers w).batch, h.id, .unsettled⟩ ∈ s.ledger
  known : ∀ w, ∀ h ∈ (s.workers w).rows, h.id ∈ s.drawn
  distinct : ∀ w, ((s.workers w).rows.map ClaimedRow.id).Nodup
  together : ∀ w, ∀ h ∈ (s.workers w).rows, ∀ h' ∈ (s.workers w).rows, h.claimedAt = h'.claimedAt

structure RowAccounted (s : Queue κ π ω) (r : QueueRow κ π) : Prop where
  covered : r.attempts ≤ s.ledger.spent r.id
  abandoned : r.doneAt = none → r.abandonedAt ≠ none →
    maxRetries ≤ r.attempts ∨ 0 < s.ledger.tally r.id .terminal
  held : r.doneAt = none → ∀ w, ∀ h ∈ (s.workers w).rows, h.id = r.id → Holds s.now r h
  latest : r.doneAt = none → ∀ w, ∀ h ∈ (s.workers w).rows, h.id = r.id → r.claimedAt = some h.claimedAt →
    ∀ v, v ≠ w → ∀ h' ∈ (s.workers v).rows, h'.id = r.id → Overtaken r h h'

structure Accounted (s : Queue κ π ω) : Prop where
  discipline : Discipline s
  row : ∀ r ∈ s.rows, RowAccounted s r

section updates
variable {s : Queue κ π ω}

omit [LinearOrder κ] in
theorem Discipline.update (hd : Discipline s) (selected : QueueRow κ π → Bool) {f : QueueRow κ π → QueueRow κ π}
    (hf : ∀ r, (f r).id = r.id) : Discipline { s with rows := updateRows s.rows selected f } := by
  refine { hd with unique := ?_, drawn := ?_ }
  · rw [map_id_updateRows hf]
    exact hd.unique
  · intro r' hr'
    obtain ⟨r, hr, ⟨_, rfl⟩ | ⟨_, rfl⟩⟩ := mem_updateRows hr'
    · rw [hf]
      exact hd.drawn r hr
    · exact hd.drawn _ hr

theorem Discipline.settle (hd : Discipline s) {batch : Nat} {ids : List κ} (o : Outcome)
    (hfree : ∀ w, ∀ h ∈ (s.workers w).rows, (s.workers w).batch ≠ batch ∨ h.id ∉ ids) :
    Discipline { s with ledger := s.ledger.settle batch ids o } := by
  refine { hd with
    keyed := ClaimLedger.keyed_settle hd.keyed batch ids o, opened := ?_, entered := ?_ }
  · intro c hc
    obtain ⟨d, hmem, rfl⟩ := List.mem_map.mp hc
    have hb := hd.opened d hmem
    split
    · exact hb
    · exact hb
  · exact fun w h hh => ClaimLedger.mem_settle_of_other (hd.entered w h hh) o (hfree w h hh)

/-- Nothing but the ledger matters of a finished row's bookkeeping. -/
theorem RowAccounted.of_done {r : QueueRow κ π} (hdone : r.doneAt ≠ none) (hzero : r.attempts = 0) : RowAccounted s r :=
  ⟨hzero ▸ Nat.zero_le _, fun h => absurd h hdone, fun h => absurd h hdone, fun h => absurd h hdone⟩

theorem RowAccounted.settle {r : QueueRow κ π} (hr : RowAccounted s r) (batch : Nat) (ids : List κ) (o : Outcome)
    (hrow : o = .failed ∨ o = .terminal ∨ r.id ∉ ids) :
    RowAccounted { s with ledger := s.ledger.settle batch ids o } r := by
  refine { hr with covered := ?_, abandoned := ?_ }
  · change r.attempts ≤ (s.ledger.settle batch ids o).spent r.id
    rw [ClaimLedger.spent_settle_eq _ _ _ _ hrow]
    exact hr.covered
  · intro hdone hab
    rcases hr.abandoned hdone hab with h | h
    · exact .inl h
    · exact .inr (Nat.lt_of_lt_of_le h (ClaimLedger.tally_le_settle _ _ _ _ _ (by decide)))

end updates

section workers
variable [DecidableEq ω] {s : Queue κ π ω} {w : ω} {p : WorkerState κ π}

omit [LinearOrder κ] in
theorem setWorker_leftOf (h : LeftOf p (s.workers w)) (v : ω) : LeftOf (s.setWorker w p v) (s.workers v) := by
  rw [Queue.setWorker]
  split
  case isTrue hv => rw [hv]; exact h
  case isFalse => exact .rfl

omit [LinearOrder κ] in
theorem Discipline.shrink (hd : Discipline s) (hp : LeftOf p (s.workers w)) :
    Discipline { s with workers := s.setWorker w p } := by
  have hleft := setWorker_leftOf (s := s) hp
  have hne : ∀ v, (s.setWorker w p v).rows ≠ [] →
      (s.workers v).rows ≠ [] ∧ (s.setWorker w p v).batch = (s.workers v).batch := by
    intro v hv
    obtain ⟨x, hx⟩ := List.exists_mem_of_ne_nil _ hv
    obtain ⟨hmem, hb⟩ := (hleft v).subset hx
    exact ⟨List.ne_nil_of_mem hmem, hb⟩
  refine ⟨hd.unique, hd.drawn, hd.keyed, hd.opened, ?_, ?_, ?_, ?_, ?_, ?_⟩
  · intro v hv
    rw [(hne v hv).2]
    exact hd.numbered v (hne v hv).1
  · intro u v huv hu hv
    rw [(hne u hu).2, (hne v hv).2]
    exact hd.apart u v huv (hne u hu).1 (hne v hv).1
  · intro v h hh
    obtain ⟨hmem, hb⟩ := (hleft v).subset hh
    rw [hb]
    exact hd.entered v h hmem
  · exact fun v h hh => hd.known v h ((hleft v).subset hh).1
  · intro v
    rcases hleft v with hnil | ⟨_, hsub⟩
    · rw [hnil]
      exact List.nodup_nil
    · exact (hd.distinct v).sublist (hsub.map _)
  · exact fun v h hh h' hh' => hd.together v h ((hleft v).subset hh).1 h' ((hleft v).subset hh').1

theorem RowAccounted.shrink {r : QueueRow κ π} (hr : RowAccounted s r) (hp : LeftOf p (s.workers w)) :
    RowAccounted { s with workers := s.setWorker w p } r := by
  have hleft := setWorker_leftOf (s := s) hp
  refine ⟨hr.covered, hr.abandoned, ?_, ?_⟩
  · exact fun hdone v h hh => hr.held hdone v h ((hleft v).subset hh).1
  · intro hdone v h hh hid hat u huv h' hh'
    exact hr.latest hdone v h ((hleft v).subset hh).1 hid hat u huv h' ((hleft u).subset hh').1

theorem Accounted.shrink (hs : Accounted s) (hp : LeftOf p (s.workers w)) :
    Accounted { s with workers := s.setWorker w p } :=
  ⟨hs.discipline.shrink hp, fun r hr => (hs.row r hr).shrink hp⟩

end workers

end Akb.Queues
