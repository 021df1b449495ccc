import Akb.Events.Tail

/-! The worker that drains the outbox: claims, outcomes, the rescuer and the
sweep that purges rows published long enough ago. Times are in seconds. -/
namespace Akb.Events
open Akb.Library
variable {Vault Tx Worker : Type}

namespace EventLog

/-- An UPDATE of committed rows that keeps their ids. -/
def updateRows (l : EventLog Vault Tx) (f : EventRow Vault → EventRow Vault) (hf : ∀ r, (f r).id = r.id) :
    EventLog Vault Tx where
  nextId := l.nextId
  openRows := l.openRows
  rows := l.rows.map f
  drawn := by
    intro r hr
    rcases List.mem_append.mp hr with hr | hr
    · obtain ⟨q, hq, rfl⟩ := List.mem_map.mp hr
      rw [hf]
      exact l.row_lt hq
    · exact l.drawn r (List.mem_append_right _ hr)
  unique := by
    have he : (l.rows.map f ++ l.openRows.map Prod.snd).map EventRow.id =
        (l.rows ++ l.openRows.map Prod.snd).map EventRow.id := by
      simp only [List.map_append, List.map_map]
      congr 1
      exact List.map_congr_left (fun r _ => hf r)
    rw [he]
    exact l.unique

/-- A DELETE of committed rows. -/
def deleteRows (l : EventLog Vault Tx) (selected : EventRow Vault → Bool) : EventLog Vault Tx where
  nextId := l.nextId
  openRows := l.openRows
  rows := l.rows.filter (fun r => !selected r)
  drawn r hr := l.drawn r (List.Sublist.subset (List.filter_sublist.append_right _) hr)
  unique := l.unique.sublist ((List.filter_sublist.append_right _).map _)

end EventLog

def backoffSecs : List Nat := [60, 300, 900, 1800, 3600, 7200, 14400, 21600]

def maxRetries : Nat := backoffSecs.length

def nextAttemptDelay (retryCount : Nat) : Nat := backoffSecs.getD (min retryCount (backoffSecs.length - 1)) 0

def batchSize : Nat := 64

/-- The claim is renewed for ten minutes. -/
def claimSecs : Int := 600

def sweepGraceInterval : Int := 7 * 86400

def sweepIntervalSeconds : Int := 3600

def EventRow.attemptDue (r : EventRow Vault) (now : Int) : Bool := r.nextAttemptAt.all (fun at_ => at_ ≤ now)

def EventRow.pending (r : EventRow Vault) (now : Int) : Bool :=
  r.redisPublishedAt.isNone && r.attemptDue now && decide (r.attempts < maxRetries) && r.abandonedAt.isNone

/-- `ORDER BY next_attempt_at NULLS FIRST, id`. -/
def claimsBefore (a b : EventRow Vault) : Bool :=
  match a.nextAttemptAt, b.nextAttemptAt with
  | none, none => a.id ≤ b.id
  | none, some _ => true
  | some _, none => false
  | some x, some y => x < y || (x = y && decide (a.id ≤ b.id))

def EventRow.claim (now : Int) (r : EventRow Vault) : EventRow Vault :=
  { r with nextAttemptAt := some (now + claimSecs), claimedAt := some now, attempts := r.attempts + 1 }

/-- Rows another worker has locked are skipped. -/
def claimBatch (l : EventLog Vault Tx) (now : Int) (locked : List Nat) :
    List (EventRow Vault) × EventLog Vault Tx :=
  let ready := l.rows.filter (fun r => r.pending now && !locked.contains r.id)
  let picked := ((ready.insertionSort (fun a b => claimsBefore a b)).take batchSize).map EventRow.id
  ((l.rows.filter (fun r => picked.contains r.id)).map (EventRow.claim now),
    l.updateRows (fun r => if picked.contains r.id then r.claim now else r) (fun r => by split <;> rfl))

def markPublished (l : EventLog Vault Tx) (now : Int) (eventId : Nat) : EventLog Vault Tx :=
  l.updateRows (fun r => if r.id = eventId then { r with
      redisPublishedAt := some now, attempts := 0, lastError := none, nextAttemptAt := none, claimedAt := none,
      abandonedAt := none } else r)
    (fun r => by split <;> rfl)

/-- The last attempt abandons the row, which then stays in the table. -/
def markFailure (l : EventLog Vault Tx) (now : Int) (eventId attemptCount : Nat) (error : String) :
    EventLog Vault Tx :=
  let terminal : Bool := maxRetries ≤ attemptCount
  let delay := nextAttemptDelay (attemptCount - 1)
  l.updateRows (fun r => if r.id = eventId then { r with
      lastError := some (String.ofList (error.toList.take 500))
      nextAttemptAt := if terminal then none else some (now + delay)
      claimedAt := none
      abandonedAt := if terminal then some now else none } else r)
    (fun r => by split <;> rfl)

def releaseUnattempted (l : EventLog Vault Tx) (now : Int) (rows : List (EventRow Vault)) : EventLog Vault Tx :=
  match rows with
  | [] => l
  | first :: _ => l.updateRows (fun r =>
      if (rows.map EventRow.id).contains r.id ∧ r.redisPublishedAt.isNone ∧ r.abandonedAt.isNone ∧
          r.claimedAt.isSome ∧ r.claimedAt = first.claimedAt then
        { r with attempts := r.attempts - 1, nextAttemptAt := some now, claimedAt := none } else r)
      (fun r => by split <;> rfl)

/-- What `queue_rescuer` does to `events`. -/
def rescueEvents (l : EventLog Vault Tx) (now : Int) : EventLog Vault Tx :=
  l.updateRows (fun r =>
      if r.redisPublishedAt.isNone ∧ r.abandonedAt.isNone ∧ maxRetries ≤ r.attempts ∧ r.attemptDue now then
        { r with
          abandonedAt := some now, claimedAt := none, nextAttemptAt := none
          lastError := some (r.lastError.getD "claim lease expired after final attempt") } else r)
    (fun r => by split <;> rfl)

/-- Published more than the grace interval ago. -/
def EventRow.sweepable (r : EventRow Vault) (now : Int) : Bool :=
  r.redisPublishedAt.any (fun at_ => at_ < now - sweepGraceInterval)

/-- One publisher process: its unfinished batch and its sweep clock. -/
structure Publisher (Vault : Type) where
  batch : List (EventRow Vault)
  monotonic : Int
  lastSweepAt : Int

/-- The outbox with its publishers; `purged` remembers what sweeps deleted. -/
structure Outbox (Vault Tx Worker : Type) where
  log : EventLog Vault Tx
  now : Int
  publishers : Worker → Publisher Vault
  purged : List (EventRow Vault)

def Outbox.fresh (now : Int) : Outbox Vault Tx Worker := ⟨.fresh, now, fun _ => ⟨[], now, 0⟩, []⟩

def Outbox.setPublisher [DecidableEq Worker] (s : Outbox Vault Tx Worker) (w : Worker) (p : Publisher Vault) :
    Worker → Publisher Vault :=
  fun v => if v = w then p else s.publishers v

def Outbox.sweepDue (s : Outbox Vault Tx Worker) (w : Worker) : Bool :=
  sweepIntervalSeconds ≤ (s.publishers w).monotonic - (s.publishers w).lastSweepAt

def sweepOnce [DecidableEq Worker] (s : Outbox Vault Tx Worker) (w : Worker) : Outbox Vault Tx Worker :=
  if s.sweepDue w then
    { s with
      log := s.log.deleteRows (fun r => r.sweepable s.now)
      publishers := s.setPublisher w { s.publishers w with lastSweepAt := (s.publishers w).monotonic }
      purged := s.purged ++ s.log.rows.filter (fun r => r.sweepable s.now) }
  else s

inductive OutboxAction (Vault Tx Worker : Type) where
  | write (w : WriterAction Vault Tx)
  | claim (worker : Worker) (locked : List Nat)
  | published (worker : Worker) (eventId : Nat)
  | failed (worker : Worker) (eventId : Nat) (error : String)
  | rescue
  | sweep (worker : Worker)
  | restart (worker : Worker) (monotonic : Int)
  | elapse (seconds : Nat)
  deriving DecidableEq

variable [DecidableEq Tx] [DecidableEq Worker]

/-- The rows of a batch may meet their outcomes in any order, and a failure
ends the batch. -/
def Outbox.next (s : Outbox Vault Tx Worker) : OutboxAction Vault Tx Worker → Option (Outbox Vault Tx Worker)
  | .write w => some { s with log := s.log.write w }
  | .claim worker locked =>
    let (batch, log) := claimBatch s.log s.now locked
    some { s with log := log, publishers := s.setPublisher worker { s.publishers worker with batch := batch } }
  | .published worker eventId =>
    let batch := (s.publishers worker).batch
    if batch.any (fun r => r.id = eventId) then
      some { s with
        log := markPublished s.log s.now eventId
        publishers := s.setPublisher worker { s.publishers worker with
          batch := batch.filter (fun r => r.id ≠ eventId) } }
    else none
  | .failed worker eventId error =>
    let batch := (s.publishers worker).batch
    (batch.find? (fun r => r.id = eventId)).map (fun row =>
      { s with
        log := releaseUnattempted (markFailure s.log s.now row.id row.attempts error) s.now
          (batch.filter (fun r => r.id ≠ eventId))
        publishers := s.setPublisher worker { s.publishers worker with batch := [] } })
  | .rescue => some { s with log := rescueEvents s.log s.now }
  | .sweep worker => some (sweepOnce s worker)
  | .restart worker monotonic =>
    some { s with publishers := s.setPublisher worker ⟨[], monotonic, 0⟩ }
  | .elapse seconds =>
    some { s with
      now := s.now + seconds
      publishers := fun w => { s.publishers w with monotonic := (s.publishers w).monotonic + seconds } }

def Outbox.step (s : Outbox Vault Tx Worker) (a : OutboxAction Vault Tx Worker) (s' : Outbox Vault Tx Worker) :
    Prop :=
  s.next a = some s'

end Akb.Events
