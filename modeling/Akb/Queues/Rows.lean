import Akb.Events.Publisher

/-! The retry columns that the outbox of events, the outbox of vector deletes and
the chunks share, and the statements of their workers on them. -/
namespace Akb.Queues
open Akb.Events
variable {κ π : Type} [LinearOrder κ]

/-- `redis_published_at`, `processed_at` or `vector_indexed_at` is `doneAt`;
`attempts`, `retry_count` or `vector_retry_count` is `attempts`. What the row is
about, such as an event or a chunk to delete, is its `data`. -/
structure QueueRow (κ π : Type) where
  id : κ
  data : π
  createdAt : Int
  doneAt : Option Int
  attempts : Nat
  lastError : Option String
  nextAttemptAt : Option Int
  claimedAt : Option Int
  abandonedAt : Option Int
  deriving DecidableEq

/-- What a claim returns of a row. -/
structure ClaimedRow (κ π : Type) where
  id : κ
  data : π
  attempts : Nat
  claimedAt : Int
  deriving DecidableEq

def QueueRow.due (r : QueueRow κ π) (now : Int) : Bool := r.nextAttemptAt.all (fun at_ => at_ ≤ now)

def QueueRow.pending (r : QueueRow κ π) (now : Int) : Bool :=
  r.doneAt.isNone && r.due now && decide (r.attempts < maxRetries) && r.abandonedAt.isNone

def QueueRow.claim (now : Int) (r : QueueRow κ π) : QueueRow κ π :=
  { r with nextAttemptAt := some (now + claimSecs), claimedAt := some now, attempts := r.attempts + 1 }

def QueueRow.claimed (now : Int) (r : QueueRow κ π) : ClaimedRow κ π := ⟨r.id, r.data, r.attempts + 1, now⟩

def QueueRow.done (now : Int) (r : QueueRow κ π) : QueueRow κ π :=
  { r with
    doneAt := some now, attempts := 0, lastError := none, nextAttemptAt := none, claimedAt := none,
    abandonedAt := none }

/-- `(error or "")[:500]`. -/
def truncated (error : String) : String := String.ofList (error.toList.take 500)

def QueueRow.fail (now : Int) (attemptCount : Nat) (error : String) (r : QueueRow κ π) : QueueRow κ π :=
  let terminal : Bool := maxRetries ≤ attemptCount
  { r with
    lastError := some (truncated error)
    nextAttemptAt := if terminal then none else some (now + nextAttemptDelay (attemptCount - 1))
    claimedAt := none
    abandonedAt := if terminal then some now else none }

def QueueRow.terminate (now : Int) (error : String) (r : QueueRow κ π) : QueueRow κ π :=
  { r with
    lastError := some (truncated error), nextAttemptAt := none, claimedAt := none, abandonedAt := some now }

/-- The row is still the one that the batch claimed at that moment. -/
def QueueRow.heldSince (claimedAt : Int) (r : QueueRow κ π) : Bool :=
  r.doneAt.isNone && r.abandonedAt.isNone && decide (r.claimedAt = some claimedAt)

def QueueRow.handBack (now : Int) (r : QueueRow κ π) : QueueRow κ π :=
  { r with attempts := r.attempts - 1, nextAttemptAt := some now, claimedAt := none }

def QueueRow.expired (r : QueueRow κ π) (now : Int) : Bool :=
  r.doneAt.isNone && r.abandonedAt.isNone && decide (maxRetries ≤ r.attempts) && r.due now

def QueueRow.rescue (now : Int) (r : QueueRow κ π) : QueueRow κ π :=
  { r with
    abandonedAt := some now, claimedAt := none, nextAttemptAt := none
    lastError := some (r.lastError.getD "claim lease expired after final attempt") }

/-- `ORDER BY next_attempt_at NULLS FIRST, id`. -/
def byNextAttempt (a b : QueueRow κ π) : Bool :=
  match a.nextAttemptAt, b.nextAttemptAt with
  | none, none => a.id ≤ b.id
  | none, some _ => true
  | some _, none => false
  | some x, some y => x < y || (x = y && decide (a.id ≤ b.id))

/-- `ORDER BY created_at DESC, id`. -/
def byCreation (a b : QueueRow κ π) : Bool :=
  b.createdAt < a.createdAt || (a.createdAt = b.createdAt && decide (a.id ≤ b.id))

def updateRows (rows : List (QueueRow κ π)) (selected : QueueRow κ π → Bool) (f : QueueRow κ π → QueueRow κ π) :
    List (QueueRow κ π) :=
  rows.map (fun r => if selected r then f r else r)

/-- The ids that a claim picks; rows locked by another claim are skipped. -/
def pick (before : QueueRow κ π → QueueRow κ π → Bool) (batchSize : Nat) (rows : List (QueueRow κ π)) (now : Int)
    (locked : List κ) : List κ :=
  let ready := rows.filter (fun r => r.pending now && !locked.contains r.id)
  ((ready.insertionSort (fun a b => before a b)).take batchSize).map QueueRow.id

def claim (before : QueueRow κ π → QueueRow κ π → Bool) (batchSize : Nat) (rows : List (QueueRow κ π)) (now : Int)
    (locked : List κ) : List (ClaimedRow κ π) × List (QueueRow κ π) :=
  let picked := pick before batchSize rows now locked
  ((rows.filter (fun r => picked.contains r.id)).map (QueueRow.claimed now),
    updateRows rows (fun r => picked.contains r.id) (QueueRow.claim now))

def markDone (rows : List (QueueRow κ π)) (now : Int) (id : κ) : List (QueueRow κ π) :=
  updateRows rows (fun r => r.id = id) (QueueRow.done now)

def markFailed (rows : List (QueueRow κ π)) (now : Int) (id : κ) (attemptCount : Nat) (error : String) :
    List (QueueRow κ π) :=
  updateRows rows (fun r => r.id = id) (QueueRow.fail now attemptCount error)

def release (rows : List (QueueRow κ π)) (now : Int) (batch : List (ClaimedRow κ π)) : List (QueueRow κ π) :=
  match batch with
  | [] => rows
  | first :: _ =>
    updateRows rows (fun r => (batch.map ClaimedRow.id).contains r.id && r.heldSince first.claimedAt)
      (QueueRow.handBack now)

namespace EventsPublisher

def claimBatch (rows : List (QueueRow κ π)) := claim byNextAttempt batchSize rows
def markPublished (rows : List (QueueRow κ π)) := markDone rows
def markFailure (rows : List (QueueRow κ π)) := markFailed rows
def releaseUnattempted (rows : List (QueueRow κ π)) := release rows

end EventsPublisher

namespace DeleteWorker

def batchSize : Nat := 16

def claimDeleteBatch (rows : List (QueueRow κ π)) := claim byNextAttempt batchSize rows
def markDeleteSuccess (rows : List (QueueRow κ π)) := markDone rows
def markDeleteFailure (rows : List (QueueRow κ π)) := markFailed rows
def releaseUnattempted (rows : List (QueueRow κ π)) := release rows

end DeleteWorker

namespace EmbedWorker

def claimBatch (batchSize : Nat) (rows : List (QueueRow κ π)) := claim byCreation batchSize rows
def markSuccess (rows : List (QueueRow κ π)) := markDone rows
def markFailure (rows : List (QueueRow κ π)) := markFailed rows
def releaseUnattempted (rows : List (QueueRow κ π)) := release rows

/-- A fault that no retry can mend. -/
def markTerminal (rows : List (QueueRow κ π)) (now : Int) (chunkId : κ) (error : String) : List (QueueRow κ π) :=
  updateRows rows (fun r => r.id = chunkId) (QueueRow.terminate now error)

end EmbedWorker

/-- One statement of `_RESCUE_STATEMENTS`. -/
def rescueExpired (rows : List (QueueRow κ π)) (now : Int) : List (QueueRow κ π) :=
  updateRows rows (fun r => r.expired now) (QueueRow.rescue now)

end Akb.Queues

/-! The outbox of events as a queue: on the retry columns, its statements are those
that the three queues share. -/
namespace Akb.Queues
open Akb.Events
variable {Vault Tx : Type}

def queueRow (r : EventRow Vault) : QueueRow Nat (Emission Vault) :=
  ⟨r.id, r.toEmission, r.occurredAt, r.redisPublishedAt, r.attempts, r.lastError, r.nextAttemptAt, r.claimedAt, r.abandonedAt⟩

/-- What the worker keeps of a row that its claim returned at this moment. -/
def claimedRow (now : Int) (r : EventRow Vault) : ClaimedRow Nat (Emission Vault) := ⟨r.id, r.toEmission, r.attempts, now⟩

private theorem map_queueRow_ite (rows : List (EventRow Vault)) (P : EventRow Vault → Prop) [DecidablePred P]
    {F : EventRow Vault → EventRow Vault} {selected : QueueRow Nat (Emission Vault) → Bool} {f : QueueRow Nat (Emission Vault) → QueueRow Nat (Emission Vault)}
    (hP : ∀ r, P r ↔ selected (queueRow r) = true) (hF : ∀ r, queueRow (F r) = f (queueRow r)) :
    (rows.map (fun r => if P r then F r else r)).map queueRow = updateRows (rows.map queueRow) selected f := by
  rw [updateRows, List.map_map, List.map_map]
  apply List.map_congr_left
  intro r _
  simp only [Function.comp_apply]
  by_cases h : P r
  · rw [if_pos h, if_pos ((hP r).mp h), hF]
  · rw [if_neg h, if_neg (fun hd => h ((hP r).mpr hd))]

theorem markPublished_rows (l : EventLog Vault Tx) (now : Int) (eventId : Nat) :
    (markPublished l now eventId).rows.map queueRow =
      EventsPublisher.markPublished (l.rows.map queueRow) now eventId :=
  map_queueRow_ite l.rows _ (fun _ => decide_eq_true_iff.symm) (fun _ => rfl)

theorem markFailure_rows (l : EventLog Vault Tx) (now : Int) (eventId attemptCount : Nat) (error : String) :
    (markFailure l now eventId attemptCount error).rows.map queueRow =
      EventsPublisher.markFailure (l.rows.map queueRow) now eventId attemptCount error :=
  map_queueRow_ite l.rows _ (fun _ => decide_eq_true_iff.symm) (fun _ => rfl)

theorem rescueEvents_rows (l : EventLog Vault Tx) (now : Int) :
    (rescueEvents l now).rows.map queueRow = rescueExpired (l.rows.map queueRow) now := by
  refine map_queueRow_ite l.rows _ (fun r => ?_) (fun _ => rfl)
  simp only [QueueRow.expired, Bool.and_eq_true, decide_eq_true_eq, and_assoc]
  exact Iff.rfl

private theorem claimsBefore_iff (a b : EventRow Vault) :
    claimsBefore a b = byNextAttempt (queueRow a) (queueRow b) := by
  cases ha : a.nextAttemptAt <;> cases hb : b.nextAttemptAt <;> simp only [claimsBefore, byNextAttempt, queueRow, ha, hb]

theorem claimBatch_rows (l : EventLog Vault Tx) (now : Int) (locked : List Nat) :
    (claimBatch l now locked).2.rows.map queueRow =
        (EventsPublisher.claimBatch (l.rows.map queueRow) now locked).2 ∧
      (claimBatch l now locked).1.map (claimedRow now) =
        (EventsPublisher.claimBatch (l.rows.map queueRow) now locked).1 := by
  have hsort : ((l.rows.filter (fun r => r.pending now && !locked.contains r.id)).insertionSort
        (fun a b => claimsBefore a b)).map queueRow =
      ((l.rows.map queueRow).filter (fun r => r.pending now && !locked.contains r.id)).insertionSort
        (fun a b => byNextAttempt a b) := by
    rw [List.filter_map]
    refine List.map_insertionSort _ _ queueRow _ (fun a _ b _ => ?_)
    rw [claimsBefore_iff]
  have hpick : (((l.rows.filter (fun r => r.pending now && !locked.contains r.id)).insertionSort
        (fun a b => claimsBefore a b)).take batchSize).map EventRow.id =
      pick byNextAttempt batchSize (l.rows.map queueRow) now locked := by
    rw [pick, ← hsort, ← List.map_take, List.map_map]
    rfl
  rw [EventsPublisher.claimBatch, claim, ← hpick]
  constructor
  · exact map_queueRow_ite l.rows _ (fun _ => Iff.rfl) (fun _ => rfl)
  · rw [claimBatch, List.filter_map, List.map_map, List.map_map]
    rfl

theorem releaseUnattempted_rows (l : EventLog Vault Tx) (now claimedAt : Int) (batch : List (EventRow Vault))
    (hbatch : ∀ r ∈ batch, r.claimedAt = some claimedAt) :
    (releaseUnattempted l now batch).rows.map queueRow =
      EventsPublisher.releaseUnattempted (l.rows.map queueRow) now (batch.map (claimedRow claimedAt)) := by
  cases batch with
  | nil => rfl
  | cons first rest =>
    have hids : ((first :: rest).map (claimedRow claimedAt)).map ClaimedRow.id = (first :: rest).map EventRow.id := by
      rw [List.map_map]
      rfl
    refine map_queueRow_ite l.rows _ (fun r => ?_) (fun _ => rfl)
    rw [hids, hbatch first List.mem_cons_self]
    simp only [QueueRow.heldSince, queueRow, Bool.and_eq_true, and_assoc]
    constructor
    · rintro ⟨hid, hdone, hab, _, hat⟩
      exact ⟨hid, hdone, hab, decide_eq_true hat⟩
    · rintro ⟨hid, hdone, hab, hat⟩
      exact ⟨hid, hdone, hab, Option.isSome_of_eq_some (of_decide_eq_true hat), of_decide_eq_true hat⟩

end Akb.Queues
