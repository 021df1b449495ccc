import Mathlib.Data.List.Nodup
import Mathlib.Data.List.Basic
import Akb.Library.KeysetPages
import Akb.Library.Run

/-! The `events` outbox as its writers see it: an id is drawn from the sequence
at INSERT, the row becomes visible when its transaction commits. -/
namespace Akb.Events
variable {Vault Tx : Type}

/-- The arguments of `emit_event`. -/
structure Emission (Vault : Type) where
  kind : String
  vaultId : Option Vault
  resourceUri : Option String
  actorId : Option String
  payload : String
  deriving DecidableEq

/-- A document event of vault 7. -/
def documentPut : Emission Nat := ⟨"document.put", some 7, some "akb://eng/doc/a", some "ann", "\x7b\x7d"⟩

/-- A row of `events`. -/
structure EventRow (Vault : Type) extends Emission Vault where
  id : Nat
  occurredAt : Int
  redisPublishedAt : Option Int
  attempts : Nat
  lastError : Option String
  nextAttemptAt : Option Int
  claimedAt : Option Int
  abandonedAt : Option Int
  deriving DecidableEq

/-- The committed rows, the rows of open transactions and the next sequence value. -/
structure EventLog (Vault Tx : Type) where
  nextId : Nat
  openRows : List (Tx × EventRow Vault)
  rows : List (EventRow Vault)
  drawn : ∀ r ∈ rows ++ openRows.map Prod.snd, r.id < nextId
  unique : ((rows ++ openRows.map Prod.snd).map EventRow.id).Nodup

namespace EventLog

def fresh : EventLog Vault Tx := ⟨1, [], [], by simp, by simp⟩

theorem row_lt (l : EventLog Vault Tx) {r : EventRow Vault} (h : r ∈ l.rows) : r.id < l.nextId :=
  l.drawn r (List.mem_append_left _ h)

theorem openRow_lt (l : EventLog Vault Tx) {e : Tx × EventRow Vault} (h : e ∈ l.openRows) : e.2.id < l.nextId :=
  l.drawn e.2 (List.mem_append_right _ (List.mem_map_of_mem h))

theorem rows_nodup (l : EventLog Vault Tx) : (l.rows.map EventRow.id).Nodup := by
  have h := l.unique
  rw [List.map_append] at h
  exact h.of_append_left

theorem row_ne_openRow (l : EventLog Vault Tx) {r : EventRow Vault} {e : Tx × EventRow Vault}
    (hr : r ∈ l.rows) (he : e ∈ l.openRows) : r.id ≠ e.2.id := by
  have h := l.unique
  rw [List.map_append, List.nodup_append] at h
  exact h.2.2 _ (List.mem_map_of_mem hr) _ (List.mem_map_of_mem (List.mem_map_of_mem he))

theorem eq_of_id (l : EventLog Vault Tx) {r r' : EventRow Vault} (hr : r ∈ l.rows) (hr' : r' ∈ l.rows)
    (h : r.id = r'.id) : r = r' :=
  List.inj_on_of_nodup_map l.rows_nodup hr hr' h

/-- The INSERT of `emit_event`: the new row is visible to its own transaction only. -/
def emitEvent (l : EventLog Vault Tx) (tx : Tx) (now : Int) (e : Emission Vault) : EventLog Vault Tx where
  nextId := l.nextId + 1
  openRows := l.openRows ++ [(tx, { e with
    id := l.nextId, occurredAt := now, redisPublishedAt := none, attempts := 0, lastError := none,
    nextAttemptAt := none, claimedAt := none, abandonedAt := none })]
  rows := l.rows
  drawn := by
    intro r hr
    rw [List.map_append, ← List.append_assoc, List.mem_append] at hr
    rcases hr with hr | hr
    · exact Nat.lt_succ_of_lt (l.drawn r hr)
    · rw [List.map_singleton, List.mem_singleton] at hr
      rw [hr]
      exact Nat.lt_succ_self _
  unique := by
    rw [List.map_append (f := Prod.snd), ← List.append_assoc, List.map_append, List.nodup_append]
    refine ⟨l.unique, by simp, ?_⟩
    rintro a ha b hb
    obtain ⟨r, hr, rfl⟩ := List.mem_map.mp ha
    rw [show b = l.nextId by simpa using hb]
    exact Nat.ne_of_lt (l.drawn r hr)

variable [DecidableEq Tx]

/-- Commit makes the rows of one transaction visible together. -/
def commit (l : EventLog Vault Tx) (tx : Tx) : EventLog Vault Tx :=
  have hp : (l.rows ++ (l.openRows.filter (fun e => e.1 = tx)).map Prod.snd ++
      (l.openRows.filter (fun e => !decide (e.1 = tx))).map Prod.snd).Perm
        (l.rows ++ l.openRows.map Prod.snd) := by
    rw [List.append_assoc, ← List.map_append]
    exact ((List.filter_append_perm _ _).map _).append_left _
  { nextId := l.nextId
    openRows := l.openRows.filter (fun e => !decide (e.1 = tx))
    rows := l.rows ++ (l.openRows.filter (fun e => e.1 = tx)).map Prod.snd
    drawn := fun r hr => l.drawn r (hp.mem_iff.mp hr)
    unique := (hp.map _).nodup_iff.mpr l.unique }

/-- Rollback drops the rows; their ids stay drawn. -/
def rollback (l : EventLog Vault Tx) (tx : Tx) : EventLog Vault Tx where
  nextId := l.nextId
  openRows := l.openRows.filter (fun e => !decide (e.1 = tx))
  rows := l.rows
  drawn r hr := l.drawn r (List.Sublist.subset (List.filter_sublist.map _ |>.append_left _) hr)
  unique := l.unique.sublist ((List.filter_sublist.map _ |>.append_left _).map _)

theorem mem_commit {l : EventLog Vault Tx} {tx : Tx} {r : EventRow Vault} :
    r ∈ (l.commit tx).rows ↔ r ∈ l.rows ∨ (tx, r) ∈ l.openRows := by
  simp [commit]

end EventLog

inductive WriterAction (Vault Tx : Type) where
  | emit (tx : Tx) (now : Int) (e : Emission Vault)
  | commit (tx : Tx)
  | rollback (tx : Tx)
  deriving DecidableEq

def EventLog.write [DecidableEq Tx] (l : EventLog Vault Tx) : WriterAction Vault Tx → EventLog Vault Tx
  | .emit tx now e => l.emitEvent tx now e
  | .commit tx => l.commit tx
  | .rollback tx => l.rollback tx

end Akb.Events

/-! One connection's `_stream_events` loop over the outbox of a vault. -/
namespace Akb.Events
open Akb.Library
variable {Vault Tx : Type} [DecidableEq Vault] [DecidableEq Tx]

def eventBatchSize : Nat := 100

def EventRow.ofVault (r : EventRow Vault) (vault : Vault) : Bool := r.vaultId = some vault

def vaultRows (l : EventLog Vault Tx) (vault : Vault) : List (EventRow Vault) :=
  l.rows.filter (fun r => r.ofVault vault)

omit [DecidableEq Tx] in
theorem vaultRows_nodup (l : EventLog Vault Tx) (vault : Vault) : ((vaultRows l vault).map EventRow.id).Nodup :=
  l.rows_nodup.sublist (List.filter_sublist.map _)

omit [DecidableEq Tx] in
theorem mem_vaultRows {l : EventLog Vault Tx} {vault : Vault} {r : EventRow Vault} :
    r ∈ vaultRows l vault ↔ r ∈ l.rows ∧ r.ofVault vault := List.mem_filter

def listVaultEvents (l : EventLog Vault Tx) (vault : Vault) (afterId limit : Nat) :
    Except String (List (EventRow Vault)) :=
  if limit < 1 then .error "event batch limit must be positive"
  else .ok (nextBatch EventRow.id (vaultRows l vault) afterId limit)

inductive Frame (Vault : Type) where
  | change (row : EventRow Vault)
  | checkpoint (position : Nat)
  | heartbeat
  deriving DecidableEq

/-- The position behind the frame's cursor; a heartbeat carries none. -/
def Frame.position : Frame Vault → Option Nat
  | .change row => some row.id
  | .checkpoint p => some p
  | .heartbeat => none

/-- Where the loop stands between two awaits. -/
inductive Phase (Vault : Type) where
  | polling
  | draining (row : EventRow Vault) (rest : List (EventRow Vault))
  | waiting
  | closed

structure Tail (Vault : Type) where
  vaultId : Vault
  kinds : List String
  currentPosition : Nat
  phase : Phase Vault
  frames : List (Frame Vault)

def Tail.opened (vault : Vault) (kinds : List String) (position : Nat) : Tail Vault :=
  ⟨vault, kinds, position, .polling, []⟩

/-- An unselected kind advances the consumer by a checkpoint. -/
def frameOf (kinds : List String) (row : EventRow Vault) : Frame Vault :=
  if kinds = [] ∨ row.kind ∈ kinds then .change row else .checkpoint row.id

def Phase.ofRows : List (EventRow Vault) → Phase Vault
  | [] => .polling
  | row :: rest => .draining row rest

inductive TailAction where
  | poll
  | deliver
  | disconnect
  | wake (timedOut : Bool)
  deriving DecidableEq

/-- One stretch of the loop. A disconnect or a lost authorization is noticed
before a poll and before a row. -/
def Tail.act (t : Tail Vault) (l : EventLog Vault Tx) : TailAction → Option (Tail Vault)
  | .poll =>
    match t.phase, listVaultEvents l t.vaultId t.currentPosition eventBatchSize with
    | .polling, .ok [] => some { t with phase := .waiting }
    | .polling, .ok (row :: rest) => some { t with phase := .draining row rest }
    | _, _ => none
  | .deliver =>
    match t.phase with
    | .draining row rest => some { t with
        currentPosition := row.id
        phase := .ofRows rest
        frames := t.frames ++ [frameOf t.kinds row] }
    | _ => none
  | .disconnect =>
    match t.phase with
    | .polling => some { t with phase := .closed }
    | .draining _ _ => some { t with phase := .closed }
    | _ => none
  | .wake timedOut =>
    match t.phase with
    | .waiting => some { t with
        phase := .polling
        frames := if timedOut then t.frames ++ [.heartbeat] else t.frames }
    | _ => none

/-- Writers of the outbox beside one tail. -/
structure Service (Vault Tx : Type) where
  log : EventLog Vault Tx
  tail : Tail Vault

inductive ServiceAction (Vault Tx : Type) where
  | write (w : WriterAction Vault Tx)
  | tail (a : TailAction)
  deriving DecidableEq

def Service.next (s : Service Vault Tx) : ServiceAction Vault Tx → Option (Service Vault Tx)
  | .write w => some { s with log := s.log.write w }
  | .tail a => (s.tail.act s.log a).map (fun t => { s with tail := t })

def Service.step (s : Service Vault Tx) (a : ServiceAction Vault Tx) (s' : Service Vault Tx) : Prop :=
  s.next a = some s'

end Akb.Events
