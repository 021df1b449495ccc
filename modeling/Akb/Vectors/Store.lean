import Akb.Queues.Rows
import Akb.Library.Run

/-! Chunks, the outbox of deletes and the point store. Points are written by embed
workers and removed by delete workers, outside the transactions that replace or
drop a source's chunks. One type `κ` of UUIDs names chunks, sources and vaults. -/
namespace Akb.Vectors
open Akb.Queues
variable {κ ω : Type} [LinearOrder κ] [DecidableEq ω]

scoped instance lawfulBEqOfLinearOrder : LawfulBEq κ := inferInstance

inductive SourceType where
  | document
  | table
  | file
  | nativeDocument
  | nativeFile
  deriving DecidableEq

def SourceType.native : SourceType → Bool
  | .nativeDocument | .nativeFile => true
  | .document | .table | .file => false

/-- What a chunk is cut from, with the vault that owns it. -/
structure Source (κ : Type) where
  sourceType : SourceType
  sourceId : κ
  vaultId : κ
  deriving DecidableEq

/-- A row of `vector_delete_outbox` outlives the chunk that it names. -/
structure DeleteData (κ : Type) where
  chunkId : κ
  sourceType : SourceType
  sourceId : κ
  deriving DecidableEq

abbrev ChunkRow (κ : Type) := QueueRow κ (Source κ)
abbrev OutboxRow (κ : Type) := QueueRow Nat (DeleteData κ)

/-- What a transaction drops: the chunks of one source, for good or to replace
them, or a vault, whose chunks go with it by cascade. -/
inductive Scope (κ : Type) where
  | source (s : Source κ) (retire : Bool)
  | vault (v : κ)
  deriving DecidableEq

/-- The chunks whose ids the transaction reads and enqueues. Of a vault these are
the chunks of its registered sources and its native ones. -/
def Scope.captures (registered : List (Source κ)) (source : Source κ) : Scope κ → Bool
  | .source s _ => source = s
  | .vault v => source.vaultId = v && (source.sourceType.native || registered.contains source)

/-- The chunks that the transaction deletes. -/
def Scope.selects (source : Source κ) : Scope κ → Bool
  | .source s _ => source = s
  | .vault v => source.vaultId = v

/-- The statements of a drop: its SELECT and INSERTs are done; its DELETE runs over
a snapshot of ids and waits for their locks; its DELETE is done. -/
inductive Progress (κ : Type) where
  | selected
  | waiting (snapshot : List κ)
  | deleted (ids : List κ)
  deriving DecidableEq

structure Drop (κ : Type) where
  scope : Scope κ
  enqueued : List (OutboxRow κ)
  progress : Progress κ
  fresh : List (ChunkRow κ)
  deriving DecidableEq

inductive Proc (κ : Type) where
  | idle
  | embedding (batch : List (ClaimedRow κ (Source κ)))
  | storing (row : ClaimedRow κ (Source κ)) (rest : List (ClaimedRow κ (Source κ))) (upserted : Bool)
  | settling (row : ClaimedRow κ (Source κ)) (rest : List (ClaimedRow κ (Source κ)))
  | draining (batch : List (ClaimedRow Nat (DeleteData κ)))
  | forgetting (row : ClaimedRow Nat (DeleteData κ)) (rest : List (ClaimedRow Nat (DeleteData κ)))
  | dropping (d : Drop κ)
  deriving DecidableEq

/-- A store in the same database joins the transaction that writes to it; an
external one takes a write at once. -/
inductive Driver where
  | joined
  | external
  deriving DecidableEq

/-- `issued` lists what each drawn id of the outbox stands for, `used` the ids
drawn for chunks and `retired` the ids of chunks that were deleted. -/
structure Store (κ ω : Type) where
  driver : Driver
  indexingBatchSize : Nat
  now : Int
  vaults : List κ
  vaultLocks : κ → Option ω
  registered : List (Source κ)
  chunks : List (ChunkRow κ)
  rowLocks : κ → Option ω
  outbox : List (OutboxRow κ)
  points : List κ
  procs : ω → Proc κ
  issued : List (DeleteData κ)
  used : List κ
  retired : List κ

def Store.empty (driver : Driver) (indexingBatchSize : Nat) (now : Int) : Store κ ω :=
  ⟨driver, indexingBatchSize, now, [], fun _ => none, [], [], fun _ => none, [], [], fun _ => .idle, [], [], []⟩

def reapGraceInterval : Int := 7 * 86400
def sweepGraceInterval : Int := 86400

namespace Store

def setProc (s : Store κ ω) (p : ω) (x : Proc κ) : ω → Proc κ := fun q => if q = p then x else s.procs q

def has (s : Store κ ω) (c : κ) : Bool := s.chunks.any (fun r => r.id = c)

def unlock (locks : κ → Option ω) (p : ω) : κ → Option ω := fun c => if locks c = some p then none else locks c

def upsert (points : List κ) (c : κ) : List κ := if c ∈ points then points else c :: points

def forget (points : List κ) (c : κ) : List κ := points.filter (fun x => x ≠ c)

def deleteOf (r : ChunkRow κ) : DeleteData κ := ⟨r.id, r.data.sourceType, r.data.sourceId⟩

/-- An INSERT into the outbox for each of the chunks. -/
def enqueueDeletes (s : Store κ ω) (rows : List (ChunkRow κ)) : List (OutboxRow κ) :=
  rows.zipIdx.map (fun e =>
    ⟨s.issued.length + e.2, deleteOf e.1, s.now, none, 0, none, some s.now, none, none⟩)

/-! An embed worker claims chunks and stores their points one by one, each in a
transaction that locks the chunk first. -/

def claimChunks (s : Store κ ω) (p : ω) (locked : List κ) : Option (Store κ ω) :=
  match s.procs p with
  | .idle =>
    let claimed := EmbedWorker.claimBatch s.indexingBatchSize s.chunks s.now locked
    some { s with chunks := claimed.2, procs := s.setProc p (.embedding claimed.1) }
  | _ => none

def lockChunk (s : Store κ ω) (p : ω) : Option (Store κ ω) :=
  match s.procs p with
  | .embedding (row :: rest) =>
    if s.has row.id then
      if s.rowLocks row.id = none then
        some { s with
          rowLocks := fun c => if c = row.id then some p else s.rowLocks c
          procs := s.setProc p (.storing row rest false) }
      else none
    -- The chunk vanished before the upsert.
    else some { s with procs := s.setProc p (.embedding rest) }
  | _ => none

def upsertPoint (s : Store κ ω) (p : ω) : Option (Store κ ω) :=
  match s.procs p with
  | .storing row rest false =>
    some { s with
      points := if s.driver = .external then upsert s.points row.id else s.points
      procs := s.setProc p (.storing row rest true) }
  | _ => none

def commitStore (s : Store κ ω) (p : ω) : Option (Store κ ω) :=
  match s.procs p with
  | .storing row rest true =>
    some { s with
      points := if s.driver = .joined then upsert s.points row.id else s.points
      chunks := EmbedWorker.markSuccess s.chunks s.now row.id
      rowLocks := unlock s.rowLocks p
      procs := s.setProc p (.embedding rest) }
  | _ => none

def abortStore (s : Store κ ω) (p : ω) : Option (Store κ ω) :=
  match s.procs p with
  | .storing row rest _ =>
    some { s with rowLocks := unlock s.rowLocks p, procs := s.setProc p (.settling row rest) }
  | _ => none

/-- How a chunk that was not stored ends: its failure is marked, it is abandoned
for good, or the rest of the batch is handed back. -/
inductive Ending where
  | failed (error : String)
  | failedAndStop (error : String)
  | terminal (error : String)
  | handedBack
  deriving DecidableEq

def settleChunk (s : Store κ ω) (p : ω) (row : ClaimedRow κ (Source κ))
    (rest : List (ClaimedRow κ (Source κ))) : Ending → Store κ ω
  | .failed error =>
    { s with
      chunks := EmbedWorker.markFailure s.chunks s.now row.id row.attempts error
      procs := s.setProc p (.embedding rest) }
  | .failedAndStop error =>
    { s with
      chunks := EmbedWorker.releaseUnattempted
        (EmbedWorker.markFailure s.chunks s.now row.id row.attempts error) s.now rest
      procs := s.setProc p .idle }
  | .terminal error =>
    { s with
      chunks := EmbedWorker.markTerminal s.chunks s.now row.id error
      procs := s.setProc p (.embedding rest) }
  | .handedBack =>
    { s with
      chunks := EmbedWorker.releaseUnattempted s.chunks s.now (row :: rest)
      procs := s.setProc p .idle }

/-- The encoding of the head of a batch fails, or its transaction was rolled back. -/
def endChunk (s : Store κ ω) (p : ω) (ending : Ending) : Option (Store κ ω) :=
  match s.procs p with
  | .embedding (row :: rest) => some (s.settleChunk p row rest ending)
  | .settling row rest => some (s.settleChunk p row rest ending)
  | _ => none

/-! A delete worker claims outbox rows and removes their points one by one. -/

def claimDeletes (s : Store κ ω) (p : ω) (locked : List Nat) : Option (Store κ ω) :=
  match s.procs p with
  | .idle =>
    let claimed := DeleteWorker.claimDeleteBatch s.outbox s.now locked
    some { s with outbox := claimed.2, procs := s.setProc p (.draining claimed.1) }
  | _ => none

def deletePoint (s : Store κ ω) (p : ω) : Option (Store κ ω) :=
  match s.procs p with
  | .draining (row :: rest) =>
    some { s with
      points := if s.driver = .external then forget s.points row.data.chunkId else s.points
      procs := s.setProc p (.forgetting row rest) }
  | _ => none

def commitDelete (s : Store κ ω) (p : ω) : Option (Store κ ω) :=
  match s.procs p with
  | .forgetting row rest =>
    some { s with
      points := if s.driver = .joined then forget s.points row.data.chunkId else s.points
      outbox := DeleteWorker.markDeleteSuccess s.outbox s.now row.id
      procs := s.setProc p (.draining rest) }
  | _ => none

/-- A delete fails, before the store took it or after. -/
def failDelete (s : Store κ ω) (p : ω) (error : String) (unavailable : Bool) : Option (Store κ ω) :=
  let settle (row : ClaimedRow Nat (DeleteData κ)) (rest : List (ClaimedRow Nat (DeleteData κ))) : Store κ ω :=
    let marked := DeleteWorker.markDeleteFailure s.outbox s.now row.id row.attempts error
    if unavailable then
      { s with outbox := DeleteWorker.releaseUnattempted marked s.now rest, procs := s.setProc p .idle }
    else { s with outbox := marked, procs := s.setProc p (.draining rest) }
  match s.procs p with
  | .draining (row :: rest) => some (settle row rest)
  | .forgetting row rest => some (settle row rest)
  | _ => none

/-! A drop is one transaction. Its DELETE sees the rows committed when the
statement starts, and waits for those that another transaction has locked. -/

def beginDrop (s : Store κ ω) (p : ω) (scope : Scope κ) : Option (Store κ ω) :=
  let captured := s.chunks.filter (fun r => scope.captures s.registered r.data)
  let started : Store κ ω := { s with
    issued := s.issued ++ captured.map deleteOf
    procs := s.setProc p (.dropping ⟨scope, s.enqueueDeletes captured, .selected, []⟩) }
  match s.procs p, scope with
  | .idle, .source _ _ => some started
  | .idle, .vault v =>
    if v ∈ s.vaults ∧ s.vaultLocks v = none then
      some { started with vaultLocks := fun u => if u = v then some p else s.vaultLocks u }
    else none
  | _, _ => none

def startDelete (s : Store κ ω) (p : ω) : Option (Store κ ω) :=
  match s.procs p with
  | .dropping d =>
    if d.progress = .selected then
      let snapshot := (s.chunks.filter (fun r => d.scope.selects r.data)).map QueueRow.id
      some { s with procs := s.setProc p (.dropping { d with progress := .waiting snapshot }) }
    else none
  | _ => none

def finishDelete (s : Store κ ω) (p : ω) : Option (Store κ ω) :=
  match s.procs p with
  | .dropping d =>
    match d.progress with
    | .waiting snapshot =>
      let ids := snapshot.filter (fun c => s.has c)
      if ids.all (fun c => s.rowLocks c = none) then
        some { s with
          rowLocks := fun c => if c ∈ ids then some p else s.rowLocks c
          procs := s.setProc p (.dropping { d with progress := .deleted ids }) }
      else none
    | _ => none
  | _ => none

def insertChunk (s : Store κ ω) (p : ω) (id : κ) : Option (Store κ ω) :=
  match s.procs p with
  | .dropping d =>
    match d.progress, d.scope with
    | .deleted _, .source source false =>
      if id ∈ s.used then none
      else some { s with
        used := id :: s.used
        procs := s.setProc p (.dropping { d with
          fresh := d.fresh ++ [⟨id, source, s.now, none, 0, none, none, none, none⟩] }) }
    | _, _ => none
  | _ => none

/-- What a drop leaves of the registry. -/
def registeredAfter (registered : List (Source κ)) : Scope κ → List (Source κ)
  | .source s true => registered.filter (fun source => source ≠ s)
  | .source _ false => registered
  | .vault v => registered.filter (fun source => source.vaultId ≠ v)

def vaultsAfter (vaults : List κ) : Scope κ → List κ
  | .source _ _ => vaults
  | .vault v => vaults.filter (fun u => u ≠ v)

/-- A chunk refers to its vault, which must be there and not locked by its deletion. -/
def commitDrop (s : Store κ ω) (p : ω) : Option (Store κ ω) :=
  match s.procs p with
  | .dropping d =>
    match d.progress with
    | .deleted ids =>
      if d.fresh.all (fun r => decide (r.data.vaultId ∈ s.vaults ∧ s.vaultLocks r.data.vaultId = none)) then
        some { s with
          chunks := s.chunks.filter (fun r => r.id ∉ ids) ++ d.fresh
          outbox := s.outbox ++ d.enqueued
          registered := registeredAfter s.registered d.scope
          vaults := vaultsAfter s.vaults d.scope
          vaultLocks := unlock s.vaultLocks p
          rowLocks := unlock s.rowLocks p
          procs := s.setProc p .idle
          retired := ids ++ s.retired }
      else none
    | _ => none
  | _ => none

/-- A process ends; what its transaction did is rolled back. -/
def stop (s : Store κ ω) (p : ω) : Store κ ω :=
  { s with
    vaultLocks := unlock s.vaultLocks p, rowLocks := unlock s.rowLocks p, procs := s.setProc p .idle }

/-- The chunks that the reaper removes: abandoned long enough ago and not locked. -/
def reapable (s : Store κ ω) (r : ChunkRow κ) : Bool :=
  r.doneAt.isNone && r.abandonedAt.any (fun at_ => at_ < s.now - reapGraceInterval) && decide (s.rowLocks r.id = none)

def reap (s : Store κ ω) : Store κ ω :=
  let abandoned := s.chunks.filter s.reapable
  let unqueued := abandoned.filter (fun r => !s.outbox.any (fun o => o.data.chunkId = r.id && o.doneAt.isNone))
  { s with
    chunks := s.chunks.filter (fun r => !s.reapable r)
    outbox := s.outbox ++ s.enqueueDeletes unqueued
    issued := s.issued ++ unqueued.map deleteOf
    retired := abandoned.map QueueRow.id ++ s.retired }

def sweep (s : Store κ ω) : Store κ ω :=
  { s with outbox := s.outbox.filter (fun o => !o.doneAt.any (fun at_ => at_ < s.now - sweepGraceInterval)) }

end Store

inductive StoreAction (κ ω : Type) where
  | openVault (v : κ)
  | register (source : Source κ)
  | claimChunks (p : ω) (locked : List κ)
  | lockChunk (p : ω)
  | upsertPoint (p : ω)
  | commitStore (p : ω)
  | abortStore (p : ω)
  | endChunk (p : ω) (ending : Store.Ending)
  | claimDeletes (p : ω) (locked : List Nat)
  | deletePoint (p : ω)
  | commitDelete (p : ω)
  | failDelete (p : ω) (error : String) (unavailable : Bool)
  | beginDrop (p : ω) (scope : Scope κ)
  | startDelete (p : ω)
  | finishDelete (p : ω)
  | insertChunk (p : ω) (id : κ)
  | commitDrop (p : ω)
  | stop (p : ω)
  | rescue
  | reap
  | sweep
  | elapse (seconds : Nat)
  deriving DecidableEq

def Store.next (s : Store κ ω) : StoreAction κ ω → Option (Store κ ω)
  | .openVault v => if v ∈ s.vaults then none else some { s with vaults := v :: s.vaults }
  | .register source =>
    if source.vaultId ∈ s.vaults ∧ s.vaultLocks source.vaultId = none then
      some { s with registered := source :: s.registered }
    else none
  | .claimChunks p locked => s.claimChunks p locked
  | .lockChunk p => s.lockChunk p
  | .upsertPoint p => s.upsertPoint p
  | .commitStore p => s.commitStore p
  | .abortStore p => s.abortStore p
  | .endChunk p ending => s.endChunk p ending
  | .claimDeletes p locked => s.claimDeletes p locked
  | .deletePoint p => s.deletePoint p
  | .commitDelete p => s.commitDelete p
  | .failDelete p error unavailable => s.failDelete p error unavailable
  | .beginDrop p scope => s.beginDrop p scope
  | .startDelete p => s.startDelete p
  | .finishDelete p => s.finishDelete p
  | .insertChunk p id => s.insertChunk p id
  | .commitDrop p => s.commitDrop p
  | .stop p => some (s.stop p)
  | .rescue => some { s with chunks := rescueExpired s.chunks s.now, outbox := rescueExpired s.outbox s.now }
  | .reap => some s.reap
  | .sweep => some s.sweep
  | .elapse seconds => some { s with now := s.now + seconds }

def Store.step (s : Store κ ω) (a : StoreAction κ ω) (s' : Store κ ω) : Prop := s.next a = some s'

end Akb.Vectors
