import Akb.Library.PyText
import Akb.Library.Table

/-! The BM25 vocabulary: lookups that give terms their ids, transactions that store vectors of ids, and
the command that renumbers both. -/
namespace Akb.Bm25.Vocabulary
open Akb.Library

abbrev Term := List Char
abbrev Uuid := Nat

/-! ### Tables -/

structure VocabRow where
  term : Term
  termId : Nat
  deriving DecidableEq

/-- A vector of ids and frequencies, with the terms of the text it stands for. -/
structure Stored where
  chunkId : Uuid
  counts : List (Term × Nat)
  entries : List (Nat × Nat)

structure RemapRow where
  term : Term
  oldId : Nat
  newId : Nat

/-- `bm25_term_id_remap` and the row of `bm25_term_id_remap_run`. -/
structure Remap where
  rows : List RemapRow
  epochAfter : Nat
  maxIdBefore : Nat
  sequenceNextBefore : Nat

structure Database where
  vocab : Table VocabRow VocabRow.term
  sequence : Nat
  epoch : Nat
  chunks : List Uuid
  vectors : Table Stored Stored.chunkId
  remap : Option Remap

namespace Database

/-- `SELECT term, term_id FROM bm25_vocab WHERE term = ANY($1)` -/
def lookup (db : Database) (terms : List Term) : List VocabRow := db.vocab.rows.filter fun r => r.term ∈ terms

/-- An id is drawn for each row, also for one that conflicts. -/
def insertTerm (db : Database) (t : Term) : Database × List VocabRow :=
  match db.vocab.insert? ⟨t, db.sequence⟩ with
  | some vocab => ({ db with vocab := vocab, sequence := db.sequence + 1 }, [⟨t, db.sequence⟩])
  | none => ({ db with sequence := db.sequence + 1 }, [])

/-- `INSERT ... ON CONFLICT (term) DO NOTHING RETURNING term, term_id` -/
def insertTerms (db : Database) : List Term → Database × List VocabRow
  | [] => (db, [])
  | t :: ts => (((db.insertTerm t).1.insertTerms ts).1, (db.insertTerm t).2 ++ ((db.insertTerm t).1.insertTerms ts).2)

end Database

/-! ### The renumbering -/

def target (map : List (Nat × Nat)) (id : Nat) : Option Nat := (map.find? fun m => m.1 = id).map Prod.snd

def relabelled (map : List (Nat × Nat)) (id : Nat) : Nat := (target map id).getD 0

/-- `row_number() OVER (ORDER BY term_id) - 1` -/
def rank (rows : List VocabRow) (id : Nat) : Nat := rows.countP fun r => r.termId < id

namespace Database

/-- `_relabel`: every copy of an id is replaced. An id outside the map and a map with a repeated key raise. -/
def relabel (db : Database) (map : List (Nat × Nat)) (nextId : Nat) : Option Database :=
  if (map.map Prod.fst).Nodup ∧ (map.map Prod.snd).Nodup ∧ (∀ r ∈ db.vocab.rows, (target map r.termId).isSome) ∧
      ∀ v ∈ db.vectors.rows, ∀ e ∈ v.entries, (target map e.1).isSome then
    some { db with
      vocab := db.vocab.updateWhere (fun _ => true) (fun r => { r with termId := relabelled map r.termId }) fun _ => rfl
      sequence := nextId
      epoch := db.epoch + 1
      vectors := db.vectors.updateWhere (fun _ => true)
        (fun v => { v with entries := v.entries.map fun e => (relabelled map e.1, e.2) }) fun _ => rfl }
  else none

/-- The ids are `0 .. terms - 1`, told from their number, the least and the largest. -/
def Dense (db : Database) : Prop :=
  db.vocab.rows = [] ∨ (∃ r ∈ db.vocab.rows, r.termId = 0) ∧ (∃ r ∈ db.vocab.rows, r.termId + 1 = db.vocab.rows.length) ∧
    ∀ r ∈ db.vocab.rows, r.termId < db.vocab.rows.length

instance (db : Database) : Decidable db.Dense := by
  unfold Dense
  infer_instance

def maxId (db : Database) : Nat := (db.vocab.rows.map VocabRow.termId).foldr max 0

/-- `apply`: the new id of a term is the rank of its old one. Dense ids get only their sequence repaired. -/
def apply (db : Database) : Option Database :=
  if db.Dense then some { db with sequence := db.vocab.rows.length }
  else
    (db.relabel (db.vocab.rows.map fun r => (r.termId, rank db.vocab.rows r.termId)) db.vocab.rows.length).map fun renumbered =>
      { renumbered with
        remap := some ⟨db.vocab.rows.map fun r => ⟨r.term, r.termId, rank db.vocab.rows r.termId⟩, renumbered.epoch, db.maxId,
          db.sequence⟩ }

/-- Terms registered since a recorded renumbering. -/
def newer (db : Database) (run : Remap) : List VocabRow := db.vocab.rows.filter fun v => ∀ r ∈ run.rows, r.term ≠ v.term

/-- `revert`: the recorded ids are put back, and newer terms take the ids behind the largest of them. -/
def revert (db : Database) : Option Database :=
  match db.remap with
  | none => none
  | some run =>
    if run.epochAfter = db.epoch ∧ ∀ r ∈ run.rows, db.vocab.get? r.term = some ⟨r.term, r.newId⟩ then
      (db.relabel
        (run.rows.map (fun r => (r.newId, r.oldId)) ++
          (db.newer run).map fun v => (v.termId, run.maxIdBefore + (rank (db.newer run) v.termId + 1)))
        (max run.sequenceNextBefore (run.maxIdBefore + 1 + (db.newer run).length))).map fun renumbered =>
          { renumbered with remap := none }
    else none

end Database

/-! ### Processes -/

/-- A chunk to encode: its text's terms, each with its frequency. -/
structure Job where
  chunkId : Uuid
  counts : List (Term × Nat)

def Job.uniq (job : Job) : List Term := (job.counts.map Prod.fst).filter (· ≠ [])

/-- The terms that no row of `ids` has. -/
def missing (uniq : List Term) (ids : List VocabRow) : List Term := uniq.filter fun t => ∀ r ∈ ids, r.term ≠ t

/-- `_document_vector`, with the raw frequencies as weights. -/
def vector (ids : List VocabRow) (counts : List (Term × Nat)) : List (Nat × Nat) :=
  counts.filterMap fun c => (ids.find? fun r => r.term = c.1).map fun r => (r.termId, c.2)

/-- The statement that `get_or_create_term_ids_at_epoch` runs next, with what it has read and the attempts left. -/
inductive Lookup where
  | fence (attempts : Nat)
  | read (attempts : Nat)
  | insert (attempts epoch : Nat) (ids : List VocabRow)
  | reread (attempts epoch : Nat) (ids : List VocabRow)
  | recheck (attempts epoch : Nat) (ids : List VocabRow)

/-- The same for `encode_query_at_epoch`; the statements of `encode_query` come between its two reads of the epoch. -/
inductive Query where
  | fence (attempts : Nat)
  | epoch (attempts : Nat)
  | rawIds (attempts epoch : Nat)
  | innerEpoch (attempts epoch inner : Nat)
  | innerIds (attempts epoch inner innerEpoch : Nat)
  | innerCheck (attempts epoch inner innerEpoch : Nat) (ids : List VocabRow)
  | check (attempts epoch : Nat) (ids : List VocabRow)

inductive Proc where
  | idle
  | document (job : Job) (next : Lookup)
  | query (uniq : List Term) (raw : Bool) (next : Query)
  | encoded (job : Job) (ids : List VocabRow) (epoch : Option Nat)
  | fenced (job : Job) (ids : List VocabRow) (epoch : Nat)
  | checked (job : Job) (ids : List VocabRow) (epoch : Option Nat)
  | renumbering

/-- The database, the holders of the fence, the processes, and what the encoders returned so far. -/
structure System where
  db : Database
  exclusive : Option Nat
  shared : List Nat
  procs : Nat → Proc
  returned : List (List VocabRow × Option Nat)

namespace System

def fresh : System := ⟨⟨.empty, 1, 0, [], .empty, none⟩, none, [], fun _ => .idle, []⟩

def set (s : System) (p : Nat) (proc : Proc) : System := { s with procs := fun q => if q = p then proc else s.procs q }

def returns (s : System) (p : Nat) (proc : Proc) (ids : List VocabRow) (epoch : Option Nat) : System :=
  { s with returned := s.returned ++ [(ids, epoch)] }.set p proc

/-- The end of a transaction, or of a process. -/
def leave (s : System) (p : Nat) : System :=
  { s with exclusive := s.exclusive.filter (· ≠ p), shared := s.shared.filter (· ≠ p) }.set p .idle

/-- `_VOCABULARY_EPOCH_ATTEMPTS - 1` -/
def attempts : Nat := 2

/-- One statement of a document's lookup; the new terms are inserted in the order of the collation. -/
def lookupNext (s : System) (p : Nat) (job : Job) (order : List Term) : Lookup → System
  | .fence n => if s.exclusive.isSome then s.set p .idle else s.set p (.document job (.read n))
  | .read n =>
    if missing job.uniq (s.db.lookup job.uniq) = [] then
      s.returns p (.encoded job (s.db.lookup job.uniq) (some s.db.epoch)) (s.db.lookup job.uniq) (some s.db.epoch)
    else s.set p (.document job (.insert n s.db.epoch (s.db.lookup job.uniq)))
  | .insert n epoch ids =>
    if order.Perm (missing job.uniq ids) then
      { s with db := (s.db.insertTerms order).1 }.set p (.document job (.reread n epoch (ids ++ (s.db.insertTerms order).2)))
    else s
  | .reread n epoch ids => s.set p (.document job (.recheck n epoch (ids ++ s.db.lookup (missing job.uniq ids))))
  | .recheck n epoch ids =>
    if s.db.epoch = epoch then
      if missing job.uniq ids = [] then s.returns p (.encoded job ids (some epoch)) ids (some epoch) else s.set p .idle
    else
      match n with
      | 0 => s.set p .idle
      | n + 1 => s.set p (.document job (.fence n))

/-- One statement of a query's encoding. -/
def queryNext (s : System) (p : Nat) (uniq : List Term) (raw : Bool) : Query → System
  | .fence n => if s.exclusive.isSome then s.set p .idle else s.set p (.query uniq raw (.epoch n))
  | .epoch n =>
    if raw then s.set p (.query uniq raw (.rawIds n s.db.epoch)) else s.set p (.query uniq raw (.innerEpoch n s.db.epoch attempts))
  | .rawIds n epoch => s.set p (.query uniq raw (.check n epoch (s.db.lookup uniq)))
  | .innerEpoch n epoch inner => s.set p (.query uniq raw (.innerIds n epoch inner s.db.epoch))
  | .innerIds n epoch inner innerEpoch =>
    if s.db.lookup uniq = [] then s.set p (.query uniq raw (.check n epoch []))
    else s.set p (.query uniq raw (.innerCheck n epoch inner innerEpoch (s.db.lookup uniq)))
  | .innerCheck n epoch inner innerEpoch ids =>
    if s.db.epoch = innerEpoch then s.set p (.query uniq raw (.check n epoch ids))
    else
      match inner with
      | 0 => s.set p .idle
      | inner + 1 => s.set p (.query uniq raw (.innerEpoch n epoch inner))
  | .check n epoch ids =>
    if s.db.epoch = epoch then s.returns p .idle ids (if ids = [] then none else some epoch)
    else
      match n with
      | 0 => s.set p .idle
      | n + 1 => s.set p (.query uniq raw (.fence n))

/-- The commit of a storing transaction: a chunk that is gone is skipped. -/
def store (s : System) (p : Nat) (job : Job) (ids : List VocabRow) : System :=
  if job.chunkId ∈ s.db.chunks then
    { s with db := { s.db with vectors := s.db.vectors.upsert ⟨job.chunkId, job.counts, vector ids job.counts⟩ } }.leave p
  else s.leave p

end System

inductive Action where
  | startDocument (p : Nat) (job : Job)
  | startQuery (p : Nat) (uniq : List Term) (raw : Bool)
  | advance (p : Nat) (order : List Term)
  | startStore (p : Nat)
  | startRenumber (p : Nat)
  | commitRenumber (p : Nat) (revert : Bool)
  | fail (p : Nat)
  | insertChunk (chunkId : Uuid)
  | deleteChunk (chunkId : Uuid)
  | deleteVector (chunkId : Uuid)

namespace System

/-- A step that is not possible changes nothing: a fence that is held, or a process that is elsewhere. -/
def act (s : System) : Action → System
  | .startDocument p job =>
    match s.procs p with
    | .idle => if job.uniq = [] then s.returns p (.encoded job [] none) [] none else s.set p (.document job (.fence attempts))
    | _ => s
  | .startQuery p uniq raw =>
    match s.procs p with
    | .idle => s.set p (.query uniq raw (.fence attempts))
    | _ => s
  | .advance p order =>
    match s.procs p with
    | .document job next => s.lookupNext p job order next
    | .query uniq raw next => s.queryNext p uniq raw next
    | .fenced job ids epoch => if s.db.epoch = epoch then s.set p (.checked job ids (some epoch)) else s.leave p
    | .checked job ids _ => s.store p job ids
    | _ => s
  | .startStore p =>
    match s.procs p with
    | .encoded job ids none => s.set p (.checked job ids none)
    | .encoded job ids (some epoch) =>
      if s.exclusive.isSome then s.set p .idle else { s with shared := p :: s.shared }.set p (.fenced job ids epoch)
    | _ => s
  | .startRenumber p =>
    match s.procs p with
    | .idle => if s.exclusive = none ∧ s.shared = [] then { s with exclusive := some p }.set p .renumbering else s
    | _ => s
  | .commitRenumber p revert =>
    match s.procs p with
    | .renumbering => { s with db := (if revert then s.db.revert else s.db.apply).getD s.db }.leave p
    | _ => s
  | .fail p => s.leave p
  | .insertChunk chunkId => { s with db := { s.db with chunks := chunkId :: s.db.chunks } }
  | .deleteChunk chunkId => { s with db := { s.db with chunks := s.db.chunks.filter (· ≠ chunkId) } }
  | .deleteVector chunkId => { s with db := { s.db with vectors := s.db.vectors.deleteWhere fun v => v.chunkId = chunkId } }

end System

/-- Where a history leads from a new installation. -/
def after (actions : List Action) : System := actions.foldl System.act .fresh

/-! ### One numbering -/

/-- The ids are those of the vocabulary at some moment of the history when it had the epoch. -/
def Named (actions : List Action) (ids : List VocabRow) : Option Nat → Prop
  | none => ids = []
  | some epoch => ∃ past, past <+: actions ∧ (after past).db.epoch = epoch ∧ ∀ r ∈ ids, r ∈ (after past).db.vocab

/-- A vector holds what its text is encoded to under the vocabulary. -/
def Valid (db : Database) (v : Stored) : Prop := v.entries = vector db.vocab.rows v.counts

end Akb.Bm25.Vocabulary
