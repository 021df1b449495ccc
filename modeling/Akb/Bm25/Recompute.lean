import Akb.Library.Table
import Akb.Library.KeysetPages
import Akb.Native.Ledger
import Mathlib.Algebra.Order.Ring.Rat

/-! The rebuild of the BM25 statistics: a scan of the chunks in batches, whose progress is kept in
`bm25_recompute_run` and `bm25_recompute_terms`, and a publication at its end. -/
namespace Akb.Bm25
open Akb.Library

abbrev Uuid := Native.Uuid

abbrev Term := String

/-- Name and version. -/
structure Tokenizer where
  name : String
  version : String
  deriving DecidableEq

/-- What the tokenizers make of a non-empty text. -/
abbrev Tokenize := Tokenizer → String → List Term

structure Chunk where
  id : Uuid
  content : Option String

structure VocabRow where
  term : Term
  termId : Nat
  df : Nat

/-- The row of `bm25_recompute_run`. -/
structure RunRow where
  tokenizer : Tokenizer
  sourceRevision : Nat
  cursorChunkId : Option Uuid
  totalDocs : Nat
  totalLength : Nat
  sourceChunkCount : Nat
  resumed : Nat

/-- The row of `bm25_stats`; the average is rounded to a float when it is stored. -/
structure StatsRow where
  totalDocs : Nat
  avgdl : ℚ
  tokenizer : Tokenizer
  sourceRevision : Nat
  sourceChunkCount : Nat

structure Database where
  chunks : Table Chunk Chunk.id
  corpusRevision : Nat
  run : Option RunRow
  terms : Counts Term
  vocab : Table VocabRow VocabRow.term
  nextTermId : Nat
  stats : Option StatsRow

/-- The variables of the process that holds the advisory lock. -/
structure Worker where
  tokenizer : Tokenizer
  sourceRevision : Nat
  sourceChunkCount : Nat
  totalDocs : Nat
  totalLength : Nat
  lastId : Option Uuid

structure Recompute where
  db : Database
  holder : Option Worker

def tokenizeUncached (tokenize : Tokenize) (t : Tokenizer) (text : String) : List Term :=
  if text = "" then [] else tokenize t text

/-- The tokens of a chunk; `row["content"] or ""`. -/
def tokensOf (tokenize : Tokenize) (t : Tokenizer) (c : Chunk) : List Term :=
  tokenizeUncached tokenize t (c.content.getD "")

/-- `WHERE content IS NOT NULL`. -/
def Database.source (db : Database) : List Chunk := db.chunks.rows.filter (fun c => c.content.isSome)

/-- `_open_run`: go on with the run of the same tokenizer, or start one. -/
def openRun (db : Database) (t : Tokenizer) : Database × RunRow :=
  match db.run.filter (fun row => row.tokenizer = t) with
  | some row =>
    let resumed := { row with resumed := row.resumed + 1 }
    ({ db with run := some resumed }, resumed)
  | none =>
    let fresh : RunRow := ⟨t, db.corpusRevision, none, 0, 0, 0, 0⟩
    ({ db with run := some fresh, terms := .empty }, fresh)

def workerOf (row : RunRow) : Worker :=
  ⟨row.tokenizer, row.sourceRevision, row.sourceChunkCount, row.totalDocs, row.totalLength, row.cursorChunkId⟩

def fetchBatch (db : Database) (lastId : Option Uuid) (batchSize : Nat) : List Chunk :=
  batchBehind (fun c : Chunk => c.id.toNat) db.source (lastId.map BitVec.toNat) batchSize

/-- The loop over the rows of a batch: the variables, and the terms of the batch. -/
def countRows (tokenize : Tokenize) (w : Worker) (batchDf : Counts Term) : List Chunk → Worker × Counts Term
  | [] => (w, batchDf)
  | c :: rows =>
    let toks := tokensOf tokenize w.tokenizer c
    let seen := { w with lastId := some c.id, sourceChunkCount := w.sourceChunkCount + 1 }
    if toks = [] then countRows tokenize seen batchDf rows
    else
      countRows tokenize
        { seen with totalDocs := w.totalDocs + 1, totalLength := w.totalLength + toks.length }
        (toks.dedup.foldl (fun counts term => counts.add term 1) batchDf) rows

/-- The transaction of one batch. -/
def commitBatch (db : Database) (w : Worker) (batchDf : Counts Term) : Database := { db with
  terms := db.terms.addAll batchDf.rows
  run := db.run.map (fun row => { row with
    cursorChunkId := w.lastId
    totalDocs := w.totalDocs
    totalLength := w.totalLength
    sourceChunkCount := w.sourceChunkCount }) }

/-- A row for a term that has none, under the next id. -/
def registerTerm (db : Database) (term : Term) : Database :=
  match db.vocab.insert? ⟨term, db.nextTermId, 0⟩ with
  | some vocab => { db with vocab, nextTermId := db.nextTermId + 1 }
  | none => db

/-- Both updates of `bm25_vocab`: every frequency to zero, then the counted ones. -/
def publishDf (terms : Counts Term) (vocab : Table VocabRow VocabRow.term) : Table VocabRow VocabRow.term :=
  (vocab.updateWhere (fun _ => true) (fun v => { v with df := 0 }) fun _ => rfl).updateWhere
    (fun v => (terms.get? v.term).isSome) (fun v => { v with df := terms.count v.term }) fun _ => rfl

def avgdl (totalLength totalDocs : Nat) : ℚ := if totalDocs = 0 then 0 else totalLength / totalDocs

/-- The publishing transaction. -/
def publish (db : Database) (w : Worker) : Database :=
  let missing := (db.terms.rows.map Prod.fst).filter (fun term => (db.vocab.get? term).isNone)
  let registered := (missing.insertionSort (· ≤ ·)).foldl registerTerm db
  { registered with
    vocab := publishDf db.terms registered.vocab
    stats := some ⟨w.totalDocs, avgdl w.totalLength w.totalDocs, w.tokenizer, w.sourceRevision, w.sourceChunkCount⟩
    run := none
    terms := .empty }

inductive RecomputeAction where
  /-- A process takes the lock and opens the run. -/
  | start (t : Tokenizer)
  /-- One turn of the loop: a batch, or the publication when no chunk is left. A batch has a row at least. -/
  | advance (batchSize : Nat)
  /-- The process stops and its lock with it; what it has committed stays. -/
  | crash
  /-- An encoder gives a term its id. -/
  | register (term : Term)

def Recompute.next (tokenize : Tokenize) (s : Recompute) : RecomputeAction → Option Recompute
  | .start t =>
    match s.holder with
    | some _ => none
    | none => some ⟨(openRun s.db t).1, some (workerOf (openRun s.db t).2)⟩
  | .advance batchSize =>
    match s.holder, batchSize with
    | none, _ => none
    | some _, 0 => none
    | some w, n + 1 =>
      match fetchBatch s.db w.lastId (n + 1) with
      | [] => some ⟨publish s.db w, none⟩
      | c :: rows =>
        let (w', batchDf) := countRows tokenize w .empty (c :: rows)
        some ⟨commitBatch s.db w' batchDf, some w'⟩
  | .crash => some { s with holder := none }
  | .register term => some { s with db := registerTerm s.db term }

def Recompute.step (tokenize : Tokenize) (s : Recompute) (a : RecomputeAction) (t : Recompute) : Prop :=
  s.next tokenize a = some t

end Akb.Bm25
