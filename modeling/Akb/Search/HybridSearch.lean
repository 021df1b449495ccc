import Akb.Library.PyText
import Akb.Search.ExactPostings
import Mathlib.Tactic.Positivity

/-! The search by two legs at once: what it returns for what each of its reads came to. -/
namespace Akb.Search.Hybrid
open Posting (Uuid Chunk FilterCol Admitted)

abbrev Text := List Char

variable {ε : Type}

/-! ### Requests and outcomes -/

structure Request where
  queryDense : Option (List ℚ)
  querySparseIndices : List Int
  sourceIds : Option (List Uuid)
  vaultIds : Option (List Uuid)
  sourceTypes : Option (List Text)
  limit : Nat
  prefetchPerLeg : Nat

/-- A row of `chunks`, with what the payload read selects. -/
structure Row extends Chunk where
  sectionPath : Option Text
  content : Text

structure Hit where
  chunkId : Uuid
  sourceType : Text
  sourceId : Uuid
  sectionPath : Text
  content : Text
  score : ℚ

/-- How a read ended; `unavailable` is what `_leg_unavailable` says of an error that is no timeout. -/
inductive Outcome (α ε : Type) where
  | complete (value : α)
  | timeout
  | unavailable
  | error (e : ε)

/-- How the reads of a request end, and which chunks remain for the last. With an error in both legs either may be raised. -/
structure Outcomes (ε : Type) where
  pool : Outcome Unit ε
  dense : Outcome (List Uuid) ε
  sparse : Outcome (List Uuid) ε
  denseFirst : Bool
  payload : List Uuid → Outcome (List Row) ε
  remains : Uuid → Bool

inductive SearchError (ε : Type) where
  | assertion
  | unknownSourceTypes (unknown : List Text)
  | raised (e : ε)

inductive Result (ε : Type) where
  | hits (hits : List Hit)
  | degraded (hits : List Hit) (reason : String)
  | error (e : SearchError ε)

/-! ### Filters -/

/-- `SOURCE_TYPES` -/
def allSourceTypes : List Text :=
  ["document".toList, "native_document".toList, "native_file".toList, "table".toList, "file".toList]

namespace Request

def hasDense (r : Request) : Bool := r.queryDense.getD [] ≠ []

def hasSparse (r : Request) : Bool := r.querySparseIndices ≠ []

/-- The column of the filter by vaults or sources, and its values. -/
def aclFilter (r : Request) : Option (List Uuid) × FilterCol :=
  if r.vaultIds.getD [] ≠ [] then (r.vaultIds, .vaultId)
  else if r.sourceIds.getD [] ≠ [] then (r.sourceIds, .sourceId)
  else (none, .sourceId)

/-- What the query of a leg asks of a chunk: a list that is empty adds no predicate. -/
def LegAdmits (r : Request) (c : Chunk) : Prop :=
  Admitted (r.aclFilter.1.filter (· ≠ [])) r.aclFilter.2 (r.sourceTypes.filter (· ≠ [])) c

/-- The filters as they are given. -/
def Admits (r : Request) (c : Chunk) : Prop :=
  (∀ l ∈ r.sourceIds, c.sourceId ∈ l) ∧ (∀ l ∈ r.vaultIds, ∃ v ∈ l, c.vaultId = some v) ∧ ∀ l ∈ r.sourceTypes, c.sourceType ∈ l

def unknownTypes (r : Request) : List Text := (r.sourceTypes.getD []).filter fun t => t ∉ allSourceTypes

end Request

/-! ### Fusion -/

def rrfK : Nat := 60

/-- `scores[chunk_id] = scores.get(chunk_id, 0.0) + x` -/
def bump : List (Uuid × ℚ) → Uuid → ℚ → List (Uuid × ℚ)
  | [], id, x => [(id, 0 + x)]
  | e :: scores, id, x => if e.1 = id then (e.1, e.2 + x) :: scores else e :: bump scores id x

/-- The ranks of a list, from `k` on. -/
def addRanks (scores : List (Uuid × ℚ)) (k : Nat) (ranked : List Uuid) : List (Uuid × ℚ) :=
  (ranked.zipIdx k).foldl (fun scores e => bump scores e.1 (1 / ((rrfK + e.2 : Nat) : ℚ))) scores

/-- `_rrf`. -/
def rrf (rankedLists : List (List Uuid)) : List (Uuid × ℚ) := rankedLists.foldl (fun scores ranked => addRanks scores 1 ranked) []

/-- `sorted(fused.items(), key=lambda kv: kv[1], reverse=True)` -/
def sortedByScore (scores : List (Uuid × ℚ)) : List (Uuid × ℚ) := scores.insertionSort fun a b => b.2 ≤ a.2

/-- The scores of a single leg. -/
def placed (ids : List Uuid) : List (Uuid × ℚ) := (ids.zipIdx 1).map fun e => (e.1, 1 / ((rrfK + e.2 : Nat) : ℚ))

/-! ### The search -/

inductive Status where
  | skipped
  | complete
  | timeout
  | unavailable
  deriving DecidableEq

def Outcome.status {α : Type} : Outcome α ε → Status
  | .complete _ => .complete
  | .timeout => .timeout
  | .unavailable => .unavailable
  | .error _ => .skipped

def Outcome.ids : Outcome (List Uuid) ε → List Uuid
  | .complete ids => ids
  | _ => []

def Outcome.raised? {α : Type} : Outcome α ε → Option ε
  | .error e => some e
  | _ => none

/-- `degradation_reason`. -/
def degradationReason (dense sparse : Status) : Option String :=
  if dense = .unavailable ∨ sparse = .unavailable then
    if dense ≠ .complete ∧ sparse ≠ .complete then some "retrieval_unavailable"
    else some ((if dense = .unavailable then "dense" else "sparse") ++ "_leg_failed")
  else if dense = .timeout ∧ sparse = .timeout then some "retrieval_timeout"
  else if dense = .timeout then some "dense_leg_timeout"
  else if sparse = .timeout then some "sparse_leg_timeout"
  else none

/-- `_row_to_hit`. -/
def rowToHit (row : Row) (score : ℚ) : Hit where
  chunkId := row.chunkId
  sourceType := if row.sourceType = [] then "document".toList else row.sourceType
  sourceId := row.sourceId
  sectionPath := row.sectionPath.getD []
  content := row.content
  score := score

/-- The rows of `by_id`, the last of each id. -/
def byId (rows : List Row) (id : Uuid) : Option Row := rows.reverse.find? fun row => row.chunkId = id

/-- The legs that are asked, with what came of them. -/
structure Legs (ε : Type) where
  dense : Option (Outcome (List Uuid) ε)
  sparse : Option (Outcome (List Uuid) ε)

def Request.legs (r : Request) (o : Outcomes ε) : Legs ε where
  dense := if r.hasDense then some o.dense else none
  sparse := if r.hasSparse then some o.sparse else none

namespace Legs

def status (leg : Option (Outcome (List Uuid) ε)) : Status := (leg.map Outcome.status).getD .skipped

def ids (leg : Option (Outcome (List Uuid) ε)) : List Uuid := (leg.map Outcome.ids).getD []

def scoring (l : Legs ε) (limit : Nat) : List (Uuid × ℚ) :=
  if status l.dense = .complete ∧ status l.sparse ≠ .complete then placed ((ids l.dense).take limit)
  else if status l.sparse = .complete ∧ status l.dense ≠ .complete then placed ((ids l.sparse).take limit)
  else (sortedByScore (rrf [ids l.dense, ids l.sparse])).take limit

def raised? (l : Legs ε) (denseFirst : Bool) : Option ε :=
  let dense := l.dense.bind Outcome.raised?
  let sparse := l.sparse.bind Outcome.raised?
  if denseFirst then dense.or sparse else sparse.or dense

end Legs

/-- The read of the payloads, which is not made for no id. -/
def payloadOf (o : Outcomes ε) (topIds : List Uuid) : Outcome (List Row) ε := if topIds = [] then .complete [] else o.payload topIds

/-- What is returned once the legs have ended. -/
def finish (o : Outcomes ε) (l : Legs ε) (limit : Nat) : Result ε :=
  match payloadOf o ((l.scoring limit).map Prod.fst) with
  | .timeout => .degraded [] "retrieval_timeout"
  | .unavailable => .degraded [] "retrieval_unavailable"
  | .error e => .error (.raised e)
  | .complete rows =>
    let hits := (l.scoring limit).filterMap fun e => (byId rows e.1).map fun row => rowToHit row e.2
    match degradationReason (Legs.status l.dense) (Legs.status l.sparse) with
    | some reason => .degraded hits reason
    | none => .hits hits

/-- `hybrid_search`. -/
def hybridSearch (r : Request) (o : Outcomes ε) : Result ε :=
  if r.sourceIds = some [] ∨ r.vaultIds = some [] then .hits []
  else if ¬ r.hasDense ∧ ¬ r.hasSparse then .hits []
  else if r.vaultIds.getD [] ≠ [] ∧ r.sourceIds.getD [] ≠ [] then .error .assertion
  else if r.unknownTypes ≠ [] then .error (.unknownSourceTypes r.unknownTypes)
  else
    match o.pool with
    | .timeout => .degraded [] "retrieval_timeout"
    | .unavailable => .degraded [] "retrieval_unavailable"
    | .error e => .error (.raised e)
    | .complete _ =>
      match (r.legs o).raised? o.denseFirst with
      | some e => .error (.raised e)
      | none => finish o (r.legs o) r.limit

/-! ### What the search is to be -/

/-- The chunks of the store. -/
structure Store where
  rows : List Row
  row_key : (rows.map fun row => row.chunkId).Nodup

/-- A leg returns so many distinct chunks that meet its predicates, a payload read the rows that remain. -/
structure Lawful (store : Store) (r : Request) (o : Outcomes ε) : Prop where
  leg : ∀ ids, o.dense = .complete ids ∨ o.sparse = .complete ids →
    ids.Nodup ∧ ids.length ≤ r.prefetchPerLeg ∧ ∀ id ∈ ids, ∃ row ∈ store.rows, row.chunkId = id ∧ r.LegAdmits row.toChunk
  payload : ∀ ids rows, o.payload ids = .complete rows →
    rows.Perm (store.rows.filter fun row => row.chunkId ∈ ids ∧ o.remains row.chunkId)

/-- The reciprocal of the rank of an id, from `k` on, and 0 where it does not stand. -/
def reciprocalRank (k : Nat) : List Uuid → Uuid → ℚ
  | [], _ => 0
  | i :: ranked, id => if i = id then 1 / ((rrfK + k : Nat) : ℚ) else reciprocalRank (k + 1) ranked id

/-- The reciprocal-rank fusion of two lists, the best first. -/
def fusion (dense sparse : List Uuid) : List (Uuid × ℚ) :=
  sortedByScore ((dense ++ sparse.filter (· ∉ dense)).map fun id => (id, reciprocalRank 1 dense id + reciprocalRank 1 sparse id))

/-- The legs are run. -/
def Request.Runs (r : Request) : Prop := r.sourceIds ≠ some [] ∧ r.vaultIds ≠ some [] ∧ (r.hasDense ∨ r.hasSparse)

/-- Each read that the request needs has completed, and the hits are the first of the fusion that remain. -/
structure Complete (store : Store) (r : Request) (o : Outcomes ε) (hits : List Hit) : Prop where
  dense : r.Runs → r.hasDense → ∃ ids, o.dense = .complete ids
  sparse : r.Runs → r.hasSparse → ∃ ids, o.sparse = .complete ids
  payload : r.Runs → ∃ rows, payloadOf o (((fusion (Legs.ids (r.legs o).dense) (Legs.ids (r.legs o).sparse)).take r.limit).map
    Prod.fst) = .complete rows
  fused : r.Runs → hits.map (fun h => (h.chunkId, h.score)) =
    ((fusion (Legs.ids (r.legs o).dense) (Legs.ids (r.legs o).sparse)).take r.limit).filter fun e => o.remains e.1
  empty : ¬ r.Runs → hits = []
  ordered : (hits.map Hit.score).Pairwise (· ≥ ·)
  distinct : (hits.map Hit.chunkId).Nodup

def Outcome.Failed {α : Type} (x : Outcome α ε) : Prop := x = .timeout ∨ x = .unavailable

/-- No leg that was run raised another error, a read timed out or was unavailable, and the hits are of the legs that completed. -/
structure Degraded (r : Request) (o : Outcomes ε) (hits : List Hit) : Prop where
  no_error : (∃ u, o.pool = .complete u) → ∀ e, (r.hasDense → o.dense ≠ .error e) ∧ (r.hasSparse → o.sparse ≠ .error e)
  failed : o.pool.Failed ∨ (r.hasDense ∧ o.dense.Failed) ∨ (r.hasSparse ∧ o.sparse.Failed) ∨ ∃ ids, (o.payload ids).Failed
  completed : ∀ h ∈ hits, ∃ ids, h.chunkId ∈ ids ∧ ((r.hasDense ∧ o.dense = .complete ids) ∨ (r.hasSparse ∧ o.sparse = .complete ids))

/-- Where an error of the search comes from. -/
inductive Cause (r : Request) (o : Outcomes ε) : SearchError ε → Prop where
  | bothFilters (hv : r.vaultIds.getD [] ≠ []) (hs : r.sourceIds.getD [] ≠ []) : Cause r o .assertion
  | unknownTypes (h : r.unknownTypes ≠ []) : Cause r o (.unknownSourceTypes r.unknownTypes)
  | pool (e : ε) (h : o.pool = .error e) : Cause r o (.raised e)
  | dense (e : ε) (hd : r.hasDense) (h : o.dense = .error e) : Cause r o (.raised e)
  | sparse (e : ε) (hs : r.hasSparse) (h : o.sparse = .error e) : Cause r o (.raised e)
  | payload (e : ε) (ids : List Uuid) (h : o.payload ids = .error e) : Cause r o (.raised e)

/-- Each hit is a chunk that meets the filters. -/
def AllAdmitted (store : Store) (r : Request) (hits : List Hit) : Prop :=
  ∀ h ∈ hits, ∃ row ∈ store.rows, row.chunkId = h.chunkId ∧ r.Admits row.toChunk

/-- The result says what it covers. -/
def Honest (store : Store) (r : Request) (o : Outcomes ε) : Prop :=
  match hybridSearch r o with
  | .hits hits => Complete store r o hits ∧ AllAdmitted store r hits
  | .degraded hits _ => Degraded r o hits ∧ AllAdmitted store r hits
  | .error e => Cause r o e

/-- Nothing can be returned for want of a chunk, of room or of a leg. -/
def Barren (store : Store) (r : Request) : Prop :=
  ¬ r.Runs ∨ (r.vaultIds.getD [] ≠ [] ∧ r.sourceIds.getD [] ≠ []) ∨ r.limit = 0 ∨ r.prefetchPerLeg = 0 ∨
    ∀ row ∈ store.rows, ¬ r.LegAdmits row.toChunk

end Akb.Search.Hybrid
