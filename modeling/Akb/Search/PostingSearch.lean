import Akb.Library.PyReplace
import Mathlib.Algebra.BigOperators.Group.List.Basic
import Mathlib.Algebra.Order.Field.Rat
import Mathlib.Data.List.Sort

/-! The search over posting rows: one of three joins, which the planner's statistics choose. -/
namespace Akb.Search.Posting
open Akb.Library

abbrev Text := List Char
abbrev Uuid := Nat

/-! ### Tables -/

structure Chunk where
  chunkId : Uuid
  sourceType : Text
  sourceId : Uuid
  vaultId : Option Uuid

structure PostingRow where
  termId : Int
  chunkId : Uuid
  weight : ℚ

/-- The tables `chunks` and `posting`, with their keys. -/
structure Tables where
  chunks : List Chunk
  posting : List PostingRow
  chunk_key : (chunks.map Chunk.chunkId).Nodup
  posting_key : (posting.map fun p => (p.termId, p.chunkId)).Nodup
  chunk_exists : ∀ p ∈ posting, ∃ c ∈ chunks, c.chunkId = p.chunkId

structure Query where
  terms : List Int
  weights : List ℚ
  same_length : terms.length = weights.length

inductive FilterCol where
  | sourceId
  | vaultId
  deriving DecidableEq

def FilterCol.name : FilterCol → Text
  | sourceId => "source_id".toList
  | vaultId => "vault_id".toList

def FilterCol.value (c : Chunk) : FilterCol → Option Uuid
  | sourceId => some c.sourceId
  | vaultId => c.vaultId

/-! ### The choice of a strategy -/

inductive ScopeStrategy where
  | term
  | scope
  | point
  deriving DecidableEq

def maxPointChunks : Nat := 10000
def maxPointProbes : Nat := 100000

/-- `choose_scope_strategy`. -/
def chooseScopeStrategy (scopeRows postingRows : Option ℚ) (termCount : Nat) (totalChunks : ℚ) : ScopeStrategy :=
  match scopeRows, postingRows with
  | some scopeRows, some postingRows =>
    if termCount < 1 ∨ ¬ (0 < scopeRows ∧ 0 < postingRows ∧ 0 < totalChunks) then .term
    else if scopeRows ≤ maxPointChunks ∧ scopeRows * termCount ≤ maxPointProbes ∧ scopeRows * termCount * 4 ≤ postingRows then
      .point
    else if scopeRows < totalChunks * (8 / 10) ∧ scopeRows * 2 ≤ postingRows then .scope
    else .term
  | _, _ => .term

/-- A row of the statistics: a column of `pg_stats` with the rows of its table. -/
structure ColumnStats (α : Type) where
  total : ℚ
  nDistinct : ℚ
  mcv : List α
  freqs : List ℚ

/-- `dict(pairs)`: the last value of each key. -/
def dict {α : Type} [DecidableEq α] : List (α × ℚ) → List (α × ℚ)
  | [] => []
  | e :: pairs => if pairs.any (fun x => x.1 = e.1) then dict pairs else e :: dict pairs

/-- `_estimated_matches`. -/
def estimatedMatches {α : Type} [DecidableEq α] (row : ColumnStats α) (values : List α) : Option ℚ :=
  if row.total ≤ 0 ∨ row.nDistinct = 0 then none
  else
    let distinct := if row.nDistinct < 0 then -row.nDistinct * row.total else row.nDistinct
    let common := dict (row.mcv.zip row.freqs)
    let otherFrequency := max 0 (1 - (common.map Prod.snd).sum) / max 1 (distinct - common.length)
    some (min row.total (row.total * (values.dedup.map fun v =>
      ((common.find? fun e => e.1 = v).map Prod.snd).getD otherFrequency).sum))

/-- What the statistics hold, for each column that a filter can be on. -/
structure Statistics where
  chunks : FilterCol → Option (ColumnStats Uuid)
  posting : Option (ColumnStats Int)

/-- `estimate_scope_strategy`. -/
def estimateScopeStrategy (stats : Statistics) (filterCol : FilterCol) (filterUuids : List Uuid) (terms : List Int) :
    ScopeStrategy :=
  match stats.chunks filterCol, stats.posting with
  | some chunks, some posting =>
    chooseScopeStrategy (estimatedMatches chunks filterUuids) (estimatedMatches posting terms) terms.length chunks.total
  | _, _ => .term

/-! ### Statements -/

inductive Param where
  | ints (values : List Int)
  | reals (values : List ℚ)
  | uuids (values : List Uuid)
  | texts (values : List Text)
  | int (value : Nat)

def digits (n : Nat) : Text := Nat.toDigits 10 n

/-- `c.<column> = ANY($<index>::<type>[])` -/
structure Predicate where
  column : Text
  index : Nat
  type : Text
  deriving DecidableEq

def Predicate.text (p : Predicate) : Text :=
  "c.".toList ++ p.column ++ " = ANY($".toList ++ digits p.index ++ "::".toList ++ p.type ++ "[])".toList

def whereText (predicates : List Predicate) : Text :=
  if predicates = [] then [] else " WHERE ".toList ++ " AND ".toList.intercalate (predicates.map Predicate.text)

/-- A statement's parameters, what it asks of `c`, and the strategy that is meant for it. -/
structure Clauses where
  params : List Param
  predicates : List Predicate
  strategy : ScopeStrategy

/-- One more filter, on the parameter that it adds. -/
def Clauses.filter (s : Clauses) (column : Text) (value : Param) (type : Text) : Clauses :=
  { s with
    params := s.params ++ [value]
    predicates := s.predicates ++ [⟨column, s.params.length + 1, type⟩] }

def clauses (stats : Statistics) (q : Query) (filterUuids : Option (List Uuid)) (filterCol : FilterCol)
    (sourceTypeValues : Option (List Text)) : Clauses :=
  let plain : Clauses := ⟨[.ints q.terms, .reals q.weights], [], .term⟩
  let acl : Clauses := if filterUuids.getD [] = [] then plain else
    { plain.filter filterCol.name (.uuids (filterUuids.getD [])) "uuid".toList with
      strategy := estimateScopeStrategy stats filterCol (filterUuids.getD []) q.terms }
  if sourceTypeValues.getD [] = [] then acl
  else acl.filter "source_type".toList (.texts (sourceTypeValues.getD [])) "text".toList

/-- The parameters of the count in place of those of the search. -/
def scopeWhere (text : Text) (params : Nat) : Text :=
  (List.range' 3 (params - 2)).foldl (fun text index =>
    PyReplace.replaceAll ("$".toList ++ digits index ++ "::".toList) ("$".toList ++ digits (index - 2) ++ "::".toList) text) text

/-! ### What the database makes of a statement -/

/-- A predicate as it stands in a statement. -/
def readPredicate (text : Text) : Option Predicate := do
  let (before, column) ← PyReplace.partition "c.".toList text
  let (column, value) ← PyReplace.partition " = ANY($".toList column
  let (index, type) ← PyReplace.partition "::".toList value
  let (type, behind) ← PyReplace.partition "[])".toList type
  if before = [] ∧ behind = [] ∧ index.all Char.isDigit then
    some ⟨column, index.foldl (fun n d => 10 * n + (d.toNat - '0'.toNat)) 0, type⟩
  else none

def readWhere (text : Text) : Option (List Predicate) :=
  if text = [] then some []
  else if " WHERE ".toList <+: text then
    (PyReplace.split " AND ".toList (text.drop 7)).mapM readPredicate
  else none

/-- What a predicate says of a chunk, if its parameter is of its type. -/
def Predicate.test (params : List Param) (p : Predicate) : Option (Chunk → Bool) :=
  match params[p.index - 1]? with
  | some (.uuids values) =>
    if p.type ≠ "uuid".toList then none
    else if p.column = FilterCol.sourceId.name then some fun c => values.any fun u => FilterCol.sourceId.value c = some u
    else if p.column = FilterCol.vaultId.name then some fun c => values.any fun u => FilterCol.vaultId.value c = some u
    else none
  | some (.texts values) =>
    if p.type = "text".toList ∧ p.column = "source_type".toList then some fun c => values.contains c.sourceType else none
  | _ => none

/-- `FROM chunks c WHERE ...`; `none` is an error of the database. -/
def selected (tables : Tables) (text : Text) (params : List Param) : Option (List Chunk) := do
  let predicates ← readWhere text
  let tests ← predicates.mapM (Predicate.test params)
  some (tables.chunks.filter fun c => tests.all (· c))

/-- `WITH q AS (SELECT unnest($1::bigint[]) AS tid, unnest($2::real[]) AS w)`, of two lists of one length. -/
def queryTerms : List Param → Option (List (Int × ℚ))
  | .ints terms :: .reals weights :: _ => some (terms.zip weights)
  | _ => none

/-- `FROM posting p JOIN q ON q.tid=p.term_id`, with a weight for each row. -/
def termRows (tables : Tables) (q : List (Int × ℚ)) : List (Uuid × ℚ) :=
  tables.posting.flatMap fun p => (q.filter fun t => t.1 = p.termId).map fun t => (p.chunkId, t.2 * p.weight)

/-- `... JOIN chunks c ON c.chunk_id=p.chunk_id WHERE ...` -/
def termRowsIn (tables : Tables) (q : List (Int × ℚ)) (chunks : List Chunk) : List (Uuid × ℚ) :=
  tables.posting.flatMap fun p => (q.filter fun t => t.1 = p.termId).flatMap fun t =>
    (chunks.filter fun c => c.chunkId = p.chunkId).map fun _ => (p.chunkId, t.2 * p.weight)

/-- `FROM selected c CROSS JOIN q CROSS JOIN LATERAL (SELECT p.weight FROM posting p WHERE ...) p` -/
def pointRows (tables : Tables) (q : List (Int × ℚ)) (chunks : List Chunk) : List (Uuid × ℚ) :=
  chunks.flatMap fun c => q.flatMap fun t =>
    (tables.posting.filter fun p => p.termId = t.1 && p.chunkId = c.chunkId).map fun p => (c.chunkId, t.2 * p.weight)

/-- `FROM selected c JOIN posting p ON p.chunk_id=c.chunk_id JOIN q ON q.tid=p.term_id` -/
def scopeRows (tables : Tables) (q : List (Int × ℚ)) (chunks : List Chunk) : List (Uuid × ℚ) :=
  chunks.flatMap fun c => (tables.posting.filter fun p => p.chunkId = c.chunkId).flatMap fun p =>
    (q.filter fun t => t.1 = p.termId).map fun t => (c.chunkId, t.2 * p.weight)

/-- `SUM(...)` of a group -/
def score (rows : List (Uuid × ℚ)) (id : Uuid) : ℚ := ((rows.filter fun r => r.1 = id).map Prod.snd).sum

/-- `ORDER BY score DESC, chunk_id` -/
def Ahead (score : Uuid → ℚ) (a b : Uuid) : Prop := score b < score a ∨ score a = score b ∧ a ≤ b

instance (score : Uuid → ℚ) : DecidableRel (Ahead score) := fun _ _ => inferInstanceAs (Decidable (_ ∨ _))

/-- `GROUP BY chunk_id ORDER BY score DESC, chunk_id LIMIT ...` -/
def ranked (rows : List (Uuid × ℚ)) (limit : Nat) : List Uuid :=
  ((rows.map Prod.fst).dedup.insertionSort (Ahead (score rows))).take limit

def joined (tables : Tables) (strategy : ScopeStrategy) (text : Text) (params : List Param) : Option (List (Uuid × ℚ)) := do
  let q ← queryTerms params
  match strategy with
  | .point => some (pointRows tables q (← selected tables text params))
  | .scope => some (scopeRows tables q (← selected tables text params))
  | .term => if text = [] then some (termRows tables q) else some (termRowsIn tables q (← selected tables text params))

/-- The point strategy only for a scope that is small when it is counted. -/
def confirmStrategy (tables : Tables) (s : Clauses) (termCount : Nat) : Option ScopeStrategy :=
  if s.strategy = .point then do
    let inScope ← selected tables (scopeWhere (whereText s.predicates) s.params.length) (s.params.drop 2)
    let actual := min (maxPointChunks + 1) inScope.length
    some (if maxPointChunks < actual ∨ maxPointProbes < actual * termCount then .term else .point)
  else some s.strategy

/-- `_search_posting`. -/
def searchPosting (stats : Statistics) (tables : Tables) (q : Query) (filterUuids : Option (List Uuid)) (filterCol : FilterCol)
    (sourceTypeValues : Option (List Text)) (limit : Nat) : Option (List Uuid) := do
  let s := clauses stats q filterUuids filterCol sourceTypeValues
  let strategy ← confirmStrategy tables s q.terms.length
  let rows ← joined tables strategy (whereText s.predicates) (s.params ++ [.int limit])
  some (ranked rows limit)

/-! ### What is searched for -/

/-- The chunk passes the filters that are given. -/
def Admitted (filterUuids : Option (List Uuid)) (filterCol : FilterCol) (sourceTypeValues : Option (List Text)) (c : Chunk) : Prop :=
  (∀ l ∈ filterUuids, ∃ u ∈ l, filterCol.value c = some u) ∧ ∀ l ∈ sourceTypeValues, c.sourceType ∈ l

instance (filterUuids : Option (List Uuid)) (filterCol : FilterCol) (sourceTypeValues : Option (List Text)) (c : Chunk) :
    Decidable (Admitted filterUuids filterCol sourceTypeValues c) := inferInstanceAs (Decidable (_ ∧ _))

/-- The weight of a term in a chunk, if the chunk holds the term. -/
def Tables.weight (tables : Tables) (term : Int) (id : Uuid) : Option ℚ :=
  (tables.posting.find? fun p => p.termId = term ∧ p.chunkId = id).map PostingRow.weight

/-- The sum of query weight times posting weight. -/
def total (tables : Tables) (q : Query) (id : Uuid) : ℚ :=
  ((q.terms.zip q.weights).map fun t => t.2 * (tables.weight t.1 id).getD 0).sum

/-- The first of the admitted chunks that hold a term, the heaviest first and then by chunk id. -/
def heaviest (tables : Tables) (q : Query) (filterUuids : Option (List Uuid)) (filterCol : FilterCol)
    (sourceTypeValues : Option (List Text)) (limit : Nat) : List Uuid :=
  (((tables.chunks.filter fun c => Admitted filterUuids filterCol sourceTypeValues c ∧
      ∃ t ∈ q.terms, (tables.weight t c.chunkId).isSome).map Chunk.chunkId).insertionSort (Ahead (total tables q))).take limit

end Akb.Search.Posting
