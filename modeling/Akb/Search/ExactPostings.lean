import Akb.Search.PostingSearch
import Mathlib.Algebra.BigOperators.Group.List.Lemmas

/-! The statistics choose a join, and each join finds the same chunks with the same scores. -/
namespace Akb.Search.Posting
open Akb.Library

/-! ### Sums over rows -/

theorem score_nil (id : Uuid) : score [] id = 0 := rfl

theorem score_append (a b : List (Uuid × ℚ)) (id : Uuid) : score (a ++ b) id = score a id + score b id := by
  rw [score, List.filter_append, List.map_append, List.sum_append]
  rfl

theorem score_flatMap {α : Type} (l : List α) (f : α → List (Uuid × ℚ)) (id : Uuid) :
    score (l.flatMap f) id = (l.map fun x => score (f x) id).sum := by
  induction l with
  | nil => rfl
  | cons x l ih => rw [List.flatMap_cons, score_append, ih, List.map_cons, List.sum_cons]

/-- Rows of one chunk for the items that pass a test. -/
theorem score_filter {α : Type} (l : List α) (p : α → Bool) (g : α → ℚ) (i id : Uuid) :
    score ((l.filter p).map fun x => (i, g x)) id = (l.map fun x => if p x ∧ i = id then g x else 0).sum := by
  induction l with
  | nil => rfl
  | cons x l ih =>
    rw [List.map_cons, List.sum_cons, ← ih]
    by_cases hp : p x = true <;> by_cases hid : i = id <;> simp [score, hp, hid]

theorem score_filter_flatMap {α : Type} (l : List α) (p : α → Bool) (f : α → List (Uuid × ℚ)) (id : Uuid) :
    score ((l.filter p).flatMap f) id = (l.map fun x => if p x then score (f x) id else 0).sum := by
  induction l with
  | nil => rfl
  | cons x l ih =>
    rw [List.map_cons, List.sum_cons, ← ih, List.filter_cons]
    split
    · rw [List.flatMap_cons, score_append]
    · rw [zero_add]

/-- Rows of other chunks do not count. -/
theorem score_of_others {rows : List (Uuid × ℚ)} {id : Uuid} (h : ∀ r ∈ rows, r.1 ≠ id) : score rows id = 0 := by
  rw [score, List.filter_eq_nil_iff.mpr fun r hr => by simpa using h r hr]
  rfl

theorem sum_comm {α β : Type} (l : List α) (m : List β) (f : α → β → ℚ) :
    (l.map fun x => (m.map (f x)).sum).sum = (m.map fun y => (l.map fun x => f x y).sum).sum := by
  induction l with
  | nil => simp
  | cons x l ih => simp only [List.map_cons, List.sum_cons, ih, List.sum_map_add]

/-- One item has the key of an item. -/
theorem filter_key {α β : Type} [DecidableEq β] {l : List α} {key : α → β} (h : (l.map key).Nodup) {x : α} (hx : x ∈ l) :
    l.filter (fun y => key y = key x) = [x] := by
  induction l with
  | nil => cases hx
  | cons y l ih =>
    rw [List.map_cons, List.nodup_cons] at h
    rcases List.mem_cons.mp hx with rfl | hx
    · have hrest : l.filter (fun y => key y = key x) = [] := by
        refine List.filter_eq_nil_iff.mpr fun y hy hkey => h.1 ?_
        rw [← of_decide_eq_true hkey]
        exact List.mem_map_of_mem hy
      rw [List.filter_cons, if_pos (decide_eq_true rfl), hrest]
    · rw [List.filter_cons, if_neg, ih h.2 hx]
      exact fun hkey => h.1 (of_decide_eq_true hkey ▸ List.mem_map_of_mem hx)

/-! ### What a posting row adds to a chunk -/

variable {tables : Tables} {q : List (Int × ℚ)} {chunks : List Chunk} {c : Chunk}

/-- What a posting row adds to a chunk's score for a term of the query. -/
def contribution (id : Uuid) (t : Int × ℚ) (p : PostingRow) : ℚ := if p.termId = t.1 ∧ p.chunkId = id then t.2 * p.weight else 0

/-- The score of a chunk by the posting rows. -/
def sumOver (tables : Tables) (q : List (Int × ℚ)) (id : Uuid) : ℚ :=
  (tables.posting.map fun p => (q.map fun t => contribution id t p).sum).sum

theorem sum_contribution (t : Int × ℚ) (id : Uuid) :
    (tables.posting.map (contribution id t)).sum = t.2 * (tables.weight t.1 id).getD 0 := by
  have hsum := score_filter tables.posting (fun p => decide (p.termId = t.1 ∧ p.chunkId = id)) (fun p => t.2 * p.weight) id id
  simp only [decide_eq_true_eq, and_true] at hsum
  refine Eq.trans hsum.symm ?_
  rw [Tables.weight]
  cases hfind : tables.posting.find? fun p => decide (p.termId = t.1 ∧ p.chunkId = id) with
  | none =>
    rw [List.filter_eq_nil_iff.mpr (List.find?_eq_none.mp hfind)]
    simp [score]
  | some p =>
    have hp := List.find?_some hfind
    simp only [decide_eq_true_eq] at hp
    obtain ⟨hterm, hid⟩ := hp
    have hone := filter_key tables.posting_key (List.mem_of_find?_eq_some hfind)
    simp only [Prod.mk.injEq, hterm, hid] at hone
    rw [hone]
    simp [score]

theorem total_eq (q : Query) (id : Uuid) : total tables q id = sumOver tables (q.terms.zip q.weights) id := by
  rw [sumOver, sum_comm, total]
  exact congrArg List.sum (List.map_congr_left fun t _ => (sum_contribution t id).symm)

/-- The chunk holds a term of the query. -/
def Holds (tables : Tables) (q : List (Int × ℚ)) (id : Uuid) : Prop := ∃ p ∈ tables.posting, ∃ t ∈ q, t.1 = p.termId ∧ p.chunkId = id

theorem weight_isSome {t : Int} {id : Uuid} : (tables.weight t id).isSome ↔ ∃ p ∈ tables.posting, p.termId = t ∧ p.chunkId = id := by
  rw [Tables.weight, Option.isSome_map, List.find?_isSome]
  simp only [decide_eq_true_eq]

theorem holds_iff (q : Query) (id : Uuid) :
    Holds tables (q.terms.zip q.weights) id ↔ ∃ t ∈ q.terms, (tables.weight t id).isSome := by
  have hfst : (q.terms.zip q.weights).map Prod.fst = q.terms := List.map_fst_zip q.same_length.le
  constructor
  · rintro ⟨p, hp, t, ht, hterm, hid⟩
    refine ⟨t.1, ?_, weight_isSome.mpr ⟨p, hp, hterm.symm, hid⟩⟩
    rw [← hfst]
    exact List.mem_map_of_mem ht
  · rintro ⟨t, ht, hweight⟩
    obtain ⟨p, hp, hterm, hid⟩ := weight_isSome.mp hweight
    rw [← hfst] at ht
    obtain ⟨e, he, rfl⟩ := List.mem_map.mp ht
    exact ⟨p, hp, e, he, hterm.symm, hid⟩

/-! ### The joins -/

/-- The rows are those of the chunks that hold a term of the query, and add up to their scores. -/
structure Finds (rows : List (Uuid × ℚ)) (tables : Tables) (q : List (Int × ℚ)) (chunks : List Chunk) : Prop where
  mem : ∀ id, id ∈ rows.map Prod.fst ↔ (∃ c ∈ chunks, c.chunkId = id) ∧ Holds tables q id
  score : ∀ c ∈ chunks, score rows c.chunkId = sumOver tables q c.chunkId

theorem score_termRows (id : Uuid) : score (termRows tables q) id = sumOver tables q id := by
  rw [termRows, score_flatMap, sumOver]
  refine congrArg List.sum (List.map_congr_left fun p _ => ?_)
  rw [score_filter]
  refine congrArg List.sum (List.map_congr_left fun t _ => ?_)
  rw [contribution]
  exact if_congr (and_congr_left' (decide_eq_true_iff.trans eq_comm)) rfl rfl

theorem finds_termRows : Finds (termRows tables q) tables q tables.chunks := by
  refine ⟨fun id => ?_, fun c _ => score_termRows c.chunkId⟩
  simp only [termRows, List.map_flatMap, List.map_map, List.mem_flatMap, List.mem_map, List.mem_filter, Holds,
    Function.comp_apply, decide_eq_true_eq]
  constructor
  · rintro ⟨p, hp, t, ⟨ht, hterm⟩, rfl⟩
    exact ⟨tables.chunk_exists p hp, p, hp, t, ht, hterm, rfl⟩
  · rintro ⟨-, p, hp, t, ht, hterm, hid⟩
    exact ⟨p, hp, t, ⟨ht, hterm⟩, hid⟩

/-- The rows of each chunk are its own. -/
theorem score_chunks (hkey : (chunks.map Chunk.chunkId).Nodup) {f : Chunk → List (Uuid × ℚ)}
    (hf : ∀ c, ∀ r ∈ f c, r.1 = c.chunkId) (hc : c ∈ chunks) : score (chunks.flatMap f) c.chunkId = score (f c) c.chunkId := by
  induction chunks with
  | nil => cases hc
  | cons d chunks ih =>
    rw [List.map_cons, List.nodup_cons] at hkey
    rw [List.flatMap_cons, score_append]
    rcases List.mem_cons.mp hc with rfl | hc
    · have hothers : ∀ r ∈ chunks.flatMap f, r.1 ≠ c.chunkId := by
        intro r hr heq
        obtain ⟨e, he, hr⟩ := List.mem_flatMap.mp hr
        exact hkey.1 (heq ▸ hf e r hr ▸ List.mem_map_of_mem he)
      rw [score_of_others hothers, add_zero]
    · have hothers : ∀ r ∈ f d, r.1 ≠ c.chunkId := by
        intro r hr heq
        rw [hf d r hr] at heq
        exact hkey.1 (heq ▸ List.mem_map_of_mem hc)
      rw [ih hkey.2 hc, score_of_others hothers, zero_add]

theorem finds_termRowsIn (hkey : (chunks.map Chunk.chunkId).Nodup) : Finds (termRowsIn tables q chunks) tables q chunks := by
  constructor
  case mem =>
    intro id
    simp only [termRowsIn, List.map_flatMap, List.map_map, List.mem_flatMap, List.mem_map, List.mem_filter, Holds,
      Function.comp_apply, decide_eq_true_eq]
    constructor
    · rintro ⟨p, hp, t, ⟨ht, hterm⟩, c, ⟨hc, hid⟩, rfl⟩
      exact ⟨⟨c, hc, hid⟩, p, hp, t, ht, hterm, rfl⟩
    · rintro ⟨⟨c, hc, rfl⟩, p, hp, t, ht, hterm, hid⟩
      exact ⟨p, hp, t, ⟨ht, hterm⟩, c, ⟨hc, hid.symm⟩, hid⟩
  case score =>
    intro c hc
    rw [← score_termRows, termRowsIn, termRows, score_flatMap, score_flatMap]
    refine congrArg List.sum (List.map_congr_left fun p _ => ?_)
    by_cases hp : p.chunkId = c.chunkId
    · have hone : chunks.filter (fun d => d.chunkId = p.chunkId) = [c] := by
        rw [hp]
        exact filter_key hkey hc
      simp only [hone, List.map_singleton]
      rw [← List.map_eq_flatMap]
    · rw [score_of_others, score_of_others]
      · intro r hr
        obtain ⟨t, -, rfl⟩ := List.mem_map.mp hr
        exact hp
      · intro r hr
        obtain ⟨t, -, hr⟩ := List.mem_flatMap.mp hr
        obtain ⟨d, -, rfl⟩ := List.mem_map.mp hr
        exact hp

theorem finds_pointRows (hkey : (chunks.map Chunk.chunkId).Nodup) : Finds (pointRows tables q chunks) tables q chunks := by
  constructor
  case mem =>
    intro id
    simp only [pointRows, List.map_flatMap, List.map_map, List.mem_flatMap, List.mem_map, List.mem_filter, Holds,
      Function.comp_apply, Bool.and_eq_true, decide_eq_true_eq]
    constructor
    · rintro ⟨c, hc, t, ht, p, ⟨hp, hterm, hid⟩, rfl⟩
      exact ⟨⟨c, hc, rfl⟩, p, hp, t, ht, hterm.symm, hid⟩
    · rintro ⟨⟨c, hc, rfl⟩, p, hp, t, ht, hterm, hid⟩
      exact ⟨c, hc, t, ht, p, ⟨hp, hterm.symm, hid⟩, rfl⟩
  case score =>
    intro c hc
    rw [pointRows, score_chunks hkey _ hc, score_flatMap, sumOver, sum_comm]
    · refine congrArg List.sum (List.map_congr_left fun t _ => ?_)
      rw [score_filter]
      refine congrArg List.sum (List.map_congr_left fun p _ => ?_)
      simp only [contribution, Bool.and_eq_true, decide_eq_true_eq, and_true]
    · intro d r hr
      obtain ⟨t, -, hr⟩ := List.mem_flatMap.mp hr
      obtain ⟨p, -, rfl⟩ := List.mem_map.mp hr
      rfl

theorem finds_scopeRows (hkey : (chunks.map Chunk.chunkId).Nodup) : Finds (scopeRows tables q chunks) tables q chunks := by
  constructor
  case mem =>
    intro id
    simp only [scopeRows, List.map_flatMap, List.map_map, List.mem_flatMap, List.mem_map, List.mem_filter, Holds,
      Function.comp_apply, decide_eq_true_eq]
    constructor
    · rintro ⟨c, hc, p, ⟨hp, hid⟩, t, ⟨ht, hterm⟩, rfl⟩
      exact ⟨⟨c, hc, rfl⟩, p, hp, t, ht, hterm, hid⟩
    · rintro ⟨⟨c, hc, rfl⟩, p, hp, t, ht, hterm, hid⟩
      exact ⟨c, hc, p, ⟨hp, hid⟩, t, ⟨ht, hterm⟩, rfl⟩
  case score =>
    intro c hc
    rw [scopeRows, score_chunks hkey _ hc, ← score_termRows, termRows, score_filter_flatMap, score_flatMap]
    · refine congrArg List.sum (List.map_congr_left fun p _ => ?_)
      split
      · rename_i hp
        rw [of_decide_eq_true hp]
      · rename_i hp
        refine (score_of_others fun r hr heq => hp (decide_eq_true ?_)).symm
        obtain ⟨t, -, rfl⟩ := List.mem_map.mp hr
        exact heq
    · intro d r hr
      obtain ⟨p, -, hr⟩ := List.mem_flatMap.mp hr
      obtain ⟨t, -, rfl⟩ := List.mem_map.mp hr
      rfl

/-! ### The order -/

theorem ahead_total (s : Uuid → ℚ) (a b : Uuid) : Ahead s a b ∨ Ahead s b a := by
  unfold Ahead
  rcases lt_trichotomy (s a) (s b) with h | h | h
  · exact .inr (.inl h)
  · exact (Nat.le_total a b).imp (fun hab => .inr ⟨h, hab⟩) fun hba => .inr ⟨h.symm, hba⟩
  · exact .inl (.inl h)

theorem ahead_trans {s : Uuid → ℚ} {a b c : Uuid} (hab : Ahead s a b) (hbc : Ahead s b c) : Ahead s a c := by
  rcases hab with hab | ⟨hab, hle⟩
  · rcases hbc with hbc | ⟨hbc, -⟩
    · exact .inl (hbc.trans hab)
    · exact .inl (hbc ▸ hab)
  · rcases hbc with hbc | ⟨hbc, hle'⟩
    · exact .inl (hab ▸ hbc)
    · exact .inr ⟨hab.trans hbc, hle.trans hle'⟩

theorem ahead_antisymm {s : Uuid → ℚ} {a b : Uuid} (hab : Ahead s a b) (hba : Ahead s b a) : a = b := by
  rcases hab with hab | ⟨heq, hle⟩
  · rcases hba with hba | ⟨heq, -⟩
    · exact absurd hab hba.asymm
    · exact absurd hab (heq ▸ lt_irrefl _)
  · rcases hba with hba | ⟨-, hle'⟩
    · exact absurd hba (heq ▸ lt_irrefl _)
    · exact Nat.le_antisymm hle hle'

theorem pairwise_ahead (s : Uuid → ℚ) (ids : List Uuid) : (ids.insertionSort (Ahead s)).Pairwise (Ahead s) := by
  have : Std.Total (Ahead s) := ⟨ahead_total s⟩
  have : IsTrans Uuid (Ahead s) := ⟨fun _ _ _ => ahead_trans⟩
  exact List.pairwise_insertionSort (Ahead s) ids

/-- The order of chunks rests on nothing but which they are and how they score. -/
theorem insertionSort_eq {s s' : Uuid → ℚ} {ids ids' : List Uuid} (hperm : ids.Perm ids') (hscore : ∀ id ∈ ids, s id = s' id) :
    ids.insertionSort (Ahead s) = ids'.insertionSort (Ahead s') := by
  have hsorted := pairwise_ahead s ids
  refine List.Perm.eq_of_pairwise (fun a b _ _ => ahead_antisymm (s := s') (a := a) (b := b)) ?_ (pairwise_ahead s' ids')
    ((List.perm_insertionSort _ _).trans (hperm.trans (List.perm_insertionSort _ _).symm))
  refine hsorted.imp_of_mem fun ha hb hab => ?_
  rw [List.mem_insertionSort] at ha hb
  rwa [Ahead, ← hscore _ ha, ← hscore _ hb]

/-- Rows that find the chunks are ranked as the chunks are. -/
theorem Finds.ranked {rows : List (Uuid × ℚ)} (h : Finds rows tables q chunks) (hkey : (chunks.map Chunk.chunkId).Nodup)
    {holds : Uuid → Bool} (hholds : ∀ id, holds id ↔ Holds tables q id) (limit : Nat) :
    ranked rows limit =
      (((chunks.filter fun c => holds c.chunkId).map Chunk.chunkId).insertionSort (Ahead (sumOver tables q))).take limit := by
  have hmem (id : Uuid) : id ∈ (rows.map Prod.fst).dedup ↔ id ∈ (chunks.filter fun c => holds c.chunkId).map Chunk.chunkId := by
    rw [List.mem_dedup, h.mem, List.mem_map]
    simp only [List.mem_filter, hholds]
    constructor
    · rintro ⟨⟨c, hc, rfl⟩, hid⟩
      exact ⟨c, ⟨hc, hid⟩, rfl⟩
    · rintro ⟨c, ⟨hc, hid⟩, rfl⟩
      exact ⟨⟨c, hc, rfl⟩, hid⟩
  have hnodup : ((chunks.filter fun c => holds c.chunkId).map Chunk.chunkId).Nodup :=
    hkey.sublist (List.filter_sublist.map Chunk.chunkId)
  rw [Posting.ranked, insertionSort_eq ((List.perm_ext_iff_of_nodup (List.nodup_dedup _) hnodup).mpr hmem)]
  intro id hid
  obtain ⟨c, hc, rfl⟩ := List.mem_map.mp ((hmem id).mp hid)
  exact h.score c (List.mem_of_mem_filter hc)

/-! ### The statements -/

/-- The predicates of a search and, with the parameters of the count, of its count. -/
theorem read_acl (filterCol : FilterCol) :
    readWhere (whereText [⟨filterCol.name, 3, "uuid".toList⟩]) = some [⟨filterCol.name, 3, "uuid".toList⟩] ∧
      readWhere (scopeWhere (whereText [⟨filterCol.name, 3, "uuid".toList⟩]) 3) = some [⟨filterCol.name, 1, "uuid".toList⟩] := by
  cases filterCol <;> decide +kernel

theorem read_type :
    readWhere (whereText [⟨"source_type".toList, 3, "text".toList⟩]) = some [⟨"source_type".toList, 3, "text".toList⟩] := by
  decide +kernel

theorem read_both (filterCol : FilterCol) :
    readWhere (whereText [⟨filterCol.name, 3, "uuid".toList⟩, ⟨"source_type".toList, 4, "text".toList⟩]) =
        some [⟨filterCol.name, 3, "uuid".toList⟩, ⟨"source_type".toList, 4, "text".toList⟩] ∧
      readWhere (scopeWhere (whereText [⟨filterCol.name, 3, "uuid".toList⟩, ⟨"source_type".toList, 4, "text".toList⟩]) 4) =
        some [⟨filterCol.name, 1, "uuid".toList⟩, ⟨"source_type".toList, 2, "text".toList⟩] := by
  cases filterCol <;> decide +kernel

variable {stats : Statistics} {query : Query} {filterUuids : Option (List Uuid)} {filterCol : FilterCol}
  {sourceTypeValues : Option (List Text)} {limit : Nat}

/-- The chunks that the filters admit. -/
def admitted (tables : Tables) (filterUuids : Option (List Uuid)) (filterCol : FilterCol) (sourceTypeValues : Option (List Text)) :
    List Chunk := tables.chunks.filter fun c => Admitted filterUuids filterCol sourceTypeValues c

/-- The statements ask for the chunks that the filters admit. -/
structure Asks (tables : Tables) (s : Clauses) (query : Query) (limit : Nat) (chunks : List Chunk) : Prop where
  terms : queryTerms (s.params ++ [.int limit]) = some (query.terms.zip query.weights)
  all : whereText s.predicates = [] → chunks = tables.chunks
  search : selected tables (whereText s.predicates) (s.params ++ [.int limit]) = some chunks
  count : s.strategy ≠ .term → selected tables (scopeWhere (whereText s.predicates) s.params.length) (s.params.drop 2) = some chunks

theorem whereText_ne_nil (p : Predicate) (predicates : List Predicate) : whereText (p :: predicates) ≠ [] := by
  rw [whereText, if_neg (List.cons_ne_nil p predicates), String.toList_ofList]
  exact List.cons_ne_nil _ _

theorem test_acl (filterCol : FilterCol) {params : List Param} {i : Nat} {values : List Uuid}
    (h : params[i - 1]? = some (.uuids values)) : Predicate.test params ⟨filterCol.name, i, "uuid".toList⟩ =
      some fun c => values.any fun u => filterCol.value c = some u := by
  rw [Predicate.test, h]
  cases filterCol with
  | sourceId => rfl
  | vaultId =>
    have hname : FilterCol.vaultId.name ≠ FilterCol.sourceId.name := by decide
    simp only [ne_eq, not_true, if_false, hname, if_true]

theorem test_type {params : List Param} {i : Nat} {values : List Text} (h : params[i - 1]? = some (.texts values)) :
    Predicate.test params ⟨"source_type".toList, i, "text".toList⟩ = some fun c => values.contains c.sourceType := by
  rw [Predicate.test, h]
  exact if_pos ⟨rfl, rfl⟩

theorem selected_admitted {text : Text} {params : List Param} {predicates : List Predicate} {tests : List (Chunk → Bool)}
    (hadmits : ∀ c, tests.all (· c) = true ↔ Admitted filterUuids filterCol sourceTypeValues c)
    (hread : readWhere text = some predicates) (htests : predicates.mapM (Predicate.test params) = some tests) :
    selected tables text params = some (admitted tables filterUuids filterCol sourceTypeValues) := by
  rw [selected, hread, Option.bind_eq_bind, Option.bind_some, htests, Option.bind_eq_bind, Option.bind_some]
  refine congrArg some (List.filter_congr fun c _ => ?_)
  rw [Bool.eq_iff_iff, hadmits c, decide_eq_true_iff]

theorem asks (tables : Tables) (stats : Statistics) (query : Query) (filterCol : FilterCol) (limit : Nat)
    (hfilter : filterUuids ≠ some []) (htypes : sourceTypeValues ≠ some []) :
    Asks tables (clauses stats query filterUuids filterCol sourceTypeValues) query limit
      (admitted tables filterUuids filterCol sourceTypeValues) := by
  cases filterUuids with
  | none =>
    cases sourceTypeValues with
    | none =>
      have hall : admitted tables none filterCol none = tables.chunks := List.filter_eq_self.mpr fun c _ => by simp [Admitted]
      refine ⟨rfl, fun _ => hall, ?_, fun h => absurd rfl h⟩
      have hadmits : ∀ c, ([] : List (Chunk → Bool)).all (· c) = true ↔ Admitted none filterCol none c := fun c => by simp [Admitted]
      exact selected_admitted hadmits rfl rfl
    | some types =>
      have hne : types ≠ [] := fun h => htypes (congrArg some h)
      have hs : clauses stats query none filterCol (some types) =
          ⟨[.ints query.terms, .reals query.weights, .texts types], [⟨"source_type".toList, 3, "text".toList⟩], .term⟩ := by
        simp [clauses, Clauses.filter, hne]
      rw [hs]
      refine ⟨rfl, fun h => absurd h (whereText_ne_nil _ _), ?_, fun h => absurd rfl h⟩
      have hadmits (c : Chunk) : [fun c : Chunk => types.contains c.sourceType].all (· c) = true ↔
          Admitted none filterCol (some types) c := by
        simp [Admitted]
      exact selected_admitted hadmits read_type (by rw [List.mapM_cons, test_type rfl]; rfl)
  | some uuids =>
    have hne : uuids ≠ [] := fun h => hfilter (congrArg some h)
    cases sourceTypeValues with
    | none =>
      have hs : clauses stats query (some uuids) filterCol none =
          ⟨[.ints query.terms, .reals query.weights, .uuids uuids], [⟨filterCol.name, 3, "uuid".toList⟩],
            estimateScopeStrategy stats filterCol uuids query.terms⟩ := by
        simp [clauses, Clauses.filter, hne]
      have hadmits (c : Chunk) : [fun c => uuids.any fun u => decide (filterCol.value c = some u)].all (· c) = true ↔
          Admitted (some uuids) filterCol none c := by
        simp [Admitted]
      rw [hs]
      refine ⟨rfl, fun h => absurd h (whereText_ne_nil _ _), ?_, fun _ => ?_⟩
      · exact selected_admitted hadmits (read_acl filterCol).1 (by rw [List.mapM_cons, test_acl filterCol rfl]; rfl)
      · exact selected_admitted hadmits (read_acl filterCol).2 (by rw [List.mapM_cons, test_acl filterCol rfl]; rfl)
    | some types =>
      have hne' : types ≠ [] := fun h => htypes (congrArg some h)
      have hs : clauses stats query (some uuids) filterCol (some types) =
          ⟨[.ints query.terms, .reals query.weights, .uuids uuids, .texts types],
            [⟨filterCol.name, 3, "uuid".toList⟩, ⟨"source_type".toList, 4, "text".toList⟩],
            estimateScopeStrategy stats filterCol uuids query.terms⟩ := by
        simp [clauses, Clauses.filter, hne, hne']
      have hadmits (c : Chunk) : [fun c => uuids.any fun u => decide (filterCol.value c = some u),
          fun c => types.contains c.sourceType].all (· c) = true ↔ Admitted (some uuids) filterCol (some types) c := by
        simp [Admitted]
      rw [hs]
      refine ⟨rfl, fun h => absurd h (whereText_ne_nil _ _), ?_, fun _ => ?_⟩
      · exact selected_admitted hadmits (read_both filterCol).1
          (by rw [List.mapM_cons, test_acl filterCol rfl, List.mapM_cons, test_type rfl]; rfl)
      · exact selected_admitted hadmits (read_both filterCol).2
          (by rw [List.mapM_cons, test_acl filterCol rfl, List.mapM_cons, test_type rfl]; rfl)

theorem joined_finds {s : Clauses} {limit : Nat} (h : Asks tables s query limit chunks) (hkey : (chunks.map Chunk.chunkId).Nodup)
    (strategy : ScopeStrategy) : ∃ rows, joined tables strategy (whereText s.predicates) (s.params ++ [.int limit]) = some rows ∧
      Finds rows tables (query.terms.zip query.weights) chunks := by
  rw [joined, h.terms]
  cases strategy with
  | point =>
    refine ⟨_, ?_, finds_pointRows hkey⟩
    simp [h.search]
  | scope =>
    refine ⟨_, ?_, finds_scopeRows hkey⟩
    simp [h.search]
  | term =>
    by_cases hall : whereText s.predicates = []
    · refine ⟨_, ?_, h.all hall ▸ finds_termRows⟩
      simp [hall]
    · refine ⟨_, ?_, finds_termRowsIn hkey⟩
      simp [hall, h.search]

/-- Counting the scope only ever takes the point strategy back. -/
theorem confirmStrategy_isSome {s : Clauses} {limit : Nat} (h : Asks tables s query limit chunks) (termCount : Nat) :
    ∃ strategy, confirmStrategy tables s termCount = some strategy := by
  unfold confirmStrategy
  split
  · rename_i hpoint
    rw [h.count (by rw [hpoint]; decide)]
    exact ⟨_, rfl⟩
  · exact ⟨_, rfl⟩

/-- Whatever the statistics say, the search gives the heaviest of the chunks that the filters admit. -/
theorem searchPosting_exact (stats : Statistics) (tables : Tables) (query : Query) (filterUuids : Option (List Uuid))
    (filterCol : FilterCol) (sourceTypeValues : Option (List Text)) (limit : Nat) (hfilter : filterUuids ≠ some [])
    (htypes : sourceTypeValues ≠ some []) : searchPosting stats tables query filterUuids filterCol sourceTypeValues limit =
      some (heaviest tables query filterUuids filterCol sourceTypeValues limit) := by
  have hasks := asks tables stats query filterCol limit hfilter htypes
  have hkey : ((admitted tables filterUuids filterCol sourceTypeValues).map Chunk.chunkId).Nodup :=
    tables.chunk_key.sublist (List.filter_sublist.map Chunk.chunkId)
  obtain ⟨strategy, hstrategy⟩ := confirmStrategy_isSome hasks query.terms.length
  obtain ⟨rows, hrows, hfinds⟩ := joined_finds hasks hkey strategy
  have hholds (id : Uuid) : decide (∃ t ∈ query.terms, (tables.weight t id).isSome) = true ↔
      Holds tables (query.terms.zip query.weights) id := by
    rw [decide_eq_true_iff, holds_iff]
  have hranked := hfinds.ranked hkey hholds limit
  rw [searchPosting, Option.bind_eq_bind, hstrategy, Option.bind_some, hrows]
  refine congrArg some (hranked.trans ?_)
  have hscore : total tables query = sumOver tables (query.terms.zip query.weights) := funext (total_eq query)
  have hchunks : ((admitted tables filterUuids filterCol sourceTypeValues).filter fun c =>
        decide (∃ t ∈ query.terms, (tables.weight t c.chunkId).isSome)) =
      tables.chunks.filter fun c => Admitted filterUuids filterCol sourceTypeValues c ∧
        ∃ t ∈ query.terms, (tables.weight t c.chunkId).isSome := by
    rw [admitted, List.filter_filter]
    refine List.filter_congr fun c _ => ?_
    rw [Bool.eq_iff_iff, Bool.and_eq_true, decide_eq_true_iff, decide_eq_true_iff, decide_eq_true_iff, and_comm]
  rw [heaviest, hscore, ← hchunks]

def twoVaults : Tables where
  chunks := [⟨1, "document".toList, 10, some 7⟩, ⟨2, "table".toList, 11, some 7⟩, ⟨3, "document".toList, 12, some 8⟩]
  posting := [⟨5, 1, 2⟩, ⟨5, 2, 3⟩, ⟨6, 1, 4⟩, ⟨5, 3, 100⟩]
  chunk_key := by decide
  posting_key := by decide
  chunk_exists := by decide

def repeatedTerm : Query := ⟨[5, 6, 5], [1, 2, 1 / 2], rfl⟩

/-- Statistics by which a search of the vault 7 probes the postings of each chunk. -/
def fewInScope : Statistics := ⟨fun _ => some ⟨100, 2, [7], [1 / 2]⟩, some ⟨1000000, 2, [], []⟩⟩

theorem search_of_vault : searchPosting fewInScope twoVaults repeatedTerm (some [7]) .vaultId none 5 =
    some (heaviest twoVaults repeatedTerm (some [7]) .vaultId none 5) :=
  searchPosting_exact fewInScope twoVaults repeatedTerm (some [7]) .vaultId none 5 (by decide) (by decide)

end Akb.Search.Posting
