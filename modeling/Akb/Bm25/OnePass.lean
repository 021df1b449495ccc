import Akb.Bm25.Recompute
import Akb.Library.Run

/-! However often the scan is interrupted and taken up again, what it publishes is what one pass
over the chunks counts. -/
namespace Akb.Bm25
open Akb.Library
variable {tokenize : Tokenize}

/-! ### One pass -/

def docsIn (tokenize : Tokenize) (t : Tokenizer) (chunks : List Chunk) : Nat :=
  chunks.countP (fun c => tokensOf tokenize t c ≠ [])

def lengthIn (tokenize : Tokenize) (t : Tokenizer) (chunks : List Chunk) : Nat :=
  (chunks.map (fun c => (tokensOf tokenize t c).length)).sum

def dfIn (tokenize : Tokenize) (t : Tokenizer) (chunks : List Chunk) (term : Term) : Nat :=
  chunks.countP (fun c => term ∈ tokensOf tokenize t c)

/-- The frequency that the vocabulary holds for a term. -/
def dfOf (db : Database) (term : Term) : Nat := (db.vocab.get? term).elim 0 VocabRow.df

/-- The statistics are those of one pass over the chunks that have content, each counted once. -/
structure Published (tokenize : Tokenize) (db : Database) (st : StatsRow) : Prop where
  row : db.stats = some st
  df : ∀ term, dfOf db term = dfIn tokenize st.tokenizer db.source term
  totalDocs : st.totalDocs = docsIn tokenize st.tokenizer db.source
  avgdl : st.avgdl = Bm25.avgdl (lengthIn tokenize st.tokenizer db.source) (docsIn tokenize st.tokenizer db.source)
  sourceChunkCount : st.sourceChunkCount = db.source.length

private theorem docsIn_cons (t : Tokenizer) (c : Chunk) (rows : List Chunk) :
    docsIn tokenize t (c :: rows) = docsIn tokenize t rows + if tokensOf tokenize t c = [] then 0 else 1 := by
  rw [docsIn, List.countP_cons, docsIn]
  simp

private theorem lengthIn_cons (t : Tokenizer) (c : Chunk) (rows : List Chunk) :
    lengthIn tokenize t (c :: rows) = (tokensOf tokenize t c).length + lengthIn tokenize t rows := by
  rw [lengthIn, List.map_cons, List.sum_cons, lengthIn]

private theorem dfIn_cons (t : Tokenizer) (c : Chunk) (rows : List Chunk) (term : Term) :
    dfIn tokenize t (c :: rows) term = dfIn tokenize t rows term + if term ∈ tokensOf tokenize t c then 1 else 0 := by
  rw [dfIn, List.countP_cons, dfIn]
  simp

/-! ### The rows of a batch -/

/-- The variables after some more chunks. -/
private structure CountedTo (tokenize : Tokenize) (w w' : Worker) (before after : Counts Term) (rows : List Chunk) : Prop where
  tokenizer : w'.tokenizer = w.tokenizer
  sourceRevision : w'.sourceRevision = w.sourceRevision
  sourceChunkCount : w'.sourceChunkCount = w.sourceChunkCount + rows.length
  totalDocs : w'.totalDocs = w.totalDocs + docsIn tokenize w.tokenizer rows
  totalLength : w'.totalLength = w.totalLength + lengthIn tokenize w.tokenizer rows
  lastId : w'.lastId = (rows.getLast?.map Chunk.id).or w.lastId
  df : ∀ term, after.count term = before.count term + dfIn tokenize w.tokenizer rows term

private theorem CountedTo.cons {w seen w' : Worker} {before batchDf after : Counts Term} {c : Chunk} {rows : List Chunk}
    (h : CountedTo tokenize seen w' batchDf after rows) (htokenizer : seen.tokenizer = w.tokenizer)
    (hrevision : seen.sourceRevision = w.sourceRevision) (hcount : seen.sourceChunkCount = w.sourceChunkCount + 1)
    (hdocs : seen.totalDocs = w.totalDocs + if tokensOf tokenize w.tokenizer c = [] then 0 else 1)
    (hlength : seen.totalLength = w.totalLength + (tokensOf tokenize w.tokenizer c).length)
    (hlast : seen.lastId = some c.id)
    (hdf : ∀ term, batchDf.count term = before.count term + if term ∈ tokensOf tokenize w.tokenizer c then 1 else 0) :
    CountedTo tokenize w w' before after (c :: rows) where
  tokenizer := h.tokenizer.trans htokenizer
  sourceRevision := h.sourceRevision.trans hrevision
  sourceChunkCount := by
    rw [h.sourceChunkCount, hcount, List.length_cons]
    omega
  totalDocs := by
    rw [h.totalDocs, hdocs, htokenizer, docsIn_cons]
    omega
  totalLength := by
    rw [h.totalLength, hlength, htokenizer, lengthIn_cons]
    omega
  lastId := by
    rw [h.lastId, hlast]
    cases rows with
    | nil => rfl
    | cons d rows =>
      rw [List.getLast?_cons_cons, List.getLast?_cons]
      rfl
  df term := by
    rw [h.df, hdf, htokenizer, dfIn_cons]
    omega

private theorem countRows_counted (w : Worker) (batchDf : Counts Term) (rows : List Chunk) :
    CountedTo tokenize w (countRows tokenize w batchDf rows).1 batchDf (countRows tokenize w batchDf rows).2 rows := by
  induction rows generalizing w batchDf with
  | nil => exact ⟨rfl, rfl, rfl, rfl, rfl, rfl, fun _ => rfl⟩
  | cons c rows ih =>
    rw [countRows]
    split
    · rename_i hnil
      refine (ih _ _).cons rfl rfl rfl ?_ ?_ rfl fun term => ?_
      · rw [if_pos hnil]
        rfl
      · rw [hnil]
        rfl
      · rw [hnil, if_neg List.not_mem_nil, Nat.add_zero]
    · rename_i hne
      refine (ih _ _).cons rfl rfl rfl ?_ rfl rfl fun term => ?_
      · rw [if_neg hne]
      · rw [Counts.count_addEach _ (List.nodup_dedup _)]
        simp only [List.mem_dedup]

/-! ### Where a scan stands -/

def inOrder (db : Database) : List Chunk := ordered (fun c : Chunk => c.id.toNat) db.source

/-- The run has counted the chunks `seen`, and the chunks `rest` are left. -/
structure Scanned (tokenize : Tokenize) (db : Database) (row : RunRow) (seen rest : List Chunk) : Prop where
  split : inOrder db = seen ++ rest
  cursor : row.cursorChunkId = seen.getLast?.map Chunk.id
  totalDocs : row.totalDocs = docsIn tokenize row.tokenizer seen
  totalLength : row.totalLength = lengthIn tokenize row.tokenizer seen
  sourceChunkCount : row.sourceChunkCount = seen.length
  df : ∀ term, db.terms.count term = dfIn tokenize row.tokenizer seen term

/-- The kept progress is exact, and the process that holds the lock goes by it. -/
structure Consistent (tokenize : Tokenize) (s : Recompute) : Prop where
  scanned : ∀ row ∈ s.db.run, ∃ seen rest, Scanned tokenize s.db row seen rest
  holder : ∀ w ∈ s.holder, ∃ row ∈ s.db.run, w = workerOf row

private theorem nodup_source (db : Database) : (db.source.map (fun c : Chunk => c.id.toNat)).Nodup := by
  have hids : (db.source.map Chunk.id).Nodup := db.chunks.unique.sublist (List.filter_sublist.map _)
  rw [show (fun c : Chunk => c.id.toNat) = BitVec.toNat ∘ Chunk.id from rfl, ← List.map_map]
  exact hids.map BitVec.toNat_injective

theorem Scanned.fetchBatch {db : Database} {row : RunRow} {seen rest : List Chunk} (h : Scanned tokenize db row seen rest)
    (n : Nat) : Bm25.fetchBatch db row.cursorChunkId n = rest.take n := by
  rw [h.cursor, Bm25.fetchBatch]
  rcases List.eq_nil_or_concat' seen with rfl | ⟨seen, c, rfl⟩
  · have hsplit : inOrder db = rest := h.split
    rw [List.getLast?_nil, Option.map_none, Option.map_none, batchBehind_none, ← hsplit]
    rfl
  · rw [List.getLast?_concat, Option.map_some, Option.map_some]
    exact batchBehind_some (nodup_source db) (h.split.trans (List.append_cons seen c rest).symm) n

/-- One more batch. -/
private theorem Scanned.commitBatch {db : Database} {row : RunRow} {seen rest : List Chunk}
    (h : Scanned tokenize db row seen rest) (hrow : db.run = some row) {rows rest' : List Chunk} (hne : rows ≠ [])
    (hrest : rest = rows ++ rest') {w : Worker} {batchDf : Counts Term}
    (hw : CountedTo tokenize (workerOf row) w .empty batchDf rows) :
    ∃ row', (Bm25.commitBatch db w batchDf).run = some row' ∧ w = workerOf row' ∧
      Scanned tokenize (Bm25.commitBatch db w batchDf) row' (seen ++ rows) rest' := by
  have hrun : (Bm25.commitBatch db w batchDf).run = some { row with
      cursorChunkId := w.lastId
      totalDocs := w.totalDocs
      totalLength := w.totalLength
      sourceChunkCount := w.sourceChunkCount } := by
    rw [Bm25.commitBatch, hrow]
    rfl
  have hworker : w = ⟨row.tokenizer, row.sourceRevision, w.sourceChunkCount, w.totalDocs, w.totalLength, w.lastId⟩ := by
    have htokenizer : w.tokenizer = row.tokenizer := hw.tokenizer
    have hrevision : w.sourceRevision = row.sourceRevision := hw.sourceRevision
    rw [← htokenizer, ← hrevision]
  refine ⟨_, hrun, hworker, ?_, ?_, ?_, ?_, ?_, fun term => ?_⟩
  · exact h.split.trans (by rw [hrest, List.append_assoc])
  · obtain ⟨start, c, rfl⟩ := (List.eq_nil_or_concat' rows).resolve_left hne
    have hlast := hw.lastId
    rw [List.getLast?_concat] at hlast
    rw [← List.append_assoc, List.getLast?_concat]
    exact hlast
  · exact hw.totalDocs.trans (by rw [workerOf, h.totalDocs, docsIn, docsIn, docsIn, List.countP_append])
  · exact hw.totalLength.trans (by
      rw [workerOf, h.totalLength, lengthIn, lengthIn, lengthIn, List.map_append, List.sum_append])
  · exact hw.sourceChunkCount.trans (by rw [workerOf, h.sourceChunkCount, List.length_append])
  · have hcount : (Bm25.commitBatch db w batchDf).terms.count term = db.terms.count term + batchDf.count term :=
      Counts.count_merge _ _ _
    rw [hcount, hw.df, Counts.count_empty, Nat.zero_add, h.df, dfIn, dfIn, dfIn, List.countP_append]
    rfl

/-! ### The publication -/

private theorem registerTerm_frame (db : Database) (term : Term) :
    (registerTerm db term).chunks = db.chunks ∧ (registerTerm db term).run = db.run ∧
      (registerTerm db term).terms = db.terms := by
  unfold registerTerm
  split
  · exact ⟨rfl, rfl, rfl⟩
  · exact ⟨rfl, rfl, rfl⟩

private theorem registerTerm_vocab (db : Database) (term : Term) :
    (∀ v ∈ db.vocab, v ∈ (registerTerm db term).vocab) ∧ ∃ v ∈ (registerTerm db term).vocab, v.term = term := by
  unfold registerTerm
  split
  · rename_i vocab hinsert
    have hmem := (Table.insert?_eq_some hinsert).2
    exact ⟨fun v hv => (hmem v).mpr (Or.inr hv), _, (hmem _).mpr (Or.inl rfl), rfl⟩
  · rename_i hinsert
    refine ⟨fun v hv => hv, ?_⟩
    by_contra hnone
    push Not at hnone
    rw [Table.insert?, dif_pos (Table.get?_eq_none.mpr hnone)] at hinsert
    cases hinsert

private theorem registerAll (db : Database) (terms : List Term) :
    (terms.foldl registerTerm db).chunks = db.chunks ∧ (∀ v ∈ db.vocab, v ∈ (terms.foldl registerTerm db).vocab) ∧
      ∀ term ∈ terms, ∃ v ∈ (terms.foldl registerTerm db).vocab, v.term = term := by
  induction terms generalizing db with
  | nil => exact ⟨rfl, fun _ hv => hv, fun _ h => absurd h List.not_mem_nil⟩
  | cons term terms ih =>
    obtain ⟨hchunks, hkept, hnew⟩ := ih (registerTerm db term)
    obtain ⟨hold, v, hv, hterm⟩ := registerTerm_vocab db term
    refine ⟨hchunks.trans (registerTerm_frame db term).1, fun u hu => hkept u (hold u hu), ?_⟩
    exact List.forall_mem_cons.mpr ⟨⟨v, hkept v hv, hterm⟩, hnew⟩

private theorem dfOf_publish (db : Database) (w : Worker) (term : Term) : dfOf (publish db w) term = db.terms.count term := by
  set registered := (((db.terms.rows.map Prod.fst).filter (fun term => (db.vocab.get? term).isNone)).insertionSort
    (· ≤ ·)).foldl registerTerm db with hregistered
  have hvocab : (publish db w).vocab = publishDf db.terms registered.vocab := rfl
  rw [dfOf, hvocab, publishDf, Table.get?_updateWhere, Table.get?_updateWhere]
  cases hcount : db.terms.get? term with
  | none =>
    have hzero : db.terms.count term = 0 := by rw [Counts.count, hcount]; rfl
    rw [hzero]
    cases hv : registered.vocab.get? term with
    | none => rfl
    | some v =>
      rw [Option.map_some, Option.map_some, if_pos rfl, if_neg, Option.elim_some]
      rw [(Table.get?_eq_some.mp hv).2, hcount]
      exact Bool.false_ne_true
  | some p =>
    have hterm : ∃ v, registered.vocab.get? term = some v := by
      obtain ⟨_, hkept, hnew⟩ := registerAll db
        (((db.terms.rows.map Prod.fst).filter (fun term => (db.vocab.get? term).isNone)).insertionSort (· ≤ ·))
      cases hold : db.vocab.get? term with
      | some v =>
        obtain ⟨hv, hk⟩ := Table.get?_eq_some.mp hold
        exact ⟨v, Table.get?_eq_some.mpr ⟨hkept v hv, hk⟩⟩
      | none =>
        obtain ⟨hp, hk⟩ := Table.get?_eq_some.mp hcount
        have hmissing : term ∈ (db.terms.rows.map Prod.fst).filter (fun term => (db.vocab.get? term).isNone) :=
          List.mem_filter.mpr ⟨hk ▸ List.mem_map_of_mem hp, by rw [hold]; rfl⟩
        obtain ⟨v, hv, hk'⟩ := hnew term ((List.perm_insertionSort _ _).mem_iff.mpr hmissing)
        exact ⟨v, Table.get?_eq_some.mpr ⟨hv, hk'⟩⟩
    obtain ⟨v, hv⟩ := hterm
    have hk : v.term = term := (Table.get?_eq_some.mp hv).2
    rw [hv, Option.map_some, Option.map_some, if_pos rfl, if_pos, Option.elim_some]
    · exact congrArg db.terms.count hk
    · rw [hk, hcount]
      rfl

private theorem publish_frame (db : Database) (w : Worker) :
    (publish db w).source = db.source ∧ (publish db w).run = none ∧
      (publish db w).stats = some ⟨w.totalDocs, avgdl w.totalLength w.totalDocs, w.tokenizer, w.sourceRevision,
        w.sourceChunkCount⟩ := by
  have hchunks : (publish db w).chunks = db.chunks := (registerAll db _).1
  refine ⟨?_, rfl, rfl⟩
  rw [Database.source, hchunks]
  rfl

/-- With no chunk left, what is published is what one pass counts. -/
theorem Scanned.publish {db : Database} {row : RunRow} {seen : List Chunk} (h : Scanned tokenize db row seen []) :
    ∃ st, Published tokenize (Bm25.publish db (workerOf row)) st ∧ st.tokenizer = row.tokenizer := by
  have hperm : seen.Perm db.source := by
    have hsplit := h.split
    rw [List.append_nil] at hsplit
    exact hsplit ▸ List.perm_insertionSort _ _
  obtain ⟨hsource, -, hstats⟩ := publish_frame db (workerOf row)
  have hdocs : row.totalDocs = docsIn tokenize row.tokenizer db.source := h.totalDocs.trans (hperm.countP_eq _)
  have hlength : row.totalLength = lengthIn tokenize row.tokenizer db.source := by
    rw [h.totalLength, lengthIn, lengthIn]
    exact (hperm.map _).sum_nat
  refine ⟨_, ⟨hstats, fun term => ?_, ?_, ?_, ?_⟩, rfl⟩
  · rw [dfOf_publish, h.df, hsource]
    exact hperm.countP_eq _
  · rw [hsource]
    exact hdocs
  · rw [hsource]
    exact congrArg₂ Bm25.avgdl hlength hdocs
  · rw [hsource, ← hperm.length_eq]
    exact h.sourceChunkCount

/-! ### Runs -/

theorem Scanned.congr {db db' : Database} {row row' : RunRow} {seen rest : List Chunk} (h : Scanned tokenize db row seen rest)
    (hchunks : db'.chunks = db.chunks) (hterms : db'.terms = db.terms) (hrow : workerOf row' = workerOf row) :
    Scanned tokenize db' row' seen rest := by
  have hsource : inOrder db' = inOrder db := by rw [inOrder, Database.source, hchunks]; rfl
  obtain ⟨htokenizer, -, hcount, hdocs, hlength, hcursor⟩ := Worker.mk.inj hrow
  exact ⟨hsource.trans h.split, hcursor.trans h.cursor, by rw [hdocs, htokenizer, h.totalDocs],
    by rw [hlength, htokenizer, h.totalLength], hcount.trans h.sourceChunkCount,
    fun term => by rw [hterms, htokenizer, h.df]⟩

/-- Opening a run leaves the process where the run stands. -/
theorem Consistent.openRun {s : Recompute} (h : Consistent tokenize s) (t : Tokenizer) :
    ∃ seen rest, Scanned tokenize (Bm25.openRun s.db t).1 (Bm25.openRun s.db t).2 seen rest ∧
      (Bm25.openRun s.db t).1.run = some (Bm25.openRun s.db t).2 := by
  unfold Bm25.openRun
  split
  · rename_i row hrow
    obtain ⟨hrun, -⟩ := Option.filter_eq_some_iff.mp hrow
    obtain ⟨seen, rest, hscanned⟩ := h.scanned row hrun
    exact ⟨seen, rest, hscanned.congr rfl rfl rfl, rfl⟩
  · exact ⟨[], _, ⟨rfl, rfl, rfl, rfl, rfl, fun _ => rfl⟩, rfl⟩

/-- What a turn of the loop does: it counts a batch, or publishes behind the last chunk. -/
theorem advance_cases {s s' : Recompute} {n : Nat} (h : Consistent tokenize s)
    (hstep : s.next tokenize (.advance n) = some s') :
    0 < n ∧ ∃ w row seen rest, s.holder = some w ∧ s.db.run = some row ∧ w = workerOf row ∧
      Scanned tokenize s.db row seen rest ∧
      ((rest = [] ∧ s' = ⟨publish s.db w, none⟩) ∨
        (rest ≠ [] ∧ ∃ w' row', s'.holder = some w' ∧ s'.db.run = some row' ∧ w' = workerOf row' ∧
          Scanned tokenize s'.db row' (seen ++ rest.take n) (rest.drop n))) := by
  cases hholder : s.holder with
  | none => simp [Recompute.next, hholder] at hstep
  | some w =>
    cases n with
    | zero => simp [Recompute.next, hholder] at hstep
    | succ n =>
      obtain ⟨row, hrow, rfl⟩ := h.holder w hholder
      obtain ⟨seen, rest, hscanned⟩ := h.scanned row hrow
      refine ⟨Nat.succ_pos n, _, row, seen, rest, rfl, hrow, rfl, hscanned, ?_⟩
      have hfetch : fetchBatch s.db (workerOf row).lastId (n + 1) = rest.take (n + 1) := hscanned.fetchBatch (n + 1)
      simp only [Recompute.next, hholder, hfetch] at hstep
      cases rest with
      | nil => exact Or.inl ⟨rfl, (Option.some.inj hstep).symm⟩
      | cons c rest =>
        refine Or.inr ⟨List.cons_ne_nil _ _, ?_⟩
        obtain ⟨row', hrow', hw', hscanned'⟩ := hscanned.commitBatch hrow (List.cons_ne_nil c (rest.take n))
          (by rw [List.cons_append, List.take_append_drop])
          (countRows_counted (workerOf row) Table.empty (c :: rest.take n))
        cases hstep
        exact ⟨_, row', rfl, hrow', hw', hscanned'⟩

private theorem Consistent.start {s s' : Recompute} (h : Consistent tokenize s) {t : Tokenizer}
    (hstep : s.next tokenize (.start t) = some s') :
    s.holder = none ∧ s'.holder = some (workerOf (Bm25.openRun s.db t).2) ∧ Consistent tokenize s' := by
  cases hholder : s.holder with
  | some w => simp [Recompute.next, hholder] at hstep
  | none =>
    simp only [Recompute.next, hholder] at hstep
    cases hstep
    obtain ⟨seen, rest, hscanned, hrun⟩ := h.openRun t
    refine ⟨rfl, rfl, fun row hrow => ?_, fun w hw => ?_⟩
    · obtain rfl := Option.some.inj (hrun.symm.trans hrow)
      exact ⟨seen, rest, hscanned⟩
    · exact ⟨_, hrun, (Option.some.inj hw).symm⟩

private theorem openRun_chunks (db : Database) (t : Tokenizer) : (openRun db t).1.chunks = db.chunks := by
  unfold openRun
  split <;> rfl

/-- The scan writes no chunk. -/
private theorem step_source {s s' : Recompute} {a : RecomputeAction} (hstep : s.step tokenize a s') :
    s'.db.source = s.db.source := by
  suffices h : s'.db.chunks = s.db.chunks by rw [Database.source, h]; rfl
  unfold Recompute.step Recompute.next at hstep
  split at hstep
  · split at hstep <;> cases hstep
    exact openRun_chunks s.db _
  · split at hstep
    · cases hstep
    · cases hstep
    · split at hstep <;> cases hstep
      · exact (registerAll s.db _).1
      · rfl
  · cases hstep
    rfl
  · cases hstep
    exact (registerTerm_frame s.db _).1

private theorem Consistent.step {s s' : Recompute} {a : RecomputeAction} (h : Consistent tokenize s)
    (hstep : s.step tokenize a s') : Consistent tokenize s' := by
  cases a with
  | start t => exact (h.start hstep).2.2
  | advance n =>
    obtain ⟨-, w, row, seen, rest, hholder, -, rfl, -, ⟨-, rfl⟩ | ⟨-, w', row', hholder', hrow', hw', hscanned'⟩⟩ :=
      advance_cases h hstep
    · exact ⟨fun row hrow => absurd hrow (Option.not_mem_none _), fun w hw => absurd hw (Option.not_mem_none _)⟩
    · refine ⟨fun r hr => ?_, fun w hw => ?_⟩
      · obtain rfl := Option.some.inj (hrow'.symm.trans hr)
        exact ⟨_, _, hscanned'⟩
      · exact ⟨row', hrow', (Option.some.inj (hholder'.symm.trans hw)) ▸ hw'⟩
  | crash =>
    cases hstep
    exact ⟨h.scanned, fun w hw => absurd hw (Option.not_mem_none _)⟩
  | register term =>
    cases hstep
    obtain ⟨hchunks, hrun, hterms⟩ := registerTerm_frame s.db term
    refine ⟨fun row hrow => ?_, fun w hw => ?_⟩
    · obtain ⟨seen, rest, hscanned⟩ := h.scanned row (hrun ▸ hrow)
      exact ⟨seen, rest, hscanned.congr hchunks hterms rfl⟩
    · obtain ⟨row, hrow, hwr⟩ := h.holder w hw
      exact ⟨row, hrun.symm ▸ hrow, hwr⟩

/-- The publication at the end of any turn of the loop. -/
private theorem Consistent.published {s s' : Recompute} {n : Nat} (h : Consistent tokenize s)
    (hstep : s.step tokenize (.advance n) s') (hdone : s'.db.run = none) :
    ∃ w st, s.holder = some w ∧ Published tokenize s'.db st ∧ st.tokenizer = w.tokenizer := by
  obtain ⟨-, w, row, seen, rest, hholder, -, rfl, hscanned, ⟨rfl, rfl⟩ | ⟨-, w', row', -, hrow', -⟩⟩ :=
    advance_cases h hstep
  · obtain ⟨st, hpublished, htokenizer⟩ := hscanned.publish
    exact ⟨_, st, hholder, hpublished, htokenizer⟩
  · cases hdone.symm.trans hrow'

/-- A process that is not interrupted comes to the publication. -/
private theorem Consistent.finishes {s : Recompute} {row : RunRow} {seen rest : List Chunk} {n : Nat} (hn : 0 < n)
    (hrow : s.db.run = some row) (hholder : s.holder = some (workerOf row)) (hscanned : Scanned tokenize s.db row seen rest)
    (h : Consistent tokenize s) :
    ∃ k s' s'', Run (Recompute.step tokenize) s (List.replicate k (.advance n)) s' ∧
      s'.step tokenize (.advance n) s'' ∧ s''.db.run = none := by
  induction hlength : rest.length using Nat.strong_induction_on generalizing s row seen rest with
  | _ m ih =>
    have hsome : ∃ s', s.step tokenize (.advance n) s' := by
      obtain ⟨n, rfl⟩ := Nat.exists_eq_succ_of_ne_zero hn.ne'
      simp only [Recompute.step, Recompute.next, hholder]
      split <;> exact ⟨_, rfl⟩
    obtain ⟨s', hstep⟩ := hsome
    obtain ⟨-, w, row₁, seen₁, rest₁, hholder₁, hrow₁, -, hscanned₁, hend⟩ := advance_cases h hstep
    obtain rfl := Option.some.inj (hrow.symm.trans hrow₁)
    have hlengths : seen₁.length = seen.length := hscanned₁.sourceChunkCount.symm.trans hscanned.sourceChunkCount
    obtain ⟨rfl, rfl⟩ := List.append_inj (hscanned₁.split.symm.trans hscanned.split) hlengths
    rcases hend with ⟨-, rfl⟩ | ⟨hne, w', row', hholder', hrow', rfl, hscanned'⟩
    · exact ⟨0, s, _, .nil s, hstep, rfl⟩
    · have hlt : (rest₁.drop n).length < m := by
        have hpos := List.length_pos_iff.mpr hne
        rw [List.length_drop]
        omega
      obtain ⟨k, t, t', hrun, hlast, hdone⟩ := ih _ hlt hrow' hholder' hscanned' (h.step hstep) rfl
      exact ⟨k + 1, t, t', .cons hstep hrun, hlast, hdone⟩

/-- Whatever the batch sizes, and wherever the processes were interrupted: a publication is that of one pass over
the chunks, and a process that goes on without interruption comes to it. -/
theorem recompute_publishes_one_pass (tokenize : Tokenize) {s t : Recompute} {as : List RecomputeAction}
    (hidle : s.holder = none) (hfresh : s.db.run = none) (hrun : Run (Recompute.step tokenize) s as t) :
    (∀ n u, t.step tokenize (.advance n) u → u.db.run = none →
      ∃ w st, t.holder = some w ∧ Published tokenize u.db st ∧ st.tokenizer = w.tokenizer ∧ u.db.source = s.db.source) ∧
    ∀ k n, 0 < n → ∃ start, (start = [] ∨ start = [.start k]) ∧ ∃ m t' u,
      Run (Recompute.step tokenize) t (start ++ List.replicate m (.advance n)) t' ∧ t'.step tokenize (.advance n) u ∧
        u.db.run = none := by
  have hinv : Consistent tokenize t ∧ t.db.source = s.db.source := by
    refine hrun.invariant (I := fun u => Consistent tokenize u ∧ u.db.source = s.db.source) ?_ ⟨⟨?_, ?_⟩, rfl⟩
    · exact fun u a v h hstep => ⟨h.1.step hstep, (step_source hstep).trans h.2⟩
    · rw [hfresh]
      exact fun row hrow => absurd hrow (Option.not_mem_none _)
    · rw [hidle]
      exact fun w hw => absurd hw (Option.not_mem_none _)
  obtain ⟨h, hsource⟩ := hinv
  constructor
  · intro n u hstep hdone
    obtain ⟨w, st, hholder, hpublished, htokenizer⟩ := h.published hstep hdone
    exact ⟨w, st, hholder, hpublished, htokenizer, (step_source hstep).trans hsource⟩
  · intro k n hn
    cases hholder : t.holder with
    | some w =>
      obtain ⟨row, hrow, rfl⟩ := h.holder w hholder
      obtain ⟨seen, rest, hscanned⟩ := h.scanned row hrow
      exact ⟨[], Or.inl rfl, Consistent.finishes hn hrow hholder hscanned h⟩
    | none =>
      have hstart : t.step tokenize (.start k) ⟨(openRun t.db k).1, some (workerOf (openRun t.db k).2)⟩ := by
        simp only [Recompute.step, Recompute.next, hholder]
      obtain ⟨seen, rest, hscanned, hopen⟩ := h.openRun k
      obtain ⟨m, t', u, hrest, hlast, hdone⟩ := Consistent.finishes hn hopen rfl hscanned (h.step hstart)
      exact ⟨[.start k], Or.inr rfl, m, t', u, .cons hstart hrest, hlast, hdone⟩

/-- Every text is one word. -/
def oneWord : Tokenize := fun _ text => [text]

def kiwi : Tokenizer := ⟨"kiwi", "0.23.1"⟩

/-- Two chunks, and nothing counted yet. -/
def twoChunks : Recompute where
  db := {
    chunks := ⟨[⟨2, some "apple"⟩, ⟨1, some "road"⟩], (by decide : [(2 : Uuid), 1].Nodup)⟩
    corpusRevision := 2
    run := none
    terms := .empty
    vocab := .empty
    nextTermId := 1
    stats := none }
  holder := none

/-- A batch, a crash, the other batch, and the publication. -/
theorem recompute_publishes_resumed : ∃ t u st,
    Run (Recompute.step oneWord) twoChunks [.start kiwi, .advance 1, .crash, .start kiwi, .advance 1] t ∧
      t.step oneWord (.advance 1) u ∧ Published oneWord u.db st := by
  obtain ⟨t, ht⟩ : ∃ t, execute (Recompute.next oneWord) twoChunks
      [.start kiwi, .advance 1, .crash, .start kiwi, .advance 1] = some t := ⟨_, rfl⟩
  obtain ⟨u, hu⟩ : ∃ u, t.next oneWord (.advance 1) = some u := by
    cases ht
    exact ⟨_, rfl⟩
  have hdone : u.db.run = none := by
    cases ht
    cases hu
    rfl
  obtain ⟨w, st, -, hpublished, -⟩ :=
    (recompute_publishes_one_pass oneWord rfl rfl (run_of_execute ht)).1 1 u hu hdone
  exact ⟨t, u, st, run_of_execute ht, hu, hpublished⟩

end Akb.Bm25
