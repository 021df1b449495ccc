import Akb.BareGit.PublishedReads

/-! The chunks that search reads. A committed write leaves the chunks of the document as it then is,
where an update that rewrites no chunks also changes nothing that their header shows. -/
namespace Akb.BareGit
open Akb.Library
variable {env : Env}

/-- What the header shows of the row is what the update shows of it: an update with a text does not
empty the title or the type, one without a text changes no field of the header. -/
def HeaderKept (row : DocumentRow) (req : UpdateRequest) : Prop :=
  if req.content.isSome then (req.title = some [] → row.title = []) ∧ (req.type = some [] → row.docType = [])
  else (∀ t ∈ req.title, t = row.title) ∧ (∀ t ∈ req.summary, truthy (some t) = truthy row.summary) ∧
    (∀ t ∈ req.tags, t = row.tags) ∧ ∀ t ∈ req.type, t = row.docType

instance (row : DocumentRow) (req : UpdateRequest) : Decidable (HeaderKept row req) := by
  unfold HeaderKept
  infer_instance

/-- The operation commits, and if it is an update it keeps the header of its document. -/
def Reindexes (env : Env) (w : World) (c : Call) : Prop :=
  (result env w.state c).isCommitted ∧
    match c.op with
    | .update d req _ => ∀ row ∈ w.state.docs.find d, HeaderKept row req
    | _ => True

instance (w : World) (c : Call) : Decidable (Reindexes env w c) :=
  match c with
  | ⟨.put .., _⟩ => inferInstanceAs (Decidable (_ ∧ True))
  | ⟨.update d req _, _⟩ => inferInstanceAs (Decidable (_ ∧ ∀ row ∈ w.state.docs.find d, HeaderKept row req))
  | ⟨.edit .., _⟩ => inferInstanceAs (Decidable (_ ∧ True))
  | ⟨.move .., _⟩ => inferInstanceAs (Decidable (_ ∧ True))
  | ⟨.delete _, _⟩ => inferInstanceAs (Decidable (_ ∧ True))

theorem header_congr {vault path title : Text} {summary summary' : Option Text} {tags : List Text} {docType : Text}
    (h : truthy summary = truthy summary') : buildDocMetadataHeader vault path title summary tags docType =
      buildDocMetadataHeader vault path title summary' tags docType := by
  rw [buildDocMetadataHeader, buildDocMetadataHeader, h]

theorem truthy_getD {value : Option Text} {old : Text} (h : value = some [] → old = []) :
    (truthy value).getD old = value.getD old := by
  match value with
  | none => rfl
  | some [] => exact h rfl
  | some (c :: s) => rfl

theorem getD_of_forall {α : Type} {value : Option α} {old : α} (h : ∀ t ∈ value, t = old) : value.getD old = old := by
  cases value with
  | none => rfl
  | some t => exact h t rfl

theorem updateHeader_of_content {row : DocumentRow} {req : UpdateRequest} (hc : req.content.isSome)
    (h : HeaderKept row req) (now : Text) (commit : CommitHash) :
    updateHeader env row req = (row.updated req now commit).header env := by
  rw [HeaderKept, if_pos hc] at h
  rw [updateHeader, DocumentRow.header, DocumentRow.updated, truthy_getD h.1, truthy_getD h.2]

theorem header_updated {row : DocumentRow} {req : UpdateRequest} (hc : req.content.isSome = false)
    (h : HeaderKept row req) (now : Text) (commit : CommitHash) :
    (row.updated req now commit).header env = row.header env := by
  rw [HeaderKept, hc, if_neg Bool.false_ne_true] at h
  obtain ⟨htitle, hsummary, htags, htype⟩ := h
  rw [DocumentRow.header, DocumentRow.updated, getD_of_forall htitle, getD_of_forall htags, getD_of_forall htype]
  apply header_congr
  cases hs : req.summary with
  | none => rfl
  | some t => exact hsummary t hs

theorem update_ok {g : Repo} {docs : Documents} {row : DocumentRow} {req : UpdateRequest} {now : Text} {a : Attempt}
    (h : update env g docs row req now = .ok a) : a.touched = [row.path] ∧ ∃ body commit, a.read = some body ∧
      a.docs = docs.put? (row.updated req now commit) ∧
      a.chunks = req.content.map fun c => env.chunkMarkdown c (updateHeader env row req) := by
  rw [update] at h
  split at h
  · cases h
  · split at h
    · cases h
    · dsimp only at h
      split at h
      · cases h
      · cases h
        refine ⟨rfl, _, _, rfl, rfl, ?_⟩
        cases req.content <;> rfl

theorem edit_ok {g : Repo} {docs : Documents} {row : DocumentRow} {req : EditRequest} {now : Text} {a : Attempt}
    (h : edit env g docs row req now = .ok a) : ∃ body newBody, a.read = some body ∧ editBody req body = .ok newBody ∧
      ((newBody = body ∧ a.touched = [] ∧ a.docs = some docs ∧ a.chunks = none) ∨
        ∃ commit, a.touched = [row.path] ∧ a.docs = docs.put? { row with updatedAt := now, currentCommit := commit } ∧
          a.chunks = some (env.chunkMarkdown newBody (row.header env))) := by
  rw [edit] at h
  split at h
  · cases h
  · split at h
    · cases h
    · dsimp only at h
      split at h
      · cases h
      · rename_i newBody hedit
        split at h
        · rename_i hsame
          cases h
          exact ⟨_, newBody, rfl, hedit, Or.inl ⟨hsame, rfl, rfl, rfl⟩⟩
        · cases h
          exact ⟨_, newBody, rfl, hedit, Or.inr ⟨_, rfl, rfl, rfl⟩⟩

/-- What a committed operation does to the index: it touches no file of another document, and either
stores the chunks of the document as it leaves it, or leaves the text and the header as they were. -/
structure Reindexed (env : Env) (w : World) (op : Op) (a : Attempt) (docs : Documents) : Prop where
  apart : ∀ row ∈ w.state.docs, row.id ≠ op.docId → row.path ∉ a.touched
  chunks : ∀ row ∈ docs, row.id = op.docId →
    (∃ body, PyText.strip body = publishes w.record.published op ∧ a.chunks = some (env.chunkMarkdown body (row.header env))) ∨
    (a.chunks = none ∧ publishes w.record.published op = w.record.published op.docId ∧
      ∃ old ∈ w.state.docs, old.id = op.docId ∧ old.header env = row.header env)

/-- The own row of an operation that stores `row`. -/
theorem row_stored {docs docs' : Documents} {row r : DocumentRow} (h : docs.put? row = some docs') (hr : r ∈ docs')
    (hid : r.id = row.id) : r = row :=
  ((Documents.mem_put? h).mp hr).resolve_right (fun hold => hold.2 hid)

theorem own_path {docs : Documents} {row r : DocumentRow} (hrow : row ∈ docs) (hr : r ∈ docs) (hid : r.id ≠ row.id) :
    r.path ∉ [row.path] := by
  rw [List.mem_singleton]
  exact fun hp => hid (congrArg DocumentRow.id (docs.onePath r hr row hrow hp))

theorem put_reindexed {w : World} {d : DocId} {req : PutRequest} {basePath : Path} {explicitSlug : Bool}
    {agentId : Option Text} {now : Text} {a : Attempt} {docs' : Documents}
    (h : put env w.state.repo w.state.docs d req basePath explicitSlug agentId now = .ok a) (hd : a.docs = some docs') :
    Reindexed env w (.put d req basePath explicitSlug agentId now) a docs' := by
  rw [put] at h
  split at h
  · cases h
  · cases h
    have hput := (Documents.create?_eq_some hd).2
    constructor
    · intro r hr hid
      rw [List.mem_singleton]
      exact fun hp => hid (Documents.put?_free hput r hr hp)
    · intro r hr hid
      rw [row_stored hput hr hid]
      exact Or.inl ⟨req.content, rfl, rfl⟩

theorem update_reindexed {w : World} {row : DocumentRow} {req : UpdateRequest} {now : Text} {a : Attempt} {docs' : Documents}
    (hrow : row ∈ w.state.docs) (hkept : HeaderKept row req)
    (h : update env w.state.repo w.state.docs row req now = .ok a) (hd : a.docs = some docs') :
    Reindexed env w (.update row.id req now) a docs' := by
  obtain ⟨htouched, body, commit, -, hdocs, hchunks⟩ := update_ok h
  have hput := hdocs.symm.trans hd
  constructor
  · intro r hr hid
    rw [htouched]
    exact own_path hrow hr hid
  · intro r hr hid
    rw [row_stored hput hr hid, hchunks, publishes]
    cases hc : req.content with
    | some c =>
      refine Or.inl ⟨c, rfl, ?_⟩
      rw [← updateHeader_of_content (by rw [hc]; rfl) hkept now commit]
      rfl
    | none =>
      refine Or.inr ⟨rfl, rfl, row, hrow, rfl, ?_⟩
      rw [header_updated (by rw [hc]; rfl) hkept now commit]

theorem edit_reindexed {w : World} {row : DocumentRow} {req : EditRequest} {now : Text} {a : Attempt} {docs' : Documents}
    (hrow : row ∈ w.state.docs) (hread : a.read = some (w.record.published row.id))
    (hcanonical : PyText.strip (w.record.published row.id) = w.record.published row.id)
    (h : edit env w.state.repo w.state.docs row req now = .ok a) (hd : a.docs = some docs') :
    Reindexed env w (.edit row.id req now) a docs' := by
  obtain ⟨body, newBody, hbody, hedit, hcase⟩ := edit_ok h
  obtain rfl := Option.some.inj (hbody.symm.trans hread)
  have hnew : publishes w.record.published (.edit row.id req now) = PyText.strip newBody := by
    rw [publishes, hedit]
    rfl
  rcases hcase with ⟨hsame, htouched, hdocs, hchunks⟩ | ⟨commit, htouched, hdocs, hchunks⟩
  · obtain rfl := Option.some.inj (hdocs.symm.trans hd)
    refine ⟨fun r _ _ => htouched ▸ List.not_mem_nil, fun r hr hid => ?_⟩
    obtain rfl := Table.eq_of_key hr hrow hid
    exact Or.inr ⟨hchunks, by rw [hnew, hsame, hcanonical]; rfl, r, hr, rfl, rfl⟩
  · have hput := hdocs.symm.trans hd
    constructor
    · intro r hr hid
      rw [htouched]
      exact own_path hrow hr hid
    · intro r hr hid
      rw [row_stored hput hr hid]
      exact Or.inl ⟨newBody, hnew.symm, hchunks⟩

theorem move_reindexed {w : World} {row : DocumentRow} {basePath : Path} {explicitSlug : Bool} {now : Text} {a : Attempt}
    {docs' : Documents} (hrow : row ∈ w.state.docs) (hk : Kept env w.state.repo w.record row)
    (hs : w.record.standing row.id = .settled) (hread : a.read = some (w.record.published row.id))
    (h : move env w.state.repo w.state.docs row basePath explicitSlug now = .ok a) (hd : a.docs = some docs') :
    Reindexed env w (.move row.id basePath explicitSlug now) a docs' := by
  obtain ⟨g', commit, touched, hne, hgit, -, rfl, -, hdocs, hchunks⟩ := move_ok h
  obtain ⟨content, hfile, -⟩ := hk.settled hs
  have hput := hdocs.symm.trans hd
  constructor
  · intro r hr hid
    rw [(moveInGit_settled hfile hgit).1, List.mem_pair, not_or]
    refine ⟨?_, fun hp => hid (Documents.put?_free hput r hr hp)⟩
    exact fun hp => own_path hrow hr hid (List.mem_singleton.mpr hp)
  · intro r hr hid
    rw [row_stored hput hr hid]
    refine Or.inl ⟨w.record.published row.id, hk.canonical, ?_⟩
    rw [hchunks, hread]
    rfl

theorem delete_reindexed {w : World} {row : DocumentRow} {docs' : Documents} (hrow : row ∈ w.state.docs)
    (hd : (delete w.state.repo w.state.docs row).docs = some docs') :
    Reindexed env w (.delete row.id) (delete w.state.repo w.state.docs row) docs' := by
  constructor
  · intro r hr hid
    rw [delete]
    split
    · exact own_path hrow hr hid
    · exact List.not_mem_nil
  · intro r hr hid
    obtain rfl := Option.some.inj hd
    exact absurd hid (Documents.mem_remove.mp hr).2

/-- A world without failed operations, whose chunks are those of the published bodies. -/
structure InStep (env : Env) (w : World) : Prop where
  sound : Sound env w
  settled : ∀ d, w.record.standing d = .settled
  indexed : ∀ row ∈ w.state.docs, ∃ body, PyText.strip body = w.record.published row.id ∧
    w.state.chunks row.id = env.chunkMarkdown body (row.header env)

theorem InStep.undisturbed {w : World} (hw : InStep env w) (c : Call) : Undisturbed w c := by
  obtain ⟨op, fate⟩ := c
  cases op with
  | put => trivial
  | update d => exact hw.settled d
  | edit d => exact hw.settled d
  | move d => exact Or.inl (hw.settled d)
  | delete => trivial

theorem attempt_reindexed (law : env.Lawful) {w : World} {c : Call} {a : Attempt} {docs : Documents} (hw : InStep env w)
    (hc : Reindexes env w c) (h : attempt env w.state c.op = .ok a) (hd : a.docs = some docs) :
    Reindexed env w c.op a docs := by
  obtain ⟨op, fate⟩ := c
  cases op with
  | put d req basePath explicitSlug agentId now => exact put_reindexed h hd
  | update d req now =>
    obtain ⟨row, hrow, rfl, hok⟩ := onDocument_ok h
    exact update_reindexed hrow (hc.2 row (Documents.find_eq_some.mpr ⟨hrow, rfl⟩)) hok hd
  | edit d req now =>
    obtain ⟨row, hrow, rfl, hok⟩ := onDocument_ok h
    have hk := hw.sound row hrow
    exact edit_reindexed hrow (edit_leaves law hk hrow (hw.settled _) hok).1 hk.canonical hok hd
  | move d basePath explicitSlug now =>
    obtain ⟨row, hrow, rfl, hok⟩ := onDocument_ok h
    have hk := hw.sound row hrow
    exact move_reindexed hrow hk (hw.settled _) (move_leaves hk hrow (Or.inl (hw.settled _)) hok).1 hok hd
  | delete d =>
    obtain ⟨row, hrow, rfl, hok⟩ := onDocument_ok h
    cases hok
    exact delete_reindexed hrow hd

theorem exists_of_isCommitted {o : Outcome} (h : o.isCommitted) : ∃ a docs, o = .committed a docs := by
  cases o with
  | committed a docs => exact ⟨a, docs, rfl⟩
  | _ => cases h

theorem shaken_settled {docs : Documents} {touched : List Path} {standing : DocId → Standing} {d : DocId}
    (hs : standing d = .settled) (hp : ∀ row ∈ docs.find d, row.path ∉ touched) : shaken docs touched standing d = .settled := by
  rw [shaken, if_neg, hs]
  rintro ⟨row, hrow, hpath⟩
  exact hp row hrow hpath

theorem InStep.step (law : env.Lawful) {w : World} {c : Call} (hw : InStep env w) (hc : Reindexes env w c) :
    InStep env (w.step env c) := by
  have hsound := hw.sound.step law (hw.undisturbed c)
  obtain ⟨a, docs, hres⟩ := exists_of_isCommitted hc.1
  obtain ⟨hok, hdocs, -⟩ := outcome_committed hres
  have hl := attempt_leaves law hw.sound (hw.undisturbed c) hok
  have hindex := attempt_reindexed law hw hc hok hdocs
  refine ⟨hsound, ?_, ?_⟩
  · intro d
    rw [World.step, hres]
    by_cases hid : d = c.op.docId
    · subst hid
      exact Function.update_self ..
    · refine (Function.update_of_ne hid _ _).trans (shaken_settled (hw.settled d) ?_)
      intro row hrow
      obtain ⟨hmem, rfl⟩ := Documents.find_eq_some.mp hrow
      exact hindex.apart row hmem hid
  · intro row hrow
    rw [World.step, hres] at hrow ⊢
    change ∃ body, PyText.strip body = Function.update w.record.published c.op.docId _ row.id ∧ _
    rcases hl.onCommit docs hdocs row hrow with ⟨hmem, hid⟩ | ⟨hid, -, -⟩
    · obtain ⟨body, hbody, hchunks⟩ := hw.indexed row hmem
      refine ⟨body, hbody.trans (Function.update_of_ne hid _ _).symm, ?_⟩
      rw [VaultState.next]
      split
      · exact hchunks
      · exact (Function.update_of_ne hid _ _).trans hchunks
    · rw [hid, Function.update_self]
      rcases hindex.chunks row hrow hid with ⟨body, hbody, hchunks⟩ | ⟨hchunks, hsame, old, hold, holdId, hheader⟩
      · refine ⟨body, hbody, ?_⟩
        simp only [VaultState.next, hchunks, Function.update_self]
      · obtain ⟨body, hbody, hstored⟩ := hw.indexed old hold
        rw [holdId] at hbody hstored
        refine ⟨body, hbody.trans hsame.symm, ?_⟩
        simp only [VaultState.next, hchunks]
        rw [hstored, hheader]

end Akb.BareGit
