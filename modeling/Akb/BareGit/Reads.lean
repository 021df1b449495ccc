import Akb.BareGit.Runs

/-! Which body the operations read. The recorded commit always holds what was published last; HEAD does
as long as no failed operation has touched the file. -/
namespace Akb.BareGit
open Akb.Library
variable {env : Env}

/-- A document's file in Git, by its standing. -/
def Stands (env : Env) (g : Repo) (path : Path) (body : Text) : Standing → Prop
  | .settled => (g.file path).map (bodyOf env) = some body
  | .displaced newPath => g.file path = none ∧ (g.file newPath).map (bodyOf env) = some body
  | .disturbed => True

/-- The recorded commit of a document holds the body it published last, and HEAD stands as recorded. -/
structure Kept (env : Env) (g : Repo) (record : Record) (row : DocumentRow) : Prop where
  pinned : (g.fileAt row.currentCommit row.path).map (bodyOf env) = some (record.published row.id)
  canonical : PyText.strip (record.published row.id) = record.published row.id
  stands : Stands env g row.path (record.published row.id) (record.standing row.id)

def Sound (env : Env) (w : World) : Prop := ∀ row ∈ w.state.docs, Kept env w.state.repo w.record row

theorem Kept.getBody {g : Repo} {record : Record} {row : DocumentRow} (h : Kept env g record row) :
    getBody env g row = some (record.published row.id) := by
  obtain ⟨content, hfile, hbody⟩ := Option.map_eq_some_iff.mp h.pinned
  rw [BareGit.getBody, Repo.readFile, hfile]
  exact congrArg some hbody

/-- An attempt leaves the files it did not touch, and the history, as they were. -/
structure Frames (g : Repo) (a : Attempt) : Prop where
  grew : g.log <+: a.repo.log
  untouched : ∀ path ∉ a.touched, a.repo.file path = g.file path

theorem Frames.ofWrote {g : Repo} {a : Attempt} {c : CommitHash} {tree : Tree} (h : Wrote g a.repo c tree)
    (ht : ∀ path ∉ a.touched, tree path = g.file path) : Frames g a :=
  ⟨h.grew, fun path hp => (congrFun h.head path).trans (ht path hp)⟩

theorem Frames.refl {g : Repo} {a : Attempt} (h : a.repo = g) : Frames g a :=
  ⟨h ▸ List.prefix_refl _, fun path _ => by rw [h]⟩

theorem shaken_ne {docs : Documents} {touched : List Path} {standing : DocId → Standing} {d : DocId}
    (h : shaken docs touched standing d ≠ .disturbed) :
    shaken docs touched standing d = standing d ∧ (∀ row ∈ docs.find d, row.path ∉ touched) ∧
      ∀ path, standing d = .displaced path → path ∉ touched := by
  unfold shaken at h ⊢
  by_cases hrow : ∃ row ∈ docs.find d, row.path ∈ touched
  · rw [if_pos hrow] at h
    exact absurd rfl h
  · rw [if_neg hrow] at h ⊢
    refine ⟨?_, fun row hr hp => hrow ⟨row, hr, hp⟩, ?_⟩
    · cases hs : standing d with
      | displaced path =>
        rw [hs] at h
        by_cases hp : path ∈ touched
        · simp [hp] at h
        · simp [hp]
      | _ => rfl
    · intro path hs hp
      rw [hs] at h
      simp [hp] at h

/-- An operation of another document shakes a standing at most. -/
theorem Kept.shaken {g : Repo} {record record' : Record} {docs : Documents} {a : Attempt} {row : DocumentRow}
    (h : Kept env g record row) (hrow : row ∈ docs) (hf : Frames g a)
    (hp : record'.published row.id = record.published row.id)
    (hs : record'.standing row.id = shaken docs a.touched record.standing row.id) : Kept env a.repo record' row where
  pinned := by
    obtain ⟨content, hfile, hbody⟩ := Option.map_eq_some_iff.mp h.pinned
    rw [hp, Repo.fileAt_of_prefix hf.grew hfile]
    exact congrArg some hbody
  canonical := by
    rw [hp]
    exact h.canonical
  stands := by
    rw [hp, hs]
    by_cases hd : BareGit.shaken docs a.touched record.standing row.id = .disturbed
    · rw [hd]
      trivial
    · obtain ⟨hsame, hpath, hdisplaced⟩ := shaken_ne hd
      have hown : a.repo.file row.path = g.file row.path :=
        hf.untouched _ (hpath row (Documents.find_eq_some.mpr ⟨hrow, rfl⟩))
      rw [hsame]
      have hstands := h.stands
      cases hst : record.standing row.id with
      | settled =>
        rw [hst] at hstands
        rw [Stands, hown]
        exact hstands
      | displaced newPath =>
        rw [hst] at hstands
        refine ⟨hown.trans hstands.1, ?_⟩
        rw [hf.untouched _ (hdisplaced newPath hst)]
        exact hstands.2
      | disturbed => trivial

/-- What an attempt leaves of its own document: its standing if the attempt fails, and the body that
its row points to and HEAD holds if it commits. -/
structure Leaves (env : Env) (w : World) (op : Op) (a : Attempt) : Prop where
  frames : Frames w.state.repo a
  onFailure : ∀ row ∈ w.state.docs, row.id = op.docId → op.isPut = false →
    Stands env a.repo row.path (w.record.published op.docId) (standingOnFailure w.record a op)
  canonical : PyText.strip (publishes w.record.published op) = publishes w.record.published op
  onCommit : ∀ docs, a.docs = some docs → ∀ row ∈ docs, (row ∈ w.state.docs ∧ row.id ≠ op.docId) ∨
    (row.id = op.docId ∧
      (a.repo.fileAt row.currentCommit row.path).map (bodyOf env) = some (publishes w.record.published op) ∧
      (a.repo.file row.path).map (bodyOf env) = some (publishes w.record.published op))

/-- Storing a row whose commit is the new HEAD and holds the body at the row's path. -/
theorem committed_rows (row : DocumentRow) {docs docs' : Documents} {d : DocId} {g g' : Repo} {tree : Tree} {body : Text}
    (hw : Wrote g g' row.currentCommit tree) (hd : row.id = d) (hbody : (tree row.path).map (bodyOf env) = some body)
    (h : docs.put? row = some docs') : ∀ r ∈ docs', (r ∈ docs ∧ r.id ≠ d) ∨
      (r.id = d ∧ (g'.fileAt r.currentCommit r.path).map (bodyOf env) = some body ∧
        (g'.file r.path).map (bodyOf env) = some body) := by
  intro r hr
  rcases (Documents.mem_put? h).mp hr with rfl | ⟨hmem, hid⟩
  · rw [hw.atCommit, hw.head]
    exact Or.inr ⟨hd, hbody, hbody⟩
  · exact Or.inl ⟨hmem, hd ▸ hid⟩

theorem put_leaves (law : env.Lawful) {w : World} {d : DocId} {req : PutRequest} {basePath : Path} {explicitSlug : Bool}
    {agentId : Option Text} {now : Text} {a : Attempt}
    (h : put env w.state.repo w.state.docs d req basePath explicitSlug agentId now = .ok a) :
    Leaves env w (.put d req basePath explicitSlug agentId now) a := by
  rw [put] at h
  split at h
  · cases h
  · cases h
    set path := resolveFreePath w.state.docs basePath d none
    have hw := Repo.wrote_commitFile w.state.repo path
      (env.dumps ((buildFrontmatter req now).setText "created_by" (truthy agentId)) req.content)
    refine ⟨Frames.ofWrote hw ?_, ?_, PyText.strip_strip _, ?_⟩
    · intro p hp
      exact Function.update_of_ne (fun he => hp (List.mem_singleton.mpr he)) _ _
    · intro row _ _ hput
      cases hput
    · intro docs' hdocs
      refine committed_rows _ hw rfl ?_ (Documents.create?_eq_some hdocs).2
      rw [Function.update_self, Option.map_some, bodyOf_dumps law]
      rfl

/-- A settled document's file is at HEAD with the published body. -/
theorem Kept.settled {g : Repo} {record : Record} {row : DocumentRow} (h : Kept env g record row)
    (hs : record.standing row.id = .settled) :
    ∃ content, g.file row.path = some content ∧ bodyOf env content = record.published row.id := by
  have hstands := h.stands
  rw [hs] at hstands
  exact Option.map_eq_some_iff.mp hstands

theorem update_leaves (law : env.Lawful) {w : World} {row : DocumentRow} {req : UpdateRequest} {now : Text} {a : Attempt}
    (hk : Kept env w.state.repo w.record row) (hrow : row ∈ w.state.docs) (hs : w.record.standing row.id = .settled)
    (h : update env w.state.repo w.state.docs row req now = .ok a) :
    a.read = some (w.record.published row.id) ∧ Leaves env w (.update row.id req now) a := by
  obtain ⟨content, hfile, hbody⟩ := hk.settled hs
  rw [update] at h
  split at h
  · cases h
  · simp only [Repo.readFile, hfile, parseMarkdown_snd, hbody] at h
    split at h
    · cases h
    · cases h
      set fm := mergeUpdate (parseMarkdown env content (documentRowFrontmatter row)).1 req now
      have hw := Repo.wrote_commitFile w.state.repo row.path (env.dumps fm (req.content.getD (w.record.published row.id)))
      have hnew : PyText.strip (req.content.getD (w.record.published row.id)) =
          publishes w.record.published (.update row.id req now) := by
        rw [publishes]
        cases req.content with
        | none => exact hk.canonical
        | some c => rfl
      have hhead : (Function.update w.state.repo.file row.path
          (some (env.dumps fm (req.content.getD (w.record.published row.id)))) row.path).map (bodyOf env) =
            some (publishes w.record.published (.update row.id req now)) := by
        rw [Function.update_self, Option.map_some, bodyOf_dumps law, hnew]
      refine ⟨rfl, Frames.ofWrote hw ?_, ?_, ?_, ?_⟩
      · intro p hp
        exact Function.update_of_ne (fun he => hp (List.mem_singleton.mpr he)) _ _
      · intro r hr hid _
        obtain rfl := Table.eq_of_key hr hrow hid
        rw [standingOnFailure]
        split
        · rename_i hsame
          rw [Op.docId, hs, Stands, hw.head, hhead, hsame]
        · trivial
      · rw [← hnew, PyText.strip_strip]
      · intro docs' hdocs
        exact committed_rows (row.updated req now _) hw rfl hhead hdocs

theorem edit_leaves (law : env.Lawful) {w : World} {row : DocumentRow} {req : EditRequest} {now : Text} {a : Attempt}
    (hk : Kept env w.state.repo w.record row) (hrow : row ∈ w.state.docs) (hs : w.record.standing row.id = .settled)
    (h : edit env w.state.repo w.state.docs row req now = .ok a) :
    a.read = some (w.record.published row.id) ∧ Leaves env w (.edit row.id req now) a := by
  obtain ⟨content, hfile, hbody⟩ := hk.settled hs
  rw [edit] at h
  split at h
  · cases h
  · simp only [Repo.readFile, hfile, parseMarkdown_snd, hbody] at h
    split at h
    · cases h
    · rename_i newBody hedit
      have hnew : PyText.strip newBody = publishes w.record.published (.edit row.id req now) := by
        rw [publishes, hedit]
        rfl
      have hcanonical : PyText.strip (publishes w.record.published (.edit row.id req now)) =
          publishes w.record.published (.edit row.id req now) := by
        rw [← hnew, PyText.strip_strip]
      split at h
      · rename_i hsame
        cases h
        have hpub : publishes w.record.published (.edit row.id req now) = w.record.published row.id := by
          rw [← hnew, hsame, hk.canonical]
        refine ⟨rfl, Frames.refl rfl, ?_, hcanonical, ?_⟩
        · intro r hr hid _
          obtain rfl := Table.eq_of_key hr hrow hid
          rw [standingOnFailure, if_pos hpub]
          exact hk.stands
        · intro docs' hdocs r hr
          cases hdocs
          by_cases hid : r.id = row.id
          · obtain rfl := Table.eq_of_key hr hrow hid
            rw [hpub, hfile]
            exact Or.inr ⟨rfl, hk.pinned, congrArg some hbody⟩
          · exact Or.inl ⟨hr, hid⟩
      · cases h
        set fm := (parseMarkdown env content (documentRowFrontmatter row)).1.set "updated_at" (.text now)
        have hw := Repo.wrote_commitFile w.state.repo row.path (env.dumps fm newBody)
        have hhead : (Function.update w.state.repo.file row.path (some (env.dumps fm newBody)) row.path).map (bodyOf env) =
            some (publishes w.record.published (.edit row.id req now)) := by
          rw [Function.update_self, Option.map_some, bodyOf_dumps law, hnew]
        refine ⟨rfl, Frames.ofWrote hw ?_, ?_, hcanonical, ?_⟩
        · intro p hp
          exact Function.update_of_ne (fun he => hp (List.mem_singleton.mpr he)) _ _
        · intro r hr hid _
          obtain rfl := Table.eq_of_key hr hrow hid
          rw [standingOnFailure]
          split
          · rename_i hsame
            rw [Op.docId, hs, Stands, hw.head, hhead, hsame]
          · trivial
        · intro docs' hdocs
          exact committed_rows { row with updatedAt := now, currentCommit := _ } hw rfl hhead hdocs

end Akb.BareGit
