import Akb.BareGit.Reads
import Akb.BareGit.Documents

/-! Every document read is a read of what was published last, in each run whose updates, edits and
moves are of documents that no failed operation has disturbed. -/
namespace Akb.BareGit
open Akb.Library
variable {env : Env}

theorem moveInGit_settled {g g' : Repo} {oldPath newPath : Path} {commit : CommitHash} {touched : List Path}
    {content : Text} (hfile : g.file oldPath = some content)
    (h : moveInGit env g oldPath newPath = .ok (g', commit, touched)) :
    touched = [oldPath, newPath] ∧ oldPath ≠ newPath ∧
      Wrote g g' commit (Function.update (Function.update g.file oldPath none) newPath (some content)) := by
  rw [moveInGit] at h
  split at h
  · rename_i hmove
    cases h
    obtain ⟨hne, content', hold, _, hw⟩ := Repo.moveFile_ok hmove
    obtain rfl := Option.some.inj (hold.symm.trans hfile)
    exact ⟨rfl, hne, hw⟩
  · rename_i hmove
    by_cases hne : oldPath = newPath
    · simp [Repo.moveFile, hne] at hmove
    · rw [(Repo.moveFile_fileNotFound hne).mp hmove] at hfile
      cases hfile
  · cases h

/-- A move that was done in Git before is taken up again where HEAD is. -/
theorem moveInGit_displaced (env : Env) {g : Repo} {oldPath newPath : Path} {content : Text} (hne : oldPath ≠ newPath)
    (hold : g.file oldPath = none) (hnew : g.file newPath = some content) :
    ∃ head, g.currentCommit = some head ∧ moveInGit env g oldPath newPath = .ok (g, head, []) := by
  cases hhead : g.currentCommit with
  | none =>
    rw [Repo.file_of_empty hhead] at hnew
    cases hnew
  | some head =>
    refine ⟨head, rfl, ?_⟩
    simp only [moveInGit, (Repo.moveFile_fileNotFound hne).mpr hold, hhead, Repo.readFile, hnew]

theorem move_ok {g : Repo} {docs : Documents} {row : DocumentRow} {basePath : Path} {explicitSlug : Bool} {now : Text}
    {a : Attempt} (h : move env g docs row basePath explicitSlug now = .ok a) :
    ∃ g' commit touched,
      resolveFreePath docs basePath row.id (some row.id) ≠ row.path ∧
      moveInGit env g row.path (resolveFreePath docs basePath row.id (some row.id)) = .ok (g', commit, touched) ∧
      a.repo = g' ∧ a.touched = touched ∧
      a.read = (g'.file (resolveFreePath docs basePath row.id (some row.id))).map (bodyOf env) ∧
      a.docs = docs.put? { row with
        path := resolveFreePath docs basePath row.id (some row.id), updatedAt := now, currentCommit := commit } ∧
      a.chunks = some ((a.read.map fun body => env.chunkMarkdown body (DocumentRow.header env
        { row with path := resolveFreePath docs basePath row.id (some row.id) })).getD []) := by
  rw [move] at h
  split at h
  · cases h
  · rename_i hne
    split at h
    · cases h
    · split at h
      · cases h
      · rename_i g' commit touched hgit
        cases h
        exact ⟨g', commit, touched, fun he => hne (Or.inr he), hgit, rfl, rfl, rfl, rfl, rfl⟩

/-- A move of a settled document, or one that takes up again the move that displaced it. -/
theorem move_leaves {w : World} {row : DocumentRow} {basePath : Path} {explicitSlug : Bool} {now : Text} {a : Attempt}
    (hk : Kept env w.state.repo w.record row) (hrow : row ∈ w.state.docs)
    (hs : w.record.standing row.id = .settled ∨
      w.record.standing row.id = .displaced (resolveFreePath w.state.docs basePath row.id (some row.id)))
    (h : move env w.state.repo w.state.docs row basePath explicitSlug now = .ok a) :
    a.read = some (w.record.published row.id) ∧ Leaves env w (.move row.id basePath explicitSlug now) a := by
  obtain ⟨g', commit, touched, hne, hgit, rfl, rfl, hread, hdocs, -⟩ := move_ok h
  set newPath := resolveFreePath w.state.docs basePath row.id (some row.id) with hpath
  rcases hs with hs | hs
  · obtain ⟨content, hfile, hbody⟩ := hk.settled hs
    obtain ⟨htouched, -, hw⟩ := moveInGit_settled hfile hgit
    have hhead : (Function.update (Function.update w.state.repo.file row.path none) newPath (some content) newPath).map
        (bodyOf env) = some (w.record.published row.id) := by
      rw [Function.update_self, Option.map_some, hbody]
    refine ⟨by rw [hread, hw.head, hhead], Frames.ofWrote hw ?_, ?_, hk.canonical, ?_⟩
    · intro p hp
      rw [htouched, List.mem_pair, not_or] at hp
      rw [Function.update_of_ne hp.2, Function.update_of_ne hp.1]
    · intro r hr hid _
      obtain rfl := Table.eq_of_key hr hrow hid
      rw [standingOnFailure, htouched, Op.docId, Stands, hw.head]
      refine ⟨?_, hhead⟩
      rw [Function.update_of_ne hne.symm, Function.update_self]
    · intro docs' hd
      exact committed_rows { row with path := newPath, updatedAt := now, currentCommit := commit } hw rfl hhead
        (hdocs ▸ hd)
  · have hstands := hk.stands
    rw [hs] at hstands
    obtain ⟨hold, hnew⟩ := hstands
    obtain ⟨content, hfile, hbody⟩ := Option.map_eq_some_iff.mp hnew
    obtain ⟨head, hhead, htaken⟩ := moveInGit_displaced env hne.symm hold hfile
    obtain ⟨hrepo, hrest⟩ := Prod.mk.inj (Except.ok.inj (htaken.symm.trans hgit))
    obtain ⟨rfl, htouched⟩ := Prod.mk.inj hrest
    refine ⟨by rw [hread, ← hrepo, hnew], Frames.refl hrepo.symm, ?_, hk.canonical, ?_⟩
    · intro r hr hid _
      obtain rfl := Table.eq_of_key hr hrow hid
      rw [standingOnFailure, ← htouched, ← hrepo]
      exact hk.stands
    · intro docs' hd
      have hw : Wrote w.state.repo a.repo head w.state.repo.file := by
        rw [← hrepo]
        exact Repo.wrote_head hhead
      exact committed_rows { row with path := newPath, updatedAt := now, currentCommit := head } hw rfl hnew (hdocs ▸ hd)

theorem delete_leaves {w : World} {row : DocumentRow} (hk : Kept env w.state.repo w.record row) (hrow : row ∈ w.state.docs) :
    Leaves env w (.delete row.id) (delete w.state.repo w.state.docs row) := by
  have hrows : ∀ docs, some (w.state.docs.remove row.id) = some docs → ∀ r ∈ docs, r ∈ w.state.docs ∧ r.id ≠ row.id := by
    intro docs hdocs r hr
    cases hdocs
    exact Documents.mem_remove.mp hr
  rw [delete]
  split
  · rename_i g' c hgit
    refine ⟨Frames.ofWrote (Repo.deleteFile_ok hgit) ?_, ?_, hk.canonical, fun docs hdocs r hr => Or.inl (hrows docs hdocs r hr)⟩
    · intro p hp
      exact Function.update_of_ne (fun he => hp (List.mem_singleton.mpr he)) _ _
    · intro r _ _ _
      rw [standingOnFailure, if_neg (List.cons_ne_nil _ _)]
      trivial
  · refine ⟨Frames.refl rfl, ?_, hk.canonical, fun docs hdocs r hr => Or.inl (hrows docs hdocs r hr)⟩
    intro r hr hid _
    obtain rfl := Table.eq_of_key hr hrow hid
    rw [standingOnFailure, if_pos rfl]
    exact hk.stands

theorem onDocument_ok {docs : Documents} {d : DocId} {f : DocumentRow → Except Refusal Attempt} {a : Attempt}
    (h : onDocument docs d f = .ok a) : ∃ row ∈ docs, row.id = d ∧ f row = .ok a := by
  rw [onDocument] at h
  split at h
  · cases h
  · rename_i row hfind
    obtain ⟨hmem, hid⟩ := Documents.find_eq_some.mp hfind
    exact ⟨row, hmem, hid, h⟩

theorem attempt_leaves (law : env.Lawful) {w : World} {c : Call} {a : Attempt} (hw : Sound env w) (hu : Undisturbed w c)
    (h : attempt env w.state c.op = .ok a) : Leaves env w c.op a := by
  obtain ⟨op, fate⟩ := c
  cases op with
  | put d req basePath explicitSlug agentId now => exact put_leaves law h
  | update d req now =>
    obtain ⟨row, hrow, rfl, hok⟩ := onDocument_ok h
    exact (update_leaves law (hw row hrow) hrow hu hok).2
  | edit d req now =>
    obtain ⟨row, hrow, rfl, hok⟩ := onDocument_ok h
    exact (edit_leaves law (hw row hrow) hrow hu hok).2
  | move d basePath explicitSlug now =>
    obtain ⟨row, hrow, rfl, hok⟩ := onDocument_ok h
    exact (move_leaves (hw row hrow) hrow hu hok).2
  | delete d =>
    obtain ⟨row, hrow, rfl, hok⟩ := onDocument_ok h
    cases hok
    exact delete_leaves (hw row hrow) hrow

theorem outcome_failed {fate : Fate} {x : Except Refusal Attempt} {a : Attempt} (h : outcome fate x = .failed a) :
    x = .ok a := by
  cases x with
  | error e => cases h
  | ok b => cases fate <;> cases hb : b.docs <;> simp_all [outcome]

theorem outcome_committed {fate : Fate} {x : Except Refusal Attempt} {a : Attempt} {docs : Documents}
    (h : outcome fate x = .committed a docs) : x = .ok a ∧ a.docs = some docs ∧ fate = .committed := by
  cases x with
  | error e => cases h
  | ok b => cases fate <;> cases hb : b.docs <;> simp_all [outcome]

/-- One operation keeps what each recorded commit and each settled file hold. -/
theorem Sound.step (law : env.Lawful) {w : World} {c : Call} (hw : Sound env w) (hu : Undisturbed w c) :
    Sound env (w.step env c) := by
  intro row hrow
  rw [World.step] at hrow ⊢
  cases hres : result env w.state c with
  | refused =>
    rw [hres] at hrow
    exact hw row hrow
  | failed a =>
    rw [hres] at hrow
    change row ∈ w.state.docs at hrow
    have hl := attempt_leaves law hw hu (outcome_failed hres)
    have hkept := hw row hrow
    cases hput : c.op.isPut with
    | true =>
      refine hkept.shaken hrow hl.frames rfl ?_
      simp only [Record.next, hput, if_true]
    | false =>
      by_cases hid : row.id = c.op.docId
      · have hshaken : Kept env a.repo ⟨w.record.published, shaken w.state.docs a.touched w.record.standing⟩ row :=
          hkept.shaken hrow hl.frames rfl rfl
        refine ⟨hshaken.pinned, hshaken.canonical, ?_⟩
        have hfail := hl.onFailure row hrow hid hput
        simp only [Record.next, hput, Bool.false_eq_true, if_false, hid, Function.update_self]
        exact hfail
      · refine hkept.shaken hrow hl.frames rfl ?_
        rw [Record.next, hput, if_neg Bool.false_ne_true]
        exact Function.update_of_ne hid _ _
  | committed a docs =>
    rw [hres] at hrow
    obtain ⟨hok, hdocs, -⟩ := outcome_committed hres
    have hl := attempt_leaves law hw hu hok
    rcases hl.onCommit docs hdocs row hrow with ⟨hmem, hid⟩ | ⟨hid, hpinned, hhead⟩
    · refine (hw row hmem).shaken hmem hl.frames ?_ ?_
      · exact Function.update_of_ne hid _ _
      · exact Function.update_of_ne hid _ _
    · rw [Record.next]
      refine ⟨?_, ?_, ?_⟩ <;> simp only [hid, Function.update_self]
      · exact hpinned
      · exact hl.canonical
      · exact hhead

def docA : DocId := List.replicate 32 'a'

/-- What get serves for the document, its recorded commit, and what committed operations published. -/
def World.served (w : World) : Option (Text × CommitHash × Text) :=
  (w.state.docs.find docA).bind fun row =>
    (getBody plainEnv w.state.repo row).map fun body => (body, row.currentCommit, w.record.published docA)

end Akb.BareGit
