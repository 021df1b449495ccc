import Mathlib.Logic.Function.Basic
import Mathlib.Data.List.Infix

/-! The Git repository of a vault: commits of whole trees with one branch, and the four operations
on single files that the document service uses. -/
namespace Akb.BareGit

abbrev Text := List Char

abbrev Path := Text

/-- A commit is named by its place in the history. -/
abbrev CommitHash := Nat

/-- The text of each file of a commit. -/
abbrev Tree := Path → Option Text

/-- The trees of the commits of a vault, oldest first; HEAD is the last one. -/
structure Repo where
  log : List Tree

namespace Repo
variable (g : Repo)

/-- `None` for a repository without a commit. -/
def currentCommit : Option CommitHash :=
  match g.log.length with
  | 0 => none
  | n + 1 => some n

/-- The file at a commit. -/
def fileAt (c : CommitHash) (path : Path) : Option Text := g.log[c]?.bind (fun tree => tree path)

/-- The file at HEAD. -/
def file (path : Path) : Option Text := g.log.getLast?.bind (fun tree => tree path)

/-- `read_file`: at a commit, a path the commit does not hold is followed back through renames. -/
def readFile (pathAtRevision : Repo → Path → CommitHash → Option Path) (path : Path) : Option CommitHash → Option Text
  | none => g.file path
  | some c => (g.fileAt c path).orElse fun _ => (pathAtRevision g path c).bind (g.fileAt c)

/-- Advance the branch to a new commit of `tree`. -/
def commit (tree : Tree) : Repo × CommitHash := (⟨g.log ++ [tree]⟩, g.log.length)

/-- `commit_file`: a tree that equals its parent's is not committed again. -/
def commitFile (path : Path) (content : Text) : Repo × CommitHash :=
  match g.currentCommit with
  | none => g.commit (Function.update (fun _ => none) path (some content))
  | some head =>
    if g.file path = some content then (g, head)
    else g.commit (Function.update g.file path (some content))

inductive GitError where
  | fileNotFound
  | fileExists
  | samePath
  deriving DecidableEq, Repr

/-- `delete_file` -/
def deleteFile (path : Path) : Except GitError (Repo × CommitHash) :=
  match g.file path with
  | none => .error .fileNotFound
  | some _ => .ok (g.commit (Function.update g.file path none))

/-- `move_file` -/
def moveFile (oldPath newPath : Path) : Except GitError (Repo × CommitHash) :=
  if oldPath = newPath then .error .samePath
  else match g.file oldPath with
    | none => .error .fileNotFound
    | some content =>
      if (g.file newPath).isSome then .error .fileExists
      else .ok (g.commit (Function.update (Function.update g.file oldPath none) newPath (some content)))

end Repo

/-- From `g` to `g'` the history only grew, and its head, whose tree is `tree`, is the commit `c`. -/
structure Wrote (g g' : Repo) (c : CommitHash) (tree : Tree) : Prop where
  grew : g.log <+: g'.log
  head : g'.file = tree
  atCommit : g'.fileAt c = tree

namespace Repo
variable {g g' : Repo}

theorem fileAt_of_prefix (h : g.log <+: g'.log) {c : CommitHash} {path : Path} {text : Text}
    (hf : g.fileAt c path = some text) : g'.fileAt c path = some text := by
  obtain ⟨more, hmore⟩ := h
  obtain ⟨tree, htree, hpath⟩ := Option.bind_eq_some_iff.mp hf
  rw [fileAt, ← hmore, List.getElem?_append_left (List.getElem?_eq_some_iff.mp htree).1, htree]
  exact hpath

theorem wrote_commit (g : Repo) (tree : Tree) : Wrote g (g.commit tree).1 (g.commit tree).2 tree where
  grew := List.prefix_append _ _
  head := by
    funext path
    simp [file, commit]
  atCommit := by
    funext path
    simp [fileAt, commit]

theorem currentCommit_eq_some {head : CommitHash} (h : g.currentCommit = some head) : g.log.length = head + 1 := by
  rw [currentCommit] at h
  split at h
  · cases h
  · rename_i n hn
    cases h
    exact hn

theorem fileAt_head {head : CommitHash} (h : g.currentCommit = some head) : g.fileAt head = g.file := by
  funext path
  rw [fileAt, file, List.getLast?_eq_getElem?, currentCommit_eq_some h, Nat.add_sub_cancel]

theorem wrote_head {head : CommitHash} (h : g.currentCommit = some head) : Wrote g g head g.file :=
  ⟨List.prefix_refl _, rfl, fileAt_head h⟩

theorem file_of_empty (h : g.currentCommit = none) : g.file = fun _ => none := by
  funext path
  have hlog : g.log = [] := by
    rw [currentCommit] at h
    split at h
    · exact List.length_eq_zero_iff.mp ‹_›
    · cases h
  simp [file, hlog]

theorem wrote_commitFile (g : Repo) (path : Path) (content : Text) :
    Wrote g (g.commitFile path content).1 (g.commitFile path content).2 (Function.update g.file path (some content)) := by
  rw [commitFile]
  split
  · rename_i hnone
    rw [file_of_empty hnone]
    exact wrote_commit g _
  · rename_i head hhead
    split
    · rename_i hsame
      rw [← hsame, Function.update_eq_self]
      exact wrote_head hhead
    · exact wrote_commit g _

theorem deleteFile_ok {path : Path} {c : CommitHash} (h : g.deleteFile path = .ok (g', c)) :
    Wrote g g' c (Function.update g.file path none) := by
  rw [deleteFile] at h
  split at h
  · cases h
  · cases h
    exact wrote_commit g _

theorem deleteFile_error {path : Path} {e : GitError} (h : g.deleteFile path = .error e) : g.file path = none := by
  rw [deleteFile] at h
  split at h
  · assumption
  · cases h

theorem moveFile_ok {oldPath newPath : Path} {c : CommitHash} (h : g.moveFile oldPath newPath = .ok (g', c)) :
    oldPath ≠ newPath ∧ ∃ content, g.file oldPath = some content ∧ g.file newPath = none ∧
      Wrote g g' c (Function.update (Function.update g.file oldPath none) newPath (some content)) := by
  rw [moveFile] at h
  split at h
  · cases h
  · rename_i hne
    split at h
    · cases h
    · rename_i content hold
      split at h
      · cases h
      · rename_i hnew
        cases h
        exact ⟨hne, content, hold, Option.not_isSome_iff_eq_none.mp hnew, wrote_commit g _⟩

/-- A missing source is the only reason for which a move reports a missing file. -/
theorem moveFile_fileNotFound {oldPath newPath : Path} (hne : oldPath ≠ newPath) :
    g.moveFile oldPath newPath = .error .fileNotFound ↔ g.file oldPath = none := by
  rw [moveFile, if_neg hne]
  split
  · rename_i hold
    exact iff_of_true rfl hold
  · rename_i content hold
    rw [hold]
    split <;> simp

end Repo
end Akb.BareGit
