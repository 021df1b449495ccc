import Akb.BareGit.Documents
import Akb.Library.Run

/-! Put, update, edit, move and delete of the document service over a bare Git repository: what each
writes to Git, and the rows and chunks its transaction then leaves. -/
namespace Akb.BareGit
open Akb.Library

structure PutRequest where
  title : Text
  content : Text
  type : Text
  status : Text
  tags : List Text
  domain : Option Text
  summary : Option Text
  dependsOn : List Text
  relatedTo : List Text

structure UpdateRequest where
  content : Option Text
  title : Option Text
  type : Option Text
  status : Option Text
  tags : Option (List Text)
  domain : Option Text
  summary : Option Text
  dependsOn : Option (List Text)
  relatedTo : Option (List Text)
  expectedCommit : Option CommitHash
  expectedContentHash : Option Text

structure EditRequest where
  oldString : Text
  newString : Text
  replaceAll : Bool
  baseCommit : Option CommitHash

inductive Refusal where
  | documentNotFound
  | fileNotFound
  | pathTaken
  | noMove
  | commitMoved
  | contentHashMoved
  | emptyOldString
  | oldStringNotFound
  | oldStringRepeated (occurrences : Nat)
  | git (e : Repo.GitError)
  deriving DecidableEq, Repr

/-- What an operation that passed its checks has done before its transaction commits: the repository
behind its Git commit with the paths this wrote, the body it read there, and the rows and chunks of the
transaction. A transaction without rows cannot commit; one without chunks leaves the stored ones. -/
structure Attempt where
  repo : Repo
  touched : List Path
  read : Option Text
  docs : Option Documents
  chunks : Option (List Chunk)

/-- `_resolve_free_path` -/
def resolveFreePath (docs : Documents) (basePath : Path) (docId : DocId) (selfId : Option DocId) : Path :=
  let free (path : Path) : Bool :=
    match docs.findByPath path with
    | none => true
    | some row => selfId = some row.id
  let stem := if ".md".toList <:+ basePath then basePath.take (basePath.length - 3) else basePath
  let suffixed (n : Nat) : Path := stem ++ ['-'] ++ docId.take n ++ ".md".toList
  if free basePath then basePath
  else (([8, 12, 16, docId.length].map suffixed).find? free).getD (suffixed docId.length)

/-- The summary that `_build_frontmatter` writes. -/
def frontmatterSummary (req : PutRequest) : Option Text := (truthy req.summary).orElse fun _ => deriveSummary req.content

/-- `_build_frontmatter` -/
def buildFrontmatter (req : PutRequest) (now : Text) : FrontMatter :=
  let fm : FrontMatter :=
    [("title", .text req.title), ("type", .text req.type), ("status", .text req.status), ("created_at", .text now),
     ("updated_at", .text now), ("tags", .texts req.tags)]
  let fm := (fm.setText "domain" (truthy req.domain)).setText "summary" (frontmatterSummary req)
  let fm := if req.dependsOn = [] then fm else fm.set "depends_on" (.texts req.dependsOn)
  if req.relatedTo = [] then fm else fm.set "related_to" (.texts req.relatedTo)

/-- `put` -/
def put (env : Env) (g : Repo) (docs : Documents) (docId : DocId) (req : PutRequest) (basePath : Path)
    (explicitSlug : Bool) (agentId : Option Text) (now : Text) : Except Refusal Attempt :=
  if (docs.findByPath basePath).isSome ∧ explicitSlug then .error .pathTaken
  else
    let filePath := resolveFreePath docs basePath docId none
    let fm := (buildFrontmatter req now).setText "created_by" (truthy agentId)
    let written := g.commitFile filePath (env.dumps fm req.content)
    let row : DocumentRow :=
      { id := docId, path := filePath, title := req.title, docType := req.type, status := req.status
        summary := (truthy (frontmatterSummary req)).orElse fun _ => req.summary, domain := req.domain, tags := req.tags
        createdAt := now, updatedAt := now, createdBy := agentId, currentCommit := written.2 }
    .ok
      { repo := written.1, touched := [filePath], read := none, docs := docs.create? row
        chunks := some (env.chunkMarkdown req.content (row.header env)) }

/-- The text an update leaves in the frontmatter it read. -/
def mergeUpdate (fm : FrontMatter) (req : UpdateRequest) (now : Text) : FrontMatter :=
  let fm := ((fm.setText "title" (truthy req.title)).setText "type" (truthy req.type)).setText "status" (truthy req.status)
  let fm := ((fm.setTexts "tags" req.tags).setText "domain" req.domain).setText "summary" req.summary
  ((fm.setTexts "depends_on" req.dependsOn).setTexts "related_to" req.relatedTo).set "updated_at" (.text now)

/-- `doc_repo.update`: `COALESCE` keeps the column of each omitted field. -/
def DocumentRow.updated (row : DocumentRow) (req : UpdateRequest) (now : Text) (commit : CommitHash) : DocumentRow :=
  { row with
    title := req.title.getD row.title, docType := req.type.getD row.docType, status := req.status.getD row.status
    summary := req.summary.orElse fun _ => row.summary, domain := req.domain.orElse fun _ => row.domain
    tags := req.tags.getD row.tags, updatedAt := now, currentCommit := commit }

/-- The header of the chunks that an update writes, from the request's fields and the row's. -/
def updateHeader (env : Env) (row : DocumentRow) (req : UpdateRequest) : Text :=
  buildDocMetadataHeader env.vault row.path ((truthy req.title).getD row.title)
    (req.summary.orElse fun _ => row.summary) (req.tags.getD row.tags) ((truthy req.type).getD row.docType)

/-- `update` of the document in `row` -/
def update (env : Env) (g : Repo) (docs : Documents) (row : DocumentRow) (req : UpdateRequest) (now : Text) :
    Except Refusal Attempt :=
  if ∃ c ∈ req.expectedCommit, row.currentCommit ≠ c then .error .commitMoved
  else
    match g.readFile env.pathAtRevision row.path none with
    | none => .error .fileNotFound
    | some content =>
      let current := parseMarkdown env content (documentRowFrontmatter row)
      if ∃ h ∈ req.expectedContentHash, h ≠ env.hash current.2 then .error .contentHashMoved
      else
        let newBody := req.content.getD current.2
        let written := g.commitFile row.path (env.dumps (mergeUpdate current.1 req now) newBody)
        .ok
          { repo := written.1, touched := [row.path], read := some current.2
            docs := docs.put? (row.updated req now written.2)
            chunks := req.content.map fun _ => env.chunkMarkdown newBody (updateHeader env row req) }

/-- The body an edit asks for. -/
def editBody (req : EditRequest) (body : Text) : Except Refusal Text :=
  if req.oldString = [] then .error .emptyOldString
  else
    let occurrences := PyReplace.count req.oldString body
    if occurrences = 0 then .error .oldStringNotFound
    else if 1 < occurrences ∧ req.replaceAll = false then .error (.oldStringRepeated occurrences)
    else if req.replaceAll then .ok (PyReplace.replaceAll req.oldString req.newString body)
    else .ok (PyReplace.replaceOne req.oldString req.newString body)

/-- `edit` of the document in `row` -/
def edit (env : Env) (g : Repo) (docs : Documents) (row : DocumentRow) (req : EditRequest) (now : Text) :
    Except Refusal Attempt :=
  if ∃ c ∈ req.baseCommit, row.currentCommit ≠ c then .error .commitMoved
  else
    match g.readFile env.pathAtRevision row.path none with
    | none => .error .fileNotFound
    | some content =>
      let current := parseMarkdown env content (documentRowFrontmatter row)
      match editBody req current.2 with
      | .error e => .error e
      | .ok newBody =>
        if newBody = current.2 then
          .ok { repo := g, touched := [], read := some current.2, docs := some docs, chunks := none }
        else
          let written := g.commitFile row.path (env.dumps (current.1.set "updated_at" (.text now)) newBody)
          .ok
            { repo := written.1, touched := [row.path], read := some current.2
              docs := docs.put? { row with updatedAt := now, currentCommit := written.2 }
              chunks := some (env.chunkMarkdown newBody (row.header env)) }

/-- The Git half of `move`: where the source is missing and the target is there, an earlier move has
done it, and its commit is taken to be HEAD. -/
def moveInGit (env : Env) (g : Repo) (oldPath newPath : Path) : Except Refusal (Repo × CommitHash × List Path) :=
  match g.moveFile oldPath newPath with
  | .ok (g', commit) => .ok (g', commit, [oldPath, newPath])
  | .error .fileNotFound =>
    match g.currentCommit, g.readFile env.pathAtRevision newPath none with
    | some head, some _ => .ok (g, head, [])
    | _, _ => .error (.git .fileNotFound)
  | .error e => .error (.git e)

/-- `move` of the document in `row` towards `baseNewPath` -/
def move (env : Env) (g : Repo) (docs : Documents) (row : DocumentRow) (baseNewPath : Path) (explicitSlug : Bool)
    (now : Text) : Except Refusal Attempt :=
  let newPath := resolveFreePath docs baseNewPath row.id (some row.id)
  if baseNewPath = row.path ∨ newPath = row.path then .error .noMove
  else if explicitSlug ∧ newPath ≠ baseNewPath then .error .pathTaken
  else
    match moveInGit env g row.path newPath with
    | .error e => .error e
    | .ok (g', commit, touched) =>
      let moved : DocumentRow := { row with path := newPath, updatedAt := now, currentCommit := commit }
      let body := (g'.readFile env.pathAtRevision newPath none).map (bodyOf env)
      .ok
        { repo := g', touched, read := body, docs := docs.put? moved
          chunks := some ((body.map fun b => env.chunkMarkdown b (moved.header env)).getD []) }

/-- `delete` of the document in `row`; a file that is gone already is passed over. -/
def delete (g : Repo) (docs : Documents) (row : DocumentRow) : Attempt :=
  let written := match g.deleteFile row.path with
    | .ok (g', _) => (g', [row.path])
    | .error _ => (g, [])
  { repo := written.1, touched := written.2, read := none, docs := some (docs.remove row.id), chunks := some [] }

/-- `get`: the body is read at the row's recorded commit. -/
def getBody (env : Env) (g : Repo) (row : DocumentRow) : Option Text :=
  (g.readFile env.pathAtRevision row.path (some row.currentCommit)).map (bodyOf env)

/-! Runs of the document service on one vault. Each operation is refused, or fails between its Git
commit and the commit of its transaction, or commits; beside the vault runs the record of what the
committed operations published. -/
inductive Op where
  | put (docId : DocId) (req : PutRequest) (basePath : Path) (explicitSlug : Bool) (agentId : Option Text) (now : Text)
  | update (docId : DocId) (req : UpdateRequest) (now : Text)
  | edit (docId : DocId) (req : EditRequest) (now : Text)
  | move (docId : DocId) (baseNewPath : Path) (explicitSlug : Bool) (now : Text)
  | delete (docId : DocId)

def Op.docId : Op → DocId
  | .put d .. => d
  | .update d .. => d
  | .edit d .. => d
  | .move d .. => d
  | .delete d => d

/-- How far an operation gets: refused by a check, or failed, before its Git commit; failed behind
it, so that its transaction rolls back; or through to the commit of its transaction. -/
inductive Fate where
  | beforeGit
  | afterGit
  | committed
  deriving DecidableEq, Repr

structure VaultState where
  repo : Repo
  docs : Documents
  chunks : DocId → List Chunk

def VaultState.start : VaultState := ⟨⟨[]⟩, Documents.empty, fun _ => []⟩

/-- An operation on a live document, found by its id. -/
def onDocument (docs : Documents) (docId : DocId) (f : DocumentRow → Except Refusal Attempt) : Except Refusal Attempt :=
  match docs.find docId with
  | none => .error .documentNotFound
  | some row => f row

def attempt (env : Env) (s : VaultState) : Op → Except Refusal Attempt
  | .put d req basePath explicitSlug agentId now => put env s.repo s.docs d req basePath explicitSlug agentId now
  | .update d req now => onDocument s.docs d fun row => update env s.repo s.docs row req now
  | .edit d req now => onDocument s.docs d fun row => edit env s.repo s.docs row req now
  | .move d basePath explicitSlug now => onDocument s.docs d fun row => move env s.repo s.docs row basePath explicitSlug now
  | .delete d => onDocument s.docs d fun row => .ok (delete s.repo s.docs row)

inductive Outcome where
  | refused
  | failed (a : Attempt)
  | committed (a : Attempt) (docs : Documents)

def Outcome.isCommitted : Outcome → Bool
  | .committed .. => true
  | _ => false

/-- A constraint of the database also fails an operation behind its Git commit. -/
def outcome (fate : Fate) : Except Refusal Attempt → Outcome
  | .error _ => .refused
  | .ok a =>
    match fate, a.docs with
    | .beforeGit, _ => .refused
    | .afterGit, _ => .failed a
    | .committed, none => .failed a
    | .committed, some docs => .committed a docs

structure Call where
  op : Op
  fate : Fate

def result (env : Env) (s : VaultState) (c : Call) : Outcome := outcome c.fate (attempt env s c.op)

/-- Git keeps what it committed, whatever becomes of the transaction. -/
def VaultState.next (s : VaultState) (docId : DocId) : Outcome → VaultState
  | .refused => s
  | .failed a => { s with repo := a.repo }
  | .committed a docs =>
    { repo := a.repo, docs
      chunks := match a.chunks with
        | none => s.chunks
        | some chunks => Function.update s.chunks docId chunks }

/-- Where the file of a live document stands in Git beside what its row says: it holds the published
body; a failed move took it to another path; or a failed operation changed or removed it. -/
inductive Standing where
  | settled
  | displaced (path : Path)
  | disturbed
  deriving DecidableEq, Repr

/-- What the committed operations published for each document, and where failed ones left its file. -/
structure Record where
  published : DocId → Text
  standing : DocId → Standing

/-- The body an operation publishes when it commits, from the one published before. -/
def publishes (published : DocId → Text) : Op → Text
  | .put _ req .. => PyText.strip req.content
  | .update d req _ => (req.content.map PyText.strip).getD (published d)
  | .edit d req _ => ((editBody req (published d)).toOption.map PyText.strip).getD (published d)
  | .move d .. => published d
  | .delete d => published d

/-- A write at `touched` disturbs each document whose row or whose displaced file is there. -/
def shaken (docs : Documents) (touched : List Path) (standing : DocId → Standing) (d : DocId) : Standing :=
  if ∃ row ∈ docs.find d, row.path ∈ touched then .disturbed
  else match standing d with
    | .displaced path => if path ∈ touched then .disturbed else .displaced path
    | other => other

/-- The standing of an operation's own document when the operation failed behind its Git commit. -/
def standingOnFailure (record : Record) (a : Attempt) : Op → Standing
  | .put d .. => record.standing d
  | .update d req now => if publishes record.published (.update d req now) = record.published d then record.standing d else .disturbed
  | .edit d req now => if publishes record.published (.edit d req now) = record.published d then record.standing d else .disturbed
  | .move d .. =>
    match a.touched with
    | [_, newPath] => .displaced newPath
    | _ => record.standing d
  | .delete d => if a.touched = [] then record.standing d else .disturbed

def Op.isPut : Op → Bool
  | .put .. => true
  | _ => false

def Record.next (record : Record) (docs : Documents) (op : Op) : Outcome → Record
  | .refused => record
  | .failed a =>
    let others := shaken docs a.touched record.standing
    { record with standing := if op.isPut then others else Function.update others op.docId (standingOnFailure record a op) }
  | .committed a _ =>
    { published := Function.update record.published op.docId (publishes record.published op)
      standing := Function.update (shaken docs a.touched record.standing) op.docId .settled }

structure World where
  state : VaultState
  record : Record

def World.start : World := ⟨VaultState.start, ⟨fun _ => [], fun _ => .settled⟩⟩

def World.step (env : Env) (w : World) (c : Call) : World :=
  ⟨w.state.next c.op.docId (result env w.state c), w.record.next w.state.docs c.op (result env w.state c)⟩

/-- The operation is of no document whose file a failed operation has left changed in Git; a move may
take up again the move that failed. -/
def Undisturbed (w : World) (c : Call) : Prop :=
  match c.op with
  | .update d _ _ => w.record.standing d = .settled
  | .edit d _ _ => w.record.standing d = .settled
  | .move d basePath _ _ => w.record.standing d = .settled ∨
      w.record.standing d = .displaced (resolveFreePath w.state.docs basePath d (some d))
  | _ => True

instance (w : World) : (c : Call) → Decidable (Undisturbed w c)
  | ⟨.put .., _⟩ => inferInstanceAs (Decidable True)
  | ⟨.update d _ _, _⟩ => inferInstanceAs (Decidable (w.record.standing d = .settled))
  | ⟨.edit d _ _, _⟩ => inferInstanceAs (Decidable (w.record.standing d = .settled))
  | ⟨.move d basePath _ _, _⟩ => inferInstanceAs (Decidable (w.record.standing d = .settled ∨
      w.record.standing d = .displaced (resolveFreePath w.state.docs basePath d (some d))))
  | ⟨.delete _, _⟩ => inferInstanceAs (Decidable True)

end Akb.BareGit
