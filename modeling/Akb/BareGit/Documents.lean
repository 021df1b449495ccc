import Akb.Library.PyText
import Akb.Library.Table
import Akb.Library.PyReplace
import Akb.BareGit.Repository

/-! The rows of a vault's documents, the Markdown that a write stores in Git, and the text that
search indexes. -/
namespace Akb.BareGit
open Akb.Library

/-- A document's id, by its hex digits. -/
abbrev DocId := Text

structure DocumentRow where
  id : DocId
  path : Path
  title : Text
  docType : Text
  status : Text
  summary : Option Text
  domain : Option Text
  tags : List Text
  createdAt : Text
  updatedAt : Text
  createdBy : Option Text
  currentCommit : CommitHash
  deriving DecidableEq, Repr

/-- `documents` with its primary key and `UNIQUE (vault_id, path)`. -/
structure Documents where
  rows : Table DocumentRow DocumentRow.id
  onePath : ∀ r ∈ rows, ∀ s ∈ rows, r.path = s.path → r = s

namespace Documents
variable (docs : Documents)

def empty : Documents := ⟨Table.empty, fun _ h => absurd h (Table.not_mem_empty _)⟩

instance : Membership DocumentRow Documents := ⟨fun docs r => r ∈ docs.rows⟩

def find (id : DocId) : Option DocumentRow := docs.rows.get? id

def findByPath (path : Path) : Option DocumentRow := docs.rows.rows.find? (fun r => r.path = path)

/-- Store `row` under its id; `none` where another document holds its path. -/
def put? (row : DocumentRow) : Option Documents :=
  if h : ∀ r ∈ docs.rows.rows, r.path = row.path → r.id = row.id then
    some ⟨docs.rows.upsert row, by
      have hother (r : DocumentRow) (hr : r ∈ docs.rows ∧ r.id ≠ row.id) : r.path ≠ row.path :=
        fun hp => hr.2 (h r hr.1 hp)
      intro r hr s hs hp
      rcases Table.mem_upsert.mp hr with rfl | hr
      · rcases Table.mem_upsert.mp hs with rfl | hs
        · rfl
        · exact absurd hp.symm (hother s hs)
      · rcases Table.mem_upsert.mp hs with rfl | hs
        · exact absurd hp (hother r hr)
        · exact docs.onePath r hr.1 s hs.1 hp⟩
  else none

/-- `create`: a new row, refused where its id or its path is taken. -/
def create? (row : DocumentRow) : Option Documents :=
  if (docs.find row.id).isSome then none else docs.put? row

def remove (id : DocId) : Documents where
  rows := docs.rows.deleteWhere (fun r => r.id = id)
  onePath r hr s hs := docs.onePath r (Table.mem_deleteWhere.mp hr).1 s (Table.mem_deleteWhere.mp hs).1

variable {docs}

theorem find_eq_some {id : DocId} {r : DocumentRow} : docs.find id = some r ↔ r ∈ docs ∧ r.id = id := Table.get?_eq_some

theorem mem_put? {docs' : Documents} {row r : DocumentRow} (h : docs.put? row = some docs') :
    r ∈ docs' ↔ r = row ∨ (r ∈ docs ∧ r.id ≠ row.id) := by
  rw [put?] at h
  split at h
  · cases h
    exact Table.mem_upsert
  · cases h

theorem put?_free {docs' : Documents} {row : DocumentRow} (h : docs.put? row = some docs') :
    ∀ r ∈ docs, r.path = row.path → r.id = row.id := by
  rw [put?] at h
  split at h
  · rename_i hfree
    exact hfree
  · cases h

theorem create?_eq_some {docs' : Documents} {row : DocumentRow} (h : docs.create? row = some docs') :
    docs.find row.id = none ∧ docs.put? row = some docs' := by
  rw [create?] at h
  split at h
  · cases h
  · exact ⟨Option.not_isSome_iff_eq_none.mp ‹_›, h⟩

theorem mem_remove {id : DocId} {r : DocumentRow} : r ∈ docs.remove id ↔ r ∈ docs ∧ r.id ≠ id := by
  change r ∈ docs.rows.deleteWhere _ ↔ _
  rw [Table.mem_deleteWhere, decide_eq_false_iff_not]
  rfl

end Documents

/-- A value of a document's frontmatter. -/
inductive FmValue where
  | text (value : Text)
  | texts (values : List Text)
  deriving DecidableEq, Repr

/-- A frontmatter dictionary, in insertion order. -/
abbrev FrontMatter := List (String × FmValue)

/-- `fm[key] = value` -/
def FrontMatter.set (fm : FrontMatter) (key : String) (value : FmValue) : FrontMatter :=
  if fm.any (fun e => e.1 = key) then fm.map (fun e => if e.1 = key then (key, value) else e)
  else fm ++ [(key, value)]

def FrontMatter.setText (fm : FrontMatter) (key : String) : Option Text → FrontMatter
  | none => fm
  | some value => fm.set key (.text value)

def FrontMatter.setTexts (fm : FrontMatter) (key : String) : Option (List Text) → FrontMatter
  | none => fm
  | some values => fm.set key (.texts values)

/-- `value or None`: the empty text counts as absent. -/
def truthy : Option Text → Option Text
  | some (c :: s) => some (c :: s)
  | _ => none

structure Chunk where
  sectionPath : Text
  content : Text
  deriving DecidableEq, Repr

/-- What the document service calls outside this model: the frontmatter library, the content hash,
the rename search of Git and the chunker. -/
structure Env where
  vault : Text
  loads : Text → Option (FrontMatter × Text)
  dumps : FrontMatter → Text → Text
  hash : Text → Text
  pathAtRevision : Repo → Path → CommitHash → Option Path
  chunkMarkdown : Text → Text → List Chunk

/-- The frontmatter library reads back the body it wrote, without the blanks around it. -/
def Env.Lawful (env : Env) : Prop := ∀ fm body, ∃ fm', env.loads (env.dumps fm body) = some (fm', PyText.strip body)

/-- `\r?\n` -/
def newline : Text → Option Text
  | '\r' :: '\n' :: s => some s
  | '\n' :: s => some s
  | _ => none

def fence : Text := "---".toList

/-- What is behind a leading `---`. -/
def behindFence (s : Text) : Option Text := if fence <+: s then some (s.drop fence.length) else none

/-- `\r?\n---(?:\r?\n|\Z)` -/
def closingFence (s : Text) : Option Text :=
  ((newline s).bind behindFence).bind fun rest => if rest = [] then some [] else newline rest

/-- The text behind the first closing fence. -/
def untilClosing : Text → Option Text
  | [] => none
  | c :: s => (closingFence (c :: s)).orElse fun _ => untilClosing s

/-- One complete leading frontmatter envelope is cut off. -/
def stripEnvelope (content : Text) : Text := (((behindFence content).bind newline).bind untilClosing).getD content

/-- `_parse_markdown` -/
def parseMarkdown (env : Env) (content : Text) (fallbackMetadata : FrontMatter) : FrontMatter × Text :=
  match env.loads content with
  | some post => post
  | none => (fallbackMetadata, stripEnvelope content)

/-- The body of a stored file. -/
def bodyOf (env : Env) (content : Text) : Text := (parseMarkdown env content []).2

theorem parseMarkdown_snd (env : Env) (content : Text) (fm : FrontMatter) :
    (parseMarkdown env content fm).2 = bodyOf env content := by
  rw [bodyOf, parseMarkdown, parseMarkdown]
  split <;> rfl

theorem bodyOf_dumps {env : Env} (law : env.Lawful) (fm : FrontMatter) (body : Text) :
    bodyOf env (env.dumps fm body) = PyText.strip body := by
  obtain ⟨fm', h⟩ := law fm body
  rw [bodyOf, parseMarkdown, h]

/-- `_document_row_frontmatter` -/
def documentRowFrontmatter (row : DocumentRow) : FrontMatter :=
  let fm : FrontMatter :=
    [("title", .text row.title), ("type", .text ((truthy (some row.docType)).getD "note".toList)),
     ("status", .text ((truthy (some row.status)).getD "draft".toList)), ("tags", .texts row.tags),
     ("created_at", .text row.createdAt), ("updated_at", .text row.updatedAt)]
  ((fm.setText "created_by" row.createdBy).setText "domain" row.domain).setText "summary" row.summary

/-- `build_doc_metadata_header` -/
def buildDocMetadataHeader (vault path title : Text) (summary : Option Text) (tags : List Text) (docType : Text) : Text :=
  let lines := ["TITLE: ".toList ++ title] ++
    ((truthy summary).map ("SUMMARY: ".toList ++ ·)).toList ++
    (if tags = [] then [] else ["TAGS: ".toList ++ (", ".toList).intercalate tags]) ++
    ["PATH: ".toList ++ vault ++ ['/'] ++ path] ++
    ((truthy (some docType)).map ("TYPE: ".toList ++ ·)).toList
  ['\n'].intercalate lines ++ ['\n', '\n']

/-- The header of a document as its row describes it. -/
def DocumentRow.header (env : Env) (row : DocumentRow) : Text :=
  buildDocMetadataHeader env.vault row.path row.title row.summary row.tags row.docType

/-- `derive_summary`: the first paragraph line, at most 200 characters of it. -/
def deriveSummary (markdown : Text) : Option Text :=
  let stripped := (markdown.splitOn '\n').map PyText.strip
  let skipped : List Text := ["#".toList, "---".toList, "|".toList, "\x60\x60\x60".toList]
  (stripped.find? (fun line => line ≠ [] ∧ ∀ p ∈ skipped, ¬ p <+: line)).map (List.take 200)

end Akb.BareGit

/-! A frontmatter library that writes one line for each entry and keeps the law of the service's own. -/
namespace Akb.BareGit
open Akb.Library

/-- One line of frontmatter. -/
def entryLine (e : String × FmValue) : Text :=
  e.1.toList.filter (· ≠ '\n') ++ ": ".toList ++
    match e.2 with
    | .text value => value.filter (· ≠ '\n')
    | .texts values => "[".toList ++ ((", ".toList).intercalate values).filter (· ≠ '\n') ++ "]".toList

def readEntry (line : Text) : String × FmValue :=
  let value := (line.dropWhile (· ≠ ':')).drop 2
  (String.ofList (line.takeWhile (· ≠ ':')),
    match value with
    | '[' :: items => .texts (if items = [']'] then [] else [items.dropLast])
    | _ => .text value)

def plainDumps (fm : FrontMatter) (body : Text) : Text :=
  ['\n'].intercalate (fence :: fm.map entryLine ++ [fence]) ++ '\n' :: '\n' :: PyText.strip body

def plainLoads (content : Text) : Option (FrontMatter × Text) :=
  match content.splitOn '\n' with
  | [] => some ([], [])
  | first :: rest =>
    if first = fence then
      some ((rest.takeWhile (· ≠ fence)).map readEntry,
        PyText.strip (['\n'].intercalate ((rest.dropWhile (· ≠ fence)).drop 1)))
    else some ([], PyText.strip content)

def plainEnv : Env where
  vault := ['v']
  loads := plainLoads
  dumps := plainDumps
  hash body := body
  pathAtRevision _ _ _ := none
  chunkMarkdown content header := [⟨[], header ++ content⟩]

end Akb.BareGit
