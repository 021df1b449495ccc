import Akb.Library.IsoDate
import Akb.Library.PyText
import Akb.Library.Table
import Akb.Okf.Frontmatter
import Mathlib.Data.List.Sort

/-! Export: the concept documents of a vault's records, the index and the log, and the bundle of all. -/
namespace Akb.Okf
open Akb.Library PyText PyLines

/-- A document record. An absent key and an empty value are the same to the exporter. -/
structure Document where
  path : Text := []
  name : Text := []
  title : Text := []
  type_ : Text := []
  docType : Text := []
  summary : Text := []
  description : Text := []
  uri : Text := []
  tags : List Text := []
  updatedAt : Text := []
  createdAt : Text := []
  status : Text := []
  domain : Text := []
  content : Text := []
  body : Text := []

structure Column where
  name : Text
  type_ : Text
  description : Text

structure TableRecord where
  path : Text := []
  sqlName : Text := []
  name : Text := []
  title : Text := []
  description : Text := []
  uri : Text := []
  tags : List Text := []
  updatedAt : Text := []
  createdAt : Text := []
  columns : List Column := []
  rowCount : Option Int := none

structure FileRecord where
  path : Text := []
  name : Text := []
  title : Text := []
  description : Text := []
  summary : Text := []
  uri : Text := []
  tags : List Text := []
  updatedAt : Text := []
  createdAt : Text := []
  mimeType : Text := []
  sizeBytes : Option Int := none

def mdSuffix : Text := ['.', 'm', 'd']

def withMdSuffix (path : Text) : Text := if mdSuffix.isSuffixOf path then path else path ++ mdSuffix

/-- `_normalise_path`. -/
def normalisePath (path : Text) : Text :=
  withMdSuffix (((strip path).dropWhile (· = '/')).map fun c => if c = '\\' then '/' else c)

/-- A concept document before it is composed. -/
structure Concept where
  path : Text
  frontmatter : Meta
  body : Text

def Concept.file (py : Runtime) (c : Concept) : Text × Text := (c.path, compose py c.frontmatter c.body)

/-- `_doc_extra`. -/
def docExtra (rec : Document) : Meta :=
  textEntry "status" rec.status ++ textEntry "domain" rec.domain ++
    textEntry "created_at" ((iso8601 rec.createdAt).getD []) ++ textEntry "akb_uri" rec.uri

/-- `concept_from_document`. -/
def conceptFromDocument (rec : Document) : Concept where
  path := normalisePath (orText rec.path (orText rec.name "untitled.md".toList))
  frontmatter := okfFrontmatter (orText rec.type_ (orText rec.docType "note".toList)) rec.title
    (orText rec.summary rec.description) rec.uri rec.tags (orText rec.updatedAt rec.createdAt) (docExtra rec)
  body := strip (orText rec.content rec.body)

/-- `"\n".join(lines)`, or with another separator. -/
def joinWith (separator : Text) (parts : List Text) : Text := separator.intercalate parts

def schemaTable (columns : List Column) : Text :=
  let rows := columns.map fun col =>
    let desc := (strip col.description).map fun c => if c = '\n' then ' ' else c
    "| ".toList ++ strip col.name ++ " | ".toList ++ strip col.type_ ++ " | ".toList ++ desc ++ " |".toList
  joinWith ['\n'] ("| Column | Type | Description |".toList :: "| --- | --- | --- |".toList :: rows)

def intEntry (key : String) (n : Option Int) : Meta := n.toList.map fun n => (key.toList, .int n)

/-- `concept_from_table`. -/
def conceptFromTable (rec : TableRecord) : Concept where
  path := normalisePath (orText rec.path (orText rec.sqlName (orText rec.name "table".toList)))
  frontmatter := okfFrontmatter "table".toList (orText rec.title (orText rec.name rec.sqlName)) rec.description rec.uri
    rec.tags (orText rec.updatedAt rec.createdAt) (textEntry "sql_name" rec.sqlName ++ intEntry "row_count" rec.rowCount)
  body := joinWith ['\n', '\n']
    ((if rec.description = [] then [] else [strip rec.description]) ++
      (if rec.columns.isEmpty then [] else ["# Schema\n\n".toList ++ schemaTable rec.columns]) ++
      rec.rowCount.toList.map fun n => "# Rows\n\n".toList ++ (toString n).toList ++
        " rows (data lives in AKB; this concept carries the schema).".toList)

/-- `concept_from_file`. -/
def conceptFromFile (rec : FileRecord) : Concept where
  path := normalisePath (withMdSuffix (orText rec.path (orText rec.name "file".toList)))
  frontmatter := okfFrontmatter "file".toList (orText rec.title rec.name) (orText rec.description rec.summary) rec.uri
    rec.tags (orText rec.updatedAt rec.createdAt) (textEntry "mime_type" rec.mimeType ++ intEntry "size_bytes" rec.sizeBytes)
  body := joinWith ['\n'] ("This concept references a file asset stored in AKB.".toList ::
    if rec.uri = [] then []
    else [[], "Resource: [".toList ++ orText rec.name (orText rec.path "file".toList) ++ "](".toList ++ rec.uri ++ ")".toList])

/-- `_Entry`. -/
structure Entry where
  path : Text
  title : Text
  description : Text
  timestamp : Option Value

/-- Code point order. -/
def textLe : Text → Text → Bool
  | [], _ => true
  | _ :: _, [] => false
  | a :: s, b :: t => a < b || (a = b && textLe s t)

def sortedBy {α : Type} (key : α → Text) (l : List α) : List α := l.insertionSort fun a b => textLe (key a) (key b)

/-- `setdefault(key, []).append(item)` over all items. -/
def groupBy {α : Type} (key : α → Text) (items : List α) : List (Text × List α) :=
  (items.map key).dedup.map fun k => (k, items.filter fun item => key item = k)

def linkLine (entry : Entry) : Text :=
  "* [".toList ++ entry.title ++ "](/".toList ++ entry.path ++ ")".toList ++
    if entry.description = [] then [] else " - ".toList ++ entry.description

def Entry.section (entry : Entry) : Text :=
  if '/' ∈ entry.path then entry.path.takeWhile (· ≠ '/') else "Documents".toList

def buildIndex (py : Runtime) (entries : List Entry) (okfVersion : Text) : Text :=
  let parts := (sortedBy Prod.fst (groupBy Entry.section entries)).flatMap fun (name, members) =>
    ["# ".toList ++ name, []] ++ (sortedBy (fun e => py.lower e.title) members).map linkLine ++ [[]]
  compose py [("okf_version".toList, .text okfVersion)] (rstrip (joinWith ['\n'] parts) ++ ['\n'])

/-- `_iso_date` of an entry's timestamp. -/
def Entry.day (py : Runtime) (entry : Entry) : Option Text :=
  match entry.timestamp with
  | none => none
  | some .null => none
  | some value => ((iso8601 (value.str py)).map (List.take 10)).filter IsoDate.accepts

def updateLine (entry : Entry) : Text :=
  "* **Update**: [".toList ++ entry.title ++ "](/".toList ++ entry.path ++ ")".toList

def noDay : Text := "0000-00-00".toList

def logTitle : Text := "# Directory Update Log".toList

/-- The days of the log, newest first, with their entries. -/
def logDays (py : Runtime) (entries : List Entry) : List (Text × List Entry) :=
  let byDate := groupBy (fun e => (e.day py).getD noDay) entries
  (byDate.filter fun group => group.1 ≠ noDay).insertionSort fun a b => textLe b.1 a.1

def buildLog (py : Runtime) (entries : List Entry) : Text :=
  let parts := [logTitle, []] ++ (logDays py entries).flatMap fun (day, members) =>
    ["## ".toList ++ day, []] ++ (sortedBy (fun e => py.lower e.title) members).map updateLine ++ [[]]
  rstrip (joinWith ['\n'] parts) ++ ['\n']

abbrev Bundle := Table (Text × Text) Prod.fst

def indexName : Text := "index.md".toList
def logName : Text := "log.md".toList

def okfVersion : Text := "0.1".toList

/-- The entry `build_bundle` reads off a composed concept document. -/
def entryOf (py : Runtime) (file : Text × Text) : Entry :=
  let m := (splitFrontmatter py file.2).1.getD []
  ⟨file.1, strOr py (m.lookup "title".toList) (file.1.take (file.1.length - 3)),
    strOr py (m.lookup "description".toList) [], m.lookup "timestamp".toList⟩

/-- The concept documents of all records, in the order `build_bundle` adds them. -/
def concepts (documents : List Document) (tables : List TableRecord) (files : List FileRecord) : List Concept :=
  documents.map conceptFromDocument ++ tables.map conceptFromTable ++ files.map conceptFromFile

/-- `build_bundle` with its defaults. -/
def buildBundle (py : Runtime) (documents : List Document) (tables : List TableRecord) (files : List FileRecord) : Bundle :=
  let added := (concepts documents tables files).map (Concept.file py)
  let out : Bundle := added.foldl Table.upsert Table.empty
  let entries := added.map (entryOf py)
  (out.upsert (indexName, buildIndex py entries okfVersion)).upsert (logName, buildLog py entries)

/-! What a bundle holds: the concept files, the index and the log. -/
section Bundles
variable {py : Runtime}

/-- Files whose paths are new go behind those that are there. -/
theorem rows_foldl_upsert {files : List (Text × Text)} {t : Bundle}
    (h : ((t.rows ++ files).map Prod.fst).Nodup) : (files.foldl Table.upsert t).rows = t.rows ++ files := by
  induction files generalizing t with
  | nil => exact (List.append_nil _).symm
  | cons file files ih =>
    have hsplit : t.rows ++ file :: files = (t.rows ++ [file]) ++ files := by simp
    have hnew : (t.upsert file).rows = t.rows ++ [file] := by
      have hkeep : ∀ s ∈ t.rows, (!decide (s.1 = file.1)) = true := by
        intro s hs
        have hdisj := (List.nodup_append.mp (List.map_append ▸ h)).2.2 s.1 (List.mem_map_of_mem hs) file.1
          (List.mem_map_of_mem List.mem_cons_self)
        simpa using hdisj
      change t.rows.filter (fun s => !decide (s.1 = file.1)) ++ [file] = _
      rw [List.filter_eq_self.mpr hkeep]
    rw [List.foldl_cons, ih (by rwa [hnew, ← hsplit]), hnew, hsplit]

/-- The concept files of a bundle. -/
def conceptFiles (py : Runtime) (documents : List Document) (tables : List TableRecord) (files : List FileRecord) :
    List (Text × Text) :=
  (concepts documents tables files).map (Concept.file py)

/-- The bundle has one file for each record, and the index and the log. -/
def Complete (b : Bundle) (added : List (Text × Text)) : Prop :=
  ∃ index log, b.rows.Perm (added ++ [(indexName, index), (logName, log)])

theorem suffix_withMdSuffix (path : Text) : mdSuffix.isSuffixOf (withMdSuffix path) = true := by
  unfold withMdSuffix
  split
  · assumption
  · rw [List.isSuffixOf_iff_suffix]
    exact List.suffix_append path mdSuffix

section Paths
variable {documents : List Document} {tables : List TableRecord} {files : List FileRecord}

/-- No path is used twice, and none is the index or the log. -/
def Distinct (cs : List Concept) : Prop :=
  (cs.map Concept.path).Nodup ∧ ∀ c ∈ cs, c.path ≠ indexName ∧ c.path ≠ logName

theorem nodup_iff (py : Runtime) (index log : Text) :
    ((conceptFiles py documents tables files ++ [(indexName, index), (logName, log)]).map Prod.fst).Nodup ↔
      Distinct (concepts documents tables files) := by
  have hpaths : (conceptFiles py documents tables files).map Prod.fst = (concepts documents tables files).map Concept.path := by
    rw [conceptFiles, List.map_map]
    rfl
  have hreserved : [indexName, logName].Nodup := by decide
  rw [List.map_append, hpaths, List.nodup_append]
  simp only [List.map_cons, List.map_nil, hreserved, true_and, List.mem_map, List.mem_cons, List.not_mem_nil, or_false,
    ne_eq, forall_eq_or_imp, forall_eq, forall_exists_index, and_imp, forall_apply_eq_imp_iff₂, Distinct]

def emptyBundle : Bundle := Table.empty

/-- The log of a bundle. -/
def bundleLog (py : Runtime) (added : List (Text × Text)) : Text := buildLog py (added.map (entryOf py))

theorem buildBundle_rows (py : Runtime) (h : Distinct (concepts documents tables files)) : ∃ index,
    (buildBundle py documents tables files).rows = conceptFiles py documents tables files ++
      [(indexName, index), (logName, bundleLog py (conceptFiles py documents tables files))] := by
  let added := conceptFiles py documents tables files
  let index := buildIndex py (added.map (entryOf py)) okfVersion
  have hfold : buildBundle py documents tables files =
      (added ++ [(indexName, index), (logName, bundleLog py added)]).foldl Table.upsert emptyBundle := by
    rw [List.foldl_append]
    rfl
  have hrows := rows_foldl_upsert (t := emptyBundle) ((nodup_iff py index (bundleLog py added)).mpr h)
  exact ⟨index, hfold ▸ hrows⟩

theorem complete_iff : Complete (buildBundle py documents tables files) (conceptFiles py documents tables files) ↔
    Distinct (concepts documents tables files) := by
  constructor
  · rintro ⟨index, log, hperm⟩
    exact (nodup_iff py index log).mp ((hperm.map Prod.fst).nodup_iff.mp (buildBundle py documents tables files).unique)
  · intro h
    obtain ⟨index, hrows⟩ := buildBundle_rows py h
    exact ⟨index, _, List.Perm.of_eq hrows⟩

end Paths
end Bundles
end Akb.Okf

/-! Import: the concept documents of a bundle read back as document records. -/
namespace Akb.Okf
open Akb.Library PyText PyLines

inductive Status
  | draft
  | active
  | archived
  deriving DecidableEq

/-- An unrecognised status falls back to draft. -/
def statusOf (status : Text) : Status :=
  if status = "active".toList then .active else if status = "archived".toList then .archived else .draft

/-- A document record as the import builds it. -/
structure Record where
  path : Text
  collection : Text
  slug : Text
  title : Text
  type_ : Text
  status : Status
  summary : Option Value
  domain : Option Value
  tags : List Text
  content : Text

/-- `meta.get(a) or meta.get(b)` -/
def getOr (m : Meta) (a b : Text) : Option Value :=
  match m.lookup a with
  | some value => if value.truthy then some value else m.lookup b
  | none => m.lookup b

/-- `list(value or [])`; `none` raises `TypeError`. -/
def listOf : Option Value → Option (List Text)
  | none => some []
  | some .null => some []
  | some (.text s) => some (s.map fun c => [c])
  | some (.int n) => if n = 0 then some [] else none
  | some (.texts items) => some items
  | some (.other value) => if value.truthy then value.items else some []

/-- `path.replace("\\", "/").rpartition("/")` without the separator. -/
def splitName (path : Text) : Text × Text :=
  let path := path.map fun c => if c = '\\' then '/' else c
  let name := (path.reverse.takeWhile (· ≠ '/')).reverse
  (path.take (path.length - name.length - 1), name)

def slugOf (name : Text) : Text := if mdSuffix.isSuffixOf name then name.take (name.length - 3) else name

/-- The record `okf_doc_to_record` builds once the tags are read. -/
def recordWith (py : Runtime) (path : Text) (m : Meta) (body : Text) (tags : List Text) : Record :=
  let slug := slugOf (splitName path).2
  { path := normalisePath path
    collection := (splitName path).1
    slug := slug
    title := strOr py (m.lookup "title".toList) slug
    type_ := orText (strip (strOr py (m.lookup "type".toList) "note".toList)) "note".toList
    status := statusOf (strOr py (m.lookup "status".toList) "draft".toList)
    summary := getOr m "description".toList "summary".toList
    domain := m.lookup "domain".toList
    tags := tags
    content := strip body }

/-- `okf_doc_to_record`. -/
def okfDocToRecord (py : Runtime) (path : Text) (m : Meta) (body : Text) : Option Record :=
  (listOf (m.lookup "tags".toList)).map (recordWith py path m body)

/-- `path.rsplit("/", 1)[-1]` -/
def fileName (path : Text) : Text := (path.reverse.takeWhile (· ≠ '/')).reverse

/-- `RESERVED_FILENAMES`. -/
def reserved (name : Text) : Bool := name = indexName || name = logName

theorem fileName_of_reserved {path : Text} (h : path = indexName ∨ path = logName) : reserved (fileName path) = true := by
  rcases h with rfl | rfl
  · decide
  · decide

/-- `sorted(files.items())`. -/
def sortedFiles (files : Bundle) : List (Text × Text) := sortedBy Prod.fst files.rows

def isConcept (file : Text × Text) : Bool := mdSuffix.isSuffixOf file.1 && !reserved (fileName file.1)

def readConcept (py : Runtime) (file : Text × Text) : Option Record :=
  match splitFrontmatter py file.2 with
  | (some m, body, _) => okfDocToRecord py file.1 m body
  | (none, _, _) => okfDocToRecord py file.1 [] file.2

/-- `parse_okf_bundle`. -/
def parseOkfBundle (py : Runtime) (files : Bundle) : Option (List Record) :=
  ((sortedFiles files).filter isConcept).mapM (readConcept py)

end Akb.Okf
