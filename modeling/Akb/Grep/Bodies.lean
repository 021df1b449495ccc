import Akb.Library.PyText
import Akb.Library.UniversalNewlines
import Akb.Library.Utf8
import Akb.Uri.Grammar

/-! Scanning the bodies of the current heads for matching lines, within the limits of a response. -/
namespace Akb.Grep
open Akb.Library

abbrev Text := List Char

inductive Surface where
  | document
  | file
  deriving DecidableEq

/-- A head with its decoded canonical bytes. -/
structure HeadBody where
  vault : Text
  resourceId : Text
  surface : Surface
  path : Text
  revisionId : Text
  digest : Text
  text : Text
  selectedPlacement : Text

/-- What `_parse_markdown` reads off a document: its title, if it has a truthy one, and its body. -/
structure Markdown where
  title : Option Text
  body : Text

section Body
variable (parseMarkdown : Text → Markdown) (b : HeadBody)

def HeadBody.searchText : Text :=
  match b.surface with
  | .document => (parseMarkdown b.text).body
  | .file => b.text

def HeadBody.title : Text :=
  match b.surface with
  | .document => (parseMarkdown b.text).title.getD (Uri.rsplit b.path).2
  | .file => (Uri.rsplit b.path).2

def HeadBody.uri : Text :=
  match b.surface with
  | .document => Uri.docUri b.vault b.path
  | .file => Uri.fileUri b.vault b.resourceId (if '/' ∈ b.path then some (Uri.rsplit b.path).1 else none)

/-- The lines of the body, with their numbers. -/
def HeadBody.numberedLines : List (Text × Nat) :=
  ((UniversalNewlines.textLines (b.searchText parseMarkdown)).map UniversalNewlines.chomp).zipIdx 1

end Body

structure GrepScanLimits where
  matchesPerResource : Int
  totalMatches : Int
  snippetBytes : Int
  snippetBytesPerResource : Int
  totalSnippetBytes : Int

inductive Reason where
  | perResourceMatchLimit
  | perResourceSnippetByteLimit
  | resourceLimit
  | snippetByteLimit
  | totalMatchLimit
  | totalSnippetByteLimit
  deriving DecidableEq

def Reason.text : Reason → String
  | .perResourceMatchLimit => "per_resource_match_limit"
  | .perResourceSnippetByteLimit => "per_resource_snippet_byte_limit"
  | .resourceLimit => "resource_limit"
  | .snippetByteLimit => "snippet_byte_limit"
  | .totalMatchLimit => "total_match_limit"
  | .totalSnippetByteLimit => "total_snippet_byte_limit"

/-- The reasons in the order of their texts. -/
def Reason.all : List Reason :=
  [.perResourceMatchLimit, .perResourceSnippetByteLimit, .resourceLimit, .snippetByteLimit, .totalMatchLimit,
    .totalSnippetByteLimit]

/-- `sorted(truncation_reasons)` -/
def sortedReasons (reasons : List Reason) : List String := (Reason.all.filter (· ∈ reasons)).map Reason.text

/-- `if condition: truncation_reasons.add(reason)` -/
def addIf (condition : Prop) [Decidable condition] (reason : Reason) (reasons : List Reason) : List Reason :=
  if condition then reasons.insert reason else reasons

structure Snippet where
  text : Text
  bytes : Nat
  truncated : Bool

/-- `_bounded_snippet`. -/
def boundedSnippet (line : Text) (maxBytes : Int) : Snippet :=
  let start := (line.takeWhile PyText.isSpace).length
  let stop := start + (PyText.rstrip (line.drop start)).length
  if maxBytes ≤ 0 then ⟨[], 0, start < stop⟩
  else
    let fragment := (line.take (min stop (start + maxBytes.toNat))).drop start
    let fragment :=
      if maxBytes < (Utf8.encode fragment).length then Utf8.decodeIgnore 0 ((Utf8.encode fragment).take maxBytes.toNat)
      else fragment
    ⟨fragment, (Utf8.encode fragment).length, start + fragment.length < stop⟩

structure LineMatch where
  line : Nat
  text : Text
  deriving DecidableEq

/-- What the scan of one body carries along. -/
structure Found where
  lines : List LineMatch
  resourceMatches : Nat
  resourceBytes : Nat
  materializedMatches : Nat
  materializedBytes : Nat
  reasons : List Reason

/-- The snippet of a matching line that is within the limits of matches and bytes. -/
def Found.materialize (limits : GrepScanLimits) (s : Found) (line : Text) (number : Nat) : Found :=
  let remainingResourceBytes := limits.snippetBytesPerResource - s.resourceBytes
  let remainingTotalBytes := limits.totalSnippetBytes - s.materializedBytes
  let allowedBytes := min limits.snippetBytes (min remainingResourceBytes remainingTotalBytes)
  let snippet := boundedSnippet line allowedBytes
  { s with
    lines := s.lines ++ [⟨number, snippet.text⟩]
    resourceBytes := s.resourceBytes + snippet.bytes
    materializedBytes := s.materializedBytes + snippet.bytes
    materializedMatches := s.materializedMatches + 1
    reasons :=
      if snippet.truncated then
        addIf (allowedBytes = remainingTotalBytes) .totalSnippetByteLimit
          (addIf (allowedBytes = remainingResourceBytes) .perResourceSnippetByteLimit
            (s.reasons.insert .snippetByteLimit))
      else s.reasons }

def Found.matchLimited (limits : GrepScanLimits) (s : Found) : List Reason :=
  addIf (limits.totalMatches ≤ s.materializedMatches) .totalMatchLimit
    (addIf (limits.matchesPerResource ≤ s.lines.length) .perResourceMatchLimit s.reasons)

def Found.byteLimited (limits : GrepScanLimits) (s : Found) : List Reason :=
  addIf (limits.totalSnippetBytes ≤ s.materializedBytes) .totalSnippetByteLimit
    (addIf (limits.snippetBytesPerResource ≤ s.resourceBytes) .perResourceSnippetByteLimit s.reasons)

/-- A matching line of a resource that is returned. -/
def Found.keep (limits : GrepScanLimits) (s : Found) (line : Text) (number : Nat) : Found :=
  if limits.matchesPerResource ≤ s.lines.length ∨ limits.totalMatches ≤ s.materializedMatches then
    { s with reasons := s.matchLimited limits }
  else if limits.snippetBytesPerResource ≤ s.resourceBytes ∨ limits.totalSnippetBytes ≤ s.materializedBytes then
    { s with reasons := s.byteLimited limits }
  else s.materialize limits line number

def Found.counted (s : Found) : Found := { s with resourceMatches := s.resourceMatches + 1 }

def Found.visit (limits : GrepScanLimits) (matcher : Text → Bool) (returned : Bool) (s : Found) (entry : Text × Nat) : Found :=
  if matcher entry.1 then
    if returned then s.counted.keep limits entry.1 entry.2 else s.counted
  else s

inductive Mode where
  | default
  | countOnly
  | filesWithMatches
  deriving DecidableEq

structure Item where
  uri : Text
  resourceType : Surface
  vault : Text
  path : Text
  title : Text
  revision : Text
  contentHash : Text
  payloadPlacement : Text
  matchedLines : List LineMatch
  bodyIndex : Nat
  deriving DecidableEq

structure Resource where
  uri : Text
  resourceType : Surface
  revision : Text
  path : Text
  deriving DecidableEq

def HeadBody.item (parseMarkdown : Text → Markdown) (b : HeadBody) (lines : List LineMatch) (index : Nat) : Item :=
  ⟨b.uri, b.surface, b.vault, b.path, b.title parseMarkdown, b.revisionId, b.digest, b.selectedPlacement, lines, index⟩

def HeadBody.resource (b : HeadBody) : Resource := ⟨b.uri, b.surface, b.revisionId, b.path⟩

/-- `d[key] = value` -/
def setKey (key : Text) (value : Nat) (d : List (Text × Nat)) : List (Text × Nat) :=
  if key ∈ d.map Prod.fst then d.map (fun e => if e.1 = key then (key, value) else e) else d ++ [(key, value)]

/-- What the scan carries from body to body. -/
structure Scan where
  items : List Item
  byResource : List (Text × Nat)
  resources : List Resource
  matchedBodyIndexes : List Nat
  totalResources : Nat
  totalDocuments : Nat
  byDocument : List (Text × Nat)
  totalMatches : Nat
  materializedMatches : Nat
  materializedBytes : Nat
  reasons : List Reason

def Scan.start : Scan := ⟨[], [], [], [], 0, 0, [], 0, 0, 0, []⟩

/-- A request for a scan, without the bodies. -/
structure Request where
  parseMarkdown : Text → Markdown
  matcher : Text → Bool
  mode : Mode
  resourceLimit : Int
  collectMatchedBodyIndexes : Bool
  limits : GrepScanLimits

section Scanning
variable (r : Request)

def Scan.returnsResource (s : Scan) : Bool := r.mode = .default ∧ s.totalResources < r.resourceLimit

def Scan.lines (s : Scan) (b : HeadBody) : Found :=
  (b.numberedLines r.parseMarkdown).foldl (Found.visit r.limits r.matcher (s.returnsResource r))
    ⟨[], 0, 0, s.materializedMatches, s.materializedBytes, s.reasons⟩

/-- One body of the scan. -/
def Scan.visit (s : Scan) (entry : HeadBody × Nat) : Scan :=
  let body := entry.1
  let found := s.lines r body
  let s' := { s with
    materializedMatches := found.materializedMatches
    materializedBytes := found.materializedBytes
    reasons := found.reasons }
  if found.resourceMatches = 0 then s'
  else
    { s' with
      totalResources := s.totalResources + 1
      totalDocuments := if body.surface = .document then s.totalDocuments + 1 else s.totalDocuments
      byDocument :=
        if body.surface = .document ∧ r.mode = .countOnly then setKey body.uri found.resourceMatches s.byDocument
        else s.byDocument
      totalMatches := s.totalMatches + found.resourceMatches
      matchedBodyIndexes :=
        if r.collectMatchedBodyIndexes then s.matchedBodyIndexes ++ [entry.2] else s.matchedBodyIndexes
      byResource := if r.mode = .countOnly then setKey body.uri found.resourceMatches s.byResource else s.byResource
      resources := if r.mode = .filesWithMatches then s.resources ++ [body.resource] else s.resources
      items := if s.returnsResource r then s.items ++ [body.item r.parseMarkdown found.lines entry.2] else s.items }

structure ScanResult where
  items : List Item
  byResource : List (Text × Nat)
  resources : List Resource
  matchedBodyIndexes : List Nat
  totalResources : Nat
  totalDocuments : Nat
  byDocument : List (Text × Nat)
  totalMatches : Nat
  materializedMatches : Nat
  truncationReasons : List String
  limits : GrepScanLimits

def Scan.finish (s : Scan) : ScanResult where
  items := s.items
  byResource := s.byResource
  resources := s.resources
  matchedBodyIndexes := s.matchedBodyIndexes
  totalResources := s.totalResources
  totalDocuments := s.totalDocuments
  byDocument := s.byDocument
  totalMatches := s.totalMatches
  materializedMatches := s.materializedMatches
  truncationReasons := sortedReasons (addIf (r.mode = .default ∧ s.items.length < s.totalResources) .resourceLimit s.reasons)
  limits := r.limits

/-- `_scan_bodies_sync`. -/
def scanBodies (bodies : List HeadBody) : ScanResult := (bodies.zipIdx.foldl (Scan.visit r) Scan.start).finish r

end Scanning

end Akb.Grep
