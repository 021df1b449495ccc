import Akb.Uri.Rebuild
import Akb.Native.Ledger
import Akb.Library.PyText

/-! What a document refers to: the references its body contains, and the endpoint that a
reference or a URI resolves to. -/
namespace Akb.Graph
open Akb.Library Akb.Uri

abbrev Uuid := Native.Uuid

def uuidText (u : Uuid) : Text := u.str.toList

/-! ### References in a Markdown body -/

/-- Leftmost matches that do not overlap. The pattern gives what it matched at the start of a
text and the text behind it, and never matches the empty text. -/
def scan {β : Type} (pattern : Text → Option (β × Text)) : Nat → Text → List (β ⊕ Char)
  | 0, _ => []
  | _ + 1, [] => []
  | fuel + 1, c :: s =>
    match pattern (c :: s) with
    | some (b, rest) => .inl b :: scan pattern fuel rest
    | none => .inr c :: scan pattern fuel s

/-- `re.sub(" ", s)`. -/
def blankOut (pattern : Text → Option (Unit × Text)) (s : Text) : Text :=
  (scan pattern s.length s).map (fun m => match m with
    | .inl () => ' '
    | .inr c => c)

/-- `re.finditer(s)`. -/
def finditer (pattern : Text → Option (Text × Text)) (s : Text) : List Text :=
  (scan pattern s.length s).filterMap Sum.getLeft?

/-- The text behind the first occurrence of a marker. -/
def behind (marker : Text) : Text → Option Text
  | [] => if marker = [] then some [] else none
  | c :: s => if marker <+: c :: s then some ((c :: s).drop marker.length) else behind marker s

/-- A marker, as little as possible, and the marker again. -/
def fenced (marker s : Text) : Option (Unit × Text) :=
  if marker <+: s then (behind marker (s.drop marker.length)).map (fun rest => ((), rest)) else none

/-- `_FENCED_CODE_RE`. -/
def fencedCode (s : Text) : Option (Unit × Text) := (fenced "```".toList s).orElse (fun _ => fenced "~~~".toList s)

/-- `_INLINE_CODE_RE`. -/
def inlineCode (s : Text) : Option (Unit × Text) := fenced ['`'] s

def stripCodeSpans (content : Text) : Text := blankOut inlineCode (blankOut fencedCode content)

/-- `_WIKILINK_RE`, with its group. -/
def wikilink (s : Text) : Option (Text × Text) :=
  if "[[".toList <+: s then
    let inner := (s.drop 2).takeWhile (fun c => c ∉ ['[', ']'])
    let rest := (s.drop 2).drop inner.length
    if inner ≠ [] ∧ "]]".toList <+: rest then some (inner, rest.drop 2) else none
  else none

/-- `_AKB_URI_RE`. -/
def akbUri (s : Text) : Option (Text × Text) :=
  if scheme <+: s then
    let tail := (s.drop scheme.length).takeWhile (fun c => !PyText.isSpace c && c ∉ [')', ']', '[', '|', '>', '`'])
    if tail ≠ [] then some (scheme ++ tail, s.drop (scheme.length + tail.length)) else none
  else none

/-- Only whole leading `../`, `./` and `/` come off. -/
def normalizeDocumentLinkRef : Text → Text
  | '.' :: '.' :: '/' :: ref => normalizeDocumentLinkRef ref
  | '.' :: '/' :: ref => normalizeDocumentLinkRef ref
  | '/' :: ref => normalizeDocumentLinkRef ref
  | ref => ref

def assetUrlPrefix : Text := "/api/assets/".toList

def addOnce (targets : List Text) (target : Text) : List Text :=
  if target ∈ targets then targets else targets ++ [target]

/-- The inner function `_add`. -/
def addTarget (targets : List Text) (raw : Text) : List Text :=
  let target := PyText.strip raw
  if target = [] ∨ ["http://", "https://", "mailto:", "//", "#"].any (fun p => p.toList <+: target) then targets
  else if assetUrlPrefix <+: PyText.lower target then targets
  else if scheme <+: target then addOnce targets target
  else
    let target := normalizeDocumentLinkRef (target.takeWhile (· ≠ '#'))
    if target = [] then targets else addOnce targets target

/-- The destinations that the CommonMark parser finds for links and images, in document order. -/
abbrev Markdown := Text → List Text

def extractMarkdownLinks (markdown : Markdown) (content : Text) : List Text :=
  let content := stripCodeSpans content
  let targets := (markdown content).foldl addTarget []
  let targets := (finditer wikilink content).foldl (fun ts inner => addTarget ts (inner.takeWhile (· ≠ '|'))) targets
  (finditer akbUri content).foldl addOnce targets

/-! ### The catalogue of one vault -/

/-- A row of the legacy catalogue. -/
structure LegacyDocument where
  id : Uuid
  path : Text
  deriving DecidableEq

/-- A live document of the native ledger. -/
structure NativeDocument where
  resourceId : Uuid
  currentPath : Text
  deriving DecidableEq

structure Catalog where
  vaultId : Uuid
  vaultName : Text
  documents : List LegacyDocument
  nativeAuthoritative : Bool
  natives : List NativeDocument
  tables : List Text
  /-- The confirmed files. -/
  files : List Uuid
  deriving DecidableEq

structure DocumentEndpoint where
  path : Text
  resourceId : Option Uuid
  deriving DecidableEq

/-- `path LIKE '%/' || ref`, the reference taken literally. -/
def endsInSegment (ref path : Text) : Bool := '/' :: ref <:+ path

namespace Catalog

def resolveDocumentEndpoint (c : Catalog) (path : Text) : Option DocumentEndpoint :=
  if c.documents.any (fun d => d.path = path) then some ⟨path, none⟩
  else if c.nativeAuthoritative then
    (c.natives.find? (fun r => r.currentPath = path)).map (fun r => ⟨r.currentPath, some r.resourceId⟩)
  else none

def resolveDocRef (c : Catalog) (ref : Text) : Option Uuid :=
  let ref := normalizeDocumentLinkRef ref
  match c.documents.find? (fun d => uuidText d.id = ref ∨ d.path = ref) with
  | some d => some d.id
  | none => (c.documents.find? (fun d => endsInSegment ref d.path)).map LegacyDocument.id

/-- The path a legacy reference names, unless it is empty. -/
def legacyPath (c : Catalog) (ref : Text) : Option Text := do
  let id ← c.resolveDocRef ref
  let d ← c.documents.find? (fun d => d.id = id)
  if d.path = [] then none else some d.path

def resolveDocumentReference (c : Catalog) (ref : Text) : Option DocumentEndpoint :=
  let ref := normalizeDocumentLinkRef ref
  match c.legacyPath ref with
  | some path => some ⟨path, none⟩
  | none =>
    if c.nativeAuthoritative then
      match c.natives.find? (fun r => uuidText r.resourceId = ref ∨ r.currentPath = ref) with
      | some r => some ⟨r.currentPath, some r.resourceId⟩
      | none =>
        -- an ambiguous last segment is refused
        match c.natives.filter (fun r => endsInSegment ref r.currentPath) with
        | [r] => some ⟨r.currentPath, some r.resourceId⟩
        | _ => none
    else none

def resourceExists (c : Catalog) (kind : Kind) (identifier : Text) : Bool :=
  match kind with
  | .doc => (c.resolveDocumentEndpoint identifier).isSome
  | .table => decide (identifier ∈ c.tables)
  | .file => c.files.any (fun f => uuidText f = identifier)
  | _ => false

end Catalog

/-- Where an edge may end, with the identity the native ledger gives that end. -/
structure Endpoint where
  uri : Text
  type : Kind
  resourceId : Option Uuid
  deriving DecidableEq

def linkableResourceTypes : List Kind := [.doc, .table, .file]

/-- The first half of `_store_edge`: the target that a reference resolves to. -/
def resolveTarget (c : Catalog) (vaultName targetRef : Text) : Option Endpoint :=
  match parseUri targetRef with
  | some parsed =>
    if parsed.kind ∉ linkableResourceTypes then none
    else if parsed.vault ≠ vaultName then none
    else
      let i := parsed.identifier.getD []
      match parsed.kind with
      | .doc => (c.resolveDocumentEndpoint i).map (fun e => ⟨docUri parsed.vault e.path, .doc, e.resourceId⟩)
      | kind =>
        if c.resourceExists kind i then
          some ⟨if kind = .table then tableUri parsed.vault i parsed.collPath
            else fileUri parsed.vault i parsed.collPath, kind, none⟩
        else none
  | none => (c.resolveDocumentReference targetRef).map (fun e => ⟨docUri vaultName e.path, .doc, e.resourceId⟩)

/-! ### Identities -/

/-- A document's URI spells its path. -/
theorem docUri_injective (vault : Text) {path path' : Text} (h : docUri vault path = docUri vault path') : path = path' := by
  have hlast : ∀ {s t base base' : Text}, '/' ∉ base → '/' ∉ base' → s ++ '/' :: base = t ++ '/' :: base' →
      s = t ∧ base = base' := by
    intro s t base base' hb hb' heq
    have hr := congrArg rsplit heq
    rw [rsplit_append s hb, rsplit_append t hb'] at hr
    exact Prod.mk.inj hr
  have hroot : ∀ base, atRoot vault "doc".toList base = (scheme ++ vault ++ "/doc".toList) ++ '/' :: base := by
    intro base
    simp [atRoot]
  have hcoll : ∀ c base, inColl vault c "doc".toList base =
      (scheme ++ vault ++ "/coll/".toList ++ c ++ "/doc".toList) ++ '/' :: base := by
    intro c base
    simp [inColl]
  have hapart : ∀ c : Text, scheme ++ vault ++ "/doc".toList ≠ scheme ++ vault ++ "/coll/".toList ++ c ++ "/doc".toList := by
    intro c heq
    rw [List.append_assoc (scheme ++ vault), List.append_assoc (scheme ++ vault)] at heq
    have hcons := List.append_cancel_left heq
    simp at hcons
  have hsplit : ∀ p : Text, '/' ∉ p ∨ ∃ c base, p = c ++ '/' :: base ∧ '/' ∉ base := fun p =>
    (Classical.em ('/' ∈ p)).symm.imp_right last_slash
  rcases hsplit path with hp | ⟨c, base, rfl, hb⟩ <;> rcases hsplit path' with hp' | ⟨c', base', rfl, hb'⟩
  · rw [docUri_root vault hp, docUri_root vault hp', hroot, hroot] at h
    exact (hlast hp hp' h).2
  · rw [docUri_root vault hp, docUri_inColl vault c' hb', hroot, hcoll] at h
    exact absurd (hlast hp hb' h).1 (hapart c')
  · rw [docUri_inColl vault c hb, docUri_root vault hp', hroot, hcoll] at h
    exact absurd (hlast hb hp' h).1.symm (hapart c)
  · rw [docUri_inColl vault c hb, docUri_inColl vault c' hb', hcoll, hcoll] at h
    obtain ⟨hc, rfl⟩ := hlast hb hb' h
    rw [List.append_cancel_left (List.append_cancel_right hc)]

/-- A document's URI is no other resource's. -/
theorem docUri_ne_leafUri {vault path i : Text} {marker : String} {coll : Option Text} (hi : '/' ∉ i)
    (hmarker : marker.toList.getLast? ≠ some 'c') (hne : marker.toList ≠ []) :
    docUri vault path ≠ leafUri marker vault i coll := by
  intro h
  obtain ⟨front, hfront⟩ : ∃ front, leafUri marker vault i coll = (front ++ marker.toList) ++ '/' :: i := by
    rcases coll with _ | _ | ⟨a, coll⟩
    · exact ⟨scheme ++ vault ++ ['/'], by simp [leafUri]⟩
    · exact ⟨scheme ++ vault ++ ['/'], by simp [leafUri]⟩
    · exact ⟨scheme ++ vault ++ "/coll/".toList ++ a :: coll ++ ['/'], by simp [leafUri]⟩
  obtain ⟨front', base, hbase, hdoc⟩ : ∃ front' base, '/' ∉ base ∧
      docUri vault path = (front' ++ "doc".toList) ++ '/' :: base := by
    by_cases hp : '/' ∈ path
    · obtain ⟨c, base, rfl, hb⟩ := last_slash hp
      exact ⟨scheme ++ vault ++ "/coll/".toList ++ c ++ ['/'], base, hb, by simp [docUri_inColl vault c hb, inColl]⟩
    · exact ⟨scheme ++ vault ++ ['/'], path, hp, by simp [docUri_root vault hp, atRoot]⟩
  rw [hfront, hdoc] at h
  have hr := congrArg rsplit h
  rw [rsplit_append _ hbase, rsplit_append _ hi] at hr
  have hlast := congrArg List.getLast? (Prod.mk.inj hr).1
  rw [List.getLast?_append_of_ne_nil _ hne, List.getLast?_append_of_ne_nil _ (by decide)] at hlast
  exact hmarker hlast.symm

/-- What stamps an endpoint: nothing, or the live native document at the path of its URI. -/
def Catalog.Stamps (c : Catalog) (uri : Text) (id : Option Uuid) : Prop :=
  ∀ r, id = some r → ∃ d ∈ c.natives, d.resourceId = r ∧ docUri c.vaultName d.currentPath = uri

theorem resolveDocumentEndpoint_some {c : Catalog} {path : Text} {e : DocumentEndpoint}
    (h : c.resolveDocumentEndpoint path = some e) :
    e.path = path ∧ c.Stamps (docUri c.vaultName e.path) e.resourceId := by
  unfold Catalog.resolveDocumentEndpoint at h
  split at h
  · cases h
    exact ⟨rfl, by rintro r ⟨⟩⟩
  · split at h
    · obtain ⟨d, hd, rfl⟩ := Option.map_eq_some_iff.mp h
      refine ⟨by simpa using List.find?_some hd, ?_⟩
      rintro r ⟨⟩
      exact ⟨d, List.mem_of_find?_eq_some hd, rfl, rfl⟩
    · cases h

theorem resolveDocumentReference_some {c : Catalog} {ref : Text} {e : DocumentEndpoint}
    (h : c.resolveDocumentReference ref = some e) : c.Stamps (docUri c.vaultName e.path) e.resourceId := by
  simp only [Catalog.resolveDocumentReference] at h
  split at h
  · cases h
    rintro r ⟨⟩
  · split at h
    · split at h
      · rename_i d hd
        cases h
        rintro r ⟨⟩
        exact ⟨d, List.mem_of_find?_eq_some hd, rfl, rfl⟩
      · split at h
        · rename_i d hd
          cases h
          rintro r ⟨⟩
          exact ⟨d, (List.mem_filter.mp (by rw [hd]; exact List.mem_singleton_self d)).1, rfl, rfl⟩
        · cases h
    · cases h

theorem resolveTarget_some {c : Catalog} {ref : Text} {e : Endpoint} (h : resolveTarget c c.vaultName ref = some e) :
    c.Stamps e.uri e.resourceId := by
  simp only [resolveTarget] at h
  split at h
  · rename_i parsed hparsed
    split at h
    · cases h
    · split at h
      · cases h
      · rename_i hv
        have hvault : parsed.vault = c.vaultName := by simpa using hv
        split at h
        · obtain ⟨d, hd, rfl⟩ := Option.map_eq_some_iff.mp h
          rw [hvault]
          exact (resolveDocumentEndpoint_some hd).2
        · split at h
          · cases h
            rintro r ⟨⟩
          · cases h
  · obtain ⟨d, hd, rfl⟩ := Option.map_eq_some_iff.mp h
    exact resolveDocumentReference_some hd

end Akb.Graph
