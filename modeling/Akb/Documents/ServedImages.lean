import Akb.Library.Backtracking
import Akb.Library.PyReplace
import Akb.Library.PyText
import Akb.Library.Utf8
import Akb.Library.Windows
import Akb.Search.FrontmatterSlice
import Mathlib.Data.Finset.Insert

/-! The images of a native document, read from the payload of its head, beside those of the body that is served. -/
namespace Akb.Documents
open Akb.Library Backtracking
open Akb.Search (lineEnd textEnd)

abbrev Text := List Char
abbrev Id := Nat

/-! ### Parsing -/

/-- `frontmatter.loads`: metadata and content of a text, or `none` where it raises. -/
structure Library (M : Type) where
  loads : Text → Option (M × Text)

/-- A text with its `\r\n` as newlines. -/
def unixLines (text : Text) : Text := PyReplace.replaceAll ['\r', '\n'] ['\n'] text

/-- The content is a part of the text, whose `\r\n` are read as newlines. -/
structure Library.Lawful {M : Type} (lib : Library M) : Prop where
  content : ∀ text metadata content, lib.loads text = some (metadata, content) → content <:+: unixLines text

/-- `\A---\r?\n.*?\r?\n---(?:\r?\n|\Z)` with `re.DOTALL`. -/
def leadingBlock : Matcher :=
  seq (lit "---".toList) (seq lineEnd (seq lazyAny (seq lineEnd (seq (lit "---".toList) (alt lineEnd textEnd)))))

/-- `_parse_markdown`. -/
def parseMarkdown {M : Type} (lib : Library M) (fallbackMetadata : M) (content : Text) : M × Text :=
  match lib.loads content with
  | some post => post
  | none => (fallbackMetadata, (matchStart leadingBlock content).getD content)

/-! ### Images -/

def assetUrlPrefix : Text := "/api/assets/".toList

/-- One letter against another with `re.IGNORECASE`. -/
def sameLetter (l c : Char) : Bool :=
  c.toLower = l || (l = 's' && c = '\u017f') || (l = 'i' && (c = '\u0130' || c = '\u0131'))

def isHex (c : Char) : Bool := c.isDigit || ('a' ≤ c.toLower && c.toLower ≤ 'f')

def isDash (c : Char) : Bool := c = '-'

def isVersion (c : Char) : Bool := '1' ≤ c && c ≤ '5'

def isVariant (c : Char) : Bool := c = '8' || c = '9' || c.toLower = 'a' || c.toLower = 'b'

/-- `_ASSET_ID`, a class for each character. -/
def assetId : List (Char → Bool) :=
  List.replicate 8 isHex ++ [isDash] ++ List.replicate 4 isHex ++ [isDash, isVersion] ++ List.replicate 3 isHex ++
    [isDash, isVariant] ++ List.replicate 3 isHex ++ [isDash] ++ List.replicate 12 isHex

def matchesClasses : List (Char → Bool) → Text → Bool
  | [], [] => true
  | p :: ps, c :: s => p c && matchesClasses ps s
  | _, _ => false

def hexValue (c : Char) : Nat := if c.isDigit then c.toNat - '0'.toNat else c.toLower.toNat - 'a'.toNat + 10

/-- `uuid.UUID(...)` of a text in the form `_ASSET_ID`. -/
def uuid (text : Text) : Id := (text.filter (· ≠ '-')).foldl (fun n c => 16 * n + hexValue c) 0

/-- `_ASSET_URL_RE.fullmatch(source)` -/
def assetOfUrl (source : Text) : Option Id :=
  let id := (source.drop assetUrlPrefix.length).take assetId.length
  if matchesClasses (assetUrlPrefix.map sameLetter) (source.take assetUrlPrefix.length) && matchesClasses assetId id &&
      decide (source.drop (assetUrlPrefix.length + assetId.length) ∈ [[], ['/']]) then
    some (uuid id)
  else none

/-- A token of the CommonMark parser; `src` is the attribute where it is a text. -/
inductive Token where
  | token (type : Text) (src : Option Text) (children : List Token)

def Token.type : Token → Text
  | token type _ _ => type

def Token.src : Token → Option Text
  | token _ src _ => src

def Token.children : Token → List Token
  | token _ _ children => children

mutual

/-- How many tokens there are from one on. -/
def Token.weight : Token → Nat
  | .token _ _ children => weights children + 1

def weights : List Token → Nat
  | [] => 0
  | t :: rest => t.weight + weights rest

end

theorem weights_append (a b : List Token) : weights (a ++ b) = weights a + weights b := by
  induction a with
  | nil => rw [List.nil_append, weights, Nat.zero_add]
  | cons t a ih => rw [List.cons_append, weights, weights, ih, Nat.add_assoc]

theorem weights_reverse (a : List Token) : weights a.reverse = weights a := by
  induction a with
  | nil => rfl
  | cons t a ih => rw [List.reverse_cons, weights_append, ih, weights, weights, weights, Nat.add_zero, Nat.add_comm]

/-- The loop of `extract_asset_ids`; the last of the pending tokens stands first. -/
def extractPending (pending : List Token) (result : Finset Id) : Finset Id :=
  match pending with
  | [] => result
  | t :: rest =>
    let found := if t.type = "image".toList then t.src.bind assetOfUrl else none
    extractPending (t.children.reverse ++ rest) (found.elim result fun id => insert id result)
termination_by weights pending
decreasing_by
  obtain ⟨type, src, children⟩ := t
  rw [weights_append, weights_reverse, weights, Token.weight, Token.children]
  omega

/-- `asset_service.extract_asset_ids`, with the tokens of the CommonMark parser. -/
def extractAssetIds (tokens : Text → List Token) (markdown : Text) : Finset Id :=
  if assetUrlPrefix <:+: PyText.lower markdown then extractPending (tokens markdown).reverse ∅ else ∅

/-! ### Payloads -/

inductive Error where
  | unicodeDecode
  | frontmatter
  | runtime (message : String)
  | placement (selected : String)
  | integrity (message : String)
  deriving DecidableEq

/-- What a head and its payload row both say of the bytes. -/
structure Manifest where
  namespaceId : Id
  digest : Text
  byteSize : Nat
  encoding : String
  selectedPlacement : String
  verificationProfile : String
  deriving DecidableEq

/-- A row of `m1_reference_payloads`. -/
structure PayloadRow where
  manifest : Manifest
  canonicalBytes : List UInt8

structure Head where
  payloadManifestId : Option Id
  privateLocator : Id
  manifest : Manifest

structure Repository where
  head : Id → Option Head
  payload : Id → Option PayloadRow

/-- A payload store: its placement, and how its errors name a body. -/
structure Store where
  selectedPlacement : String
  verificationProfile : String
  noun : String
  refusesNul : Bool

def pgBodyStore : Store := ⟨"pg-bodystore-v1", "sha256-size-utf8-v1", "PostgreSQL body", false⟩

def referencePayloadStore : Store := ⟨"m1-reference-payload-v1", "sha256-size-utf8-v1", "Reference payload", true⟩

/-- `_verify_row` of a store, without the bytes that are expected; `sha256` gives the digest in hexadecimal. -/
def Store.verifyRow (store : Store) (sha256 : List UInt8 → Text) (row : PayloadRow) : Except Error (List UInt8) :=
  if row.canonicalBytes.length ≠ row.manifest.byteSize then .error (.integrity (store.noun ++ " byte size mismatch"))
  else if sha256 row.canonicalBytes ≠ row.manifest.digest then .error (.integrity (store.noun ++ " digest mismatch"))
  else if row.manifest.encoding ≠ "utf-8" then .error (.integrity (store.noun ++ " encoding mismatch"))
  else if Utf8.decode row.canonicalBytes = none then .error (.integrity (store.noun ++ " is not valid UTF-8"))
  else if store.refusesNul ∧ 0 ∈ row.canonicalBytes then .error (.integrity (store.noun ++ " contains NUL bytes"))
  else if row.manifest.selectedPlacement ≠ store.selectedPlacement then
    .error (.integrity (store.noun ++ " placement mismatch"))
  else if row.manifest.verificationProfile ≠ store.verificationProfile then
    .error (.integrity (store.noun ++ " verification profile mismatch"))
  else .ok row.canonicalBytes

/-- `verify_native_head_body`. -/
def verifyNativeHeadBody (sha256 : List UInt8 → Text) (row : PayloadRow) : Except Error (List UInt8) :=
  if row.manifest.selectedPlacement = referencePayloadStore.selectedPlacement then referencePayloadStore.verifyRow sha256 row
  else if row.manifest.selectedPlacement = pgBodyStore.selectedPlacement then pgBodyStore.verifyRow sha256 row
  else .error (.placement row.manifest.selectedPlacement)

/-! ### The two readers -/

variable {M : Type}

/-- What both readers do with the text. -/
def imagesOf (lib : Library M) (tokens : Text → List Token) (text : Text) : Except Error (Finset Id) :=
  if assetUrlPrefix <:+: PyText.lower text then
    match lib.loads text with
    | none => .error .frontmatter
    | some (_, content) => .ok (extractAssetIds tokens content)
  else .ok ∅

inductive Payload where
  | text (text : Text)
  | bytes (bytes : List UInt8)

def Payload.decode : Payload → Except Error Text
  | text t => .ok t
  | bytes b => ((Utf8.decode b).map Except.ok).getD (.error .unicodeDecode)

/-- `image_ids`. -/
def imageIds (lib : Library M) (tokens : Text → List Token) (payload : Payload) : Except Error (Finset Id) :=
  payload.decode.bind (imagesOf lib tokens)

/-- `locked_head_image_ids`. -/
def lockedHeadImageIds (lib : Library M) (tokens : Text → List Token) (sha256 : List UInt8 → Text) (repository : Repository)
    (resourceId : Id) : Except Error (Finset Id) :=
  match repository.head resourceId with
  | none => .error (.runtime "Live Native document Head has no payload")
  | some head =>
    if head.payloadManifestId = none then .error (.runtime "Live Native document Head has no payload")
    else match repository.payload head.privateLocator with
      | none => .error (.runtime "Native document payload is missing")
      | some payload => (verifyNativeHeadBody sha256 payload).bind fun canonical =>
          if payload.manifest ≠ head.manifest ∨ sha256 canonical ≠ head.manifest.digest then
            .error (.runtime "Native document payload does not match its Head manifest")
          else (Payload.bytes canonical).decode.bind (imagesOf lib tokens)

/-- The text is the verified payload of the live document's head. -/
structure Stores (sha256 : List UInt8 → Text) (repository : Repository) (resourceId : Id) (text : Text) : Prop where
  live : ∃ head payload, repository.head resourceId = some head ∧ head.payloadManifestId ≠ none ∧
    repository.payload head.privateLocator = some payload ∧ payload.manifest = head.manifest ∧
    verifyNativeHeadBody sha256 payload = .ok (Utf8.encode text)

/-- Both readers of the stored text give the images of the body that is served. -/
structure ServesImages (lib : Library M) (tokens : Text → List Token) (sha256 : List UInt8 → Text) (fallbackMetadata : M)
    (text : Text) : Prop where
  of_text : imageIds lib tokens (.text text) = .ok (extractAssetIds tokens (parseMarkdown lib fallbackMetadata text).2)
  of_bytes : imageIds lib tokens (.bytes (Utf8.encode text)) = .ok (extractAssetIds tokens (parseMarkdown lib fallbackMetadata text).2)
  of_head : ∀ repository resourceId, Stores sha256 repository resourceId text →
    lockedHeadImageIds lib tokens sha256 repository resourceId =
      .ok (extractAssetIds tokens (parseMarkdown lib fallbackMetadata text).2)

/-! ### What the shortcut leaves out -/

/-- A text without a newline that stands in the joined lines stands in one of them. -/
theorem infix_of_intercalate {c : Char} {t : Text} {pieces : List Text} (hc : c ∉ t) (hne : t ≠ [])
    (h : t <:+: [c].intercalate pieces) : ∃ piece ∈ pieces, t <:+: piece := by
  induction pieces with
  | nil => exact absurd (List.infix_nil.mp h) hne
  | cons piece pieces ih =>
    by_cases hpieces : pieces = []
    · subst hpieces
      rw [List.intercalate_singleton] at h
      exact ⟨piece, List.mem_cons_self, h⟩
    · rw [PyReplace.intercalate_cons _ _ hpieces, List.append_assoc] at h
      rcases Windows.infix_append_cons hc h with h | h
      · exact ⟨piece, List.mem_cons_self, h⟩
      · obtain ⟨piece', hmem, hin⟩ := ih h
        exact ⟨piece', List.mem_cons_of_mem piece hmem, hin⟩

theorem infix_intercalate (sep : Text) {pieces : List Text} {piece : Text} (h : piece ∈ pieces) :
    piece <:+: sep.intercalate pieces := by
  induction pieces with
  | nil => cases h
  | cons first pieces ih =>
    by_cases hpieces : pieces = []
    · subst hpieces
      rw [List.intercalate_singleton, List.mem_singleton.mp h]
    · rw [PyReplace.intercalate_cons _ _ hpieces]
      rcases List.mem_cons.mp h with rfl | h
      · exact ((List.prefix_append _ _).trans (List.prefix_append _ _)).isInfix
      · exact (ih h).trans (List.suffix_append _ _).isInfix

/-- A line that stands in the text with its newlines read stands in the text. -/
theorem infix_of_unixLines {t text : Text} (hline : '\n' ∉ t) (hne : t ≠ []) (h : t <:+: unixLines text) : t <:+: text := by
  obtain ⟨piece, hpiece, hin⟩ := infix_of_intercalate hline hne h
  have htext : ['\r', '\n'].intercalate (PyReplace.split ['\r', '\n'] text) = text :=
    PyReplace.intercalate_cuts ['\r', '\n'] text.length text
  exact hin.trans (htext ▸ infix_intercalate ['\r', '\n'] hpiece)

theorem lower_isInfix {s t : Text} (h : s <:+: t) : PyText.lower s <:+: PyText.lower t := by
  obtain ⟨a, b, rfl⟩ := h
  rw [PyText.lower_append, PyText.lower_append]
  exact List.infix_append _ _ _

theorem lower_lines (lines : List Text) : PyText.lower (['\n'].intercalate lines) = ['\n'].intercalate (lines.map PyText.lower) := by
  induction lines with
  | nil => rfl
  | cons line lines ih =>
    by_cases hlines : lines = []
    · subst hlines
      rw [List.map_singleton, List.intercalate_singleton, List.intercalate_singleton]
    · rw [PyReplace.intercalate_cons _ _ hlines, List.map_cons, PyReplace.intercalate_cons _ _ (mt List.map_eq_nil_iff.mp hlines),
        PyText.lower_append, PyText.lower_append, ih]
      rfl

/-- A mark without a newline is not in the content unless it is in the text. -/
theorem lower_mem_of_unixLines {mark content text : Text} (hline : '\n' ∉ mark) (hne : mark ≠ [])
    (hcontent : content <:+: unixLines text) (h : mark <:+: PyText.lower content) : mark <:+: PyText.lower text := by
  have hlines : ['\n'].intercalate (content.splitOn '\n') = content := List.intercalate_splitOn '\n'
  rw [← hlines, lower_lines] at h
  obtain ⟨lowered, hlowered, hin⟩ := infix_of_intercalate hline hne h
  obtain ⟨line, hmem, rfl⟩ := List.mem_map.mp hlowered
  refine hin.trans (lower_isInfix ?_)
  by_cases hempty : line = []
  · rw [hempty]
    exact List.nil_infix
  · have hin : line <:+: content := by
      have := infix_intercalate ['\n'] hmem
      rwa [hlines] at this
    exact infix_of_unixLines (Segments.notMem_of_mem_splitOn hmem) hempty (hin.trans hcontent)

theorem consumes_lineEnd : Consumes lineEnd := (consumes_lit ['\r']).opt.seq (consumes_lit ['\n'])

theorem consumes_textEnd : Consumes textEnd := by
  intro s rest h
  rw [textEnd] at h
  split at h
  · rw [List.mem_singleton.mp h]
    exact List.nil_suffix
  · cases h

theorem consumes_leadingBlock : Consumes leadingBlock :=
  (consumes_lit _).seq (consumes_lineEnd.seq (Consumes.seq (fun s rest h => (List.mem_tails rest s).mp h)
    (consumes_lineEnd.seq ((consumes_lit _).seq (consumes_lineEnd.alt consumes_textEnd)))))

/-- The body of the tolerant reading stands in the text. -/
theorem fallback_suffix (content : Text) : (matchStart leadingBlock content).getD content <:+ content := by
  cases h : matchStart leadingBlock content with
  | none => exact List.suffix_refl content
  | some rest => exact consumes_leadingBlock content rest (List.mem_of_mem_head? (by rw [← matchStart, h]; rfl))

variable {lib : Library M} {text : Text}

theorem assetUrlPrefix_spec : '\n' ∉ assetUrlPrefix ∧ assetUrlPrefix ≠ [] := by decide

/-- A text without the prefix has no image of its own. -/
theorem extract_of_plain (hlib : lib.Lawful) (tokens : Text → List Token) (fallbackMetadata : M)
    (h : ¬ assetUrlPrefix <:+: PyText.lower text) : extractAssetIds tokens (parseMarkdown lib fallbackMetadata text).2 = ∅ := by
  refine if_neg fun hin => h ?_
  unfold parseMarkdown at hin
  split at hin
  · rename_i post hpost
    exact lower_mem_of_unixLines assetUrlPrefix_spec.1 assetUrlPrefix_spec.2 (hlib.content text post.1 post.2 hpost) hin
  · exact hin.trans (lower_isInfix (fallback_suffix text).isInfix)

/-- What the readers do with a text is right just when the text can be read strictly, or shows no image at all. -/
theorem imagesOf_eq_iff (hlib : lib.Lawful) (tokens : Text → List Token) (fallbackMetadata : M) (text : Text) :
    imagesOf lib tokens text = .ok (extractAssetIds tokens (parseMarkdown lib fallbackMetadata text).2) ↔
      lib.loads text ≠ none ∨ ¬ assetUrlPrefix <:+: PyText.lower text := by
  unfold imagesOf
  by_cases hprefix : assetUrlPrefix <:+: PyText.lower text
  · rw [if_pos hprefix]
    cases hloads : lib.loads text with
    | none =>
      constructor
      · intro h
        cases h
      · rintro (h | h)
        · exact absurd rfl h
        · exact absurd hprefix h
    | some post =>
      rw [parseMarkdown, hloads]
      exact iff_of_true rfl (.inl (Option.some_ne_none post))
  · rw [if_neg hprefix, extract_of_plain hlib tokens fallbackMetadata hprefix]
    exact iff_of_true rfl (.inr hprefix)

theorem Store.verified_digest {store : Store} {sha256 : List UInt8 → Text} {row : PayloadRow} {canonical : List UInt8}
    (h : store.verifyRow sha256 row = .ok canonical) : sha256 canonical = row.manifest.digest := by
  unfold Store.verifyRow at h
  split at h
  · cases h
  · split at h
    · cases h
    · rename_i hdigest
      repeat' split at h
      all_goals cases h
      exact not_not.mp hdigest

theorem verified_digest {sha256 : List UInt8 → Text} {row : PayloadRow} {canonical : List UInt8}
    (h : verifyNativeHeadBody sha256 row = .ok canonical) : sha256 canonical = row.manifest.digest := by
  unfold verifyNativeHeadBody at h
  split at h
  · exact Store.verified_digest h
  · split at h
    · exact Store.verified_digest h
    · cases h

theorem decode_encode (text : Text) : (Payload.bytes (Utf8.encode text)).decode = .ok text := by
  rw [Payload.decode, Utf8.decode_encode]
  rfl

theorem locked_of_stores {sha256 : List UInt8 → Text} {repository : Repository} {resourceId : Id} (tokens : Text → List Token)
    (h : Stores sha256 repository resourceId text) :
    lockedHeadImageIds lib tokens sha256 repository resourceId = imagesOf lib tokens text := by
  obtain ⟨head, payload, hhead, hmanifest, hpayload, hsame, hverify⟩ := h.live
  have hdigest : sha256 (Utf8.encode text) = payload.manifest.digest := verified_digest hverify
  unfold lockedHeadImageIds
  rw [hhead]
  dsimp only
  rw [if_neg hmanifest, hpayload]
  dsimp only
  rw [hverify, Except.bind, if_neg, decode_encode, Except.bind]
  rintro (h | h)
  · exact h hsame
  · exact h (hsame ▸ hdigest)

/-- The readers give the images that are served of every text that can be read strictly, and of one without any. -/
theorem servesImages_iff (hlib : lib.Lawful) (tokens : Text → List Token) (sha256 : List UInt8 → Text) (fallbackMetadata : M)
    (text : Text) : ServesImages lib tokens sha256 fallbackMetadata text ↔
      lib.loads text ≠ none ∨ ¬ assetUrlPrefix <:+: PyText.lower text := by
  rw [← imagesOf_eq_iff hlib tokens fallbackMetadata text]
  constructor
  · exact fun h => h.of_text
  · intro h
    refine ⟨h, ?_, fun repository resourceId hstores => (locked_of_stores tokens hstores).trans h⟩
    rw [imageIds, decode_encode]
    exact h

/-- A body of one image behind a block that is not YAML. -/
def brokenBlock : Text :=
  "---\ntitle: [\n---\n![x](".toList ++ assetUrlPrefix ++ "0e0f4a52-9d3c-4c6b-8a51-1f2e3d4c5b6a)\n".toList

theorem shows_between (a b : Text) : assetUrlPrefix <:+: PyText.lower (a ++ assetUrlPrefix ++ b) := by
  have hlower : PyText.lower assetUrlPrefix = assetUrlPrefix := by decide
  rw [PyText.lower_append, PyText.lower_append, hlower]
  exact List.infix_append _ _ _

theorem brokenBlock_shows_image : assetUrlPrefix <:+: PyText.lower brokenBlock := shows_between _ _

/-- A reader that refuses the broken block and takes every other text for a body. -/
def refusing : Library Unit where
  loads text := if text = brokenBlock then none else some ((), unixLines text)

theorem refusing_lawful : refusing.Lawful := by
  refine ⟨fun text metadata content h => ?_⟩
  rw [refusing] at h
  dsimp only at h
  split at h
  · cases h
  · cases h
    exact List.infix_refl _

def oneImage : Text → List Token := fun _ =>
  [.token "inline".toList none [.token "image".toList (some "/api/assets/0e0f4a52-9d3c-4c6b-8a51-1f2e3d4c5b6a".toList) []]]

/-- The images of a body that is served cannot be read behind a broken block. -/
theorem broken_block_unreadable :
    refusing.Lawful ∧ imageIds refusing oneImage (.text brokenBlock) = .error .frontmatter ∧
      ¬ ServesImages refusing oneImage (fun _ => []) () brokenBlock := by
  have hloads : refusing.loads brokenBlock = none := by simp only [refusing, ↓reduceIte]
  have hread : imageIds refusing oneImage (.text brokenBlock) = .error .frontmatter := by
    rw [imageIds, Payload.decode, Except.bind, imagesOf, if_pos brokenBlock_shows_image, hloads]
  refine ⟨refusing_lawful, hread, fun h => ?_⟩
  have := h.of_text
  rw [hread] at this
  cases this

/-- A body without a block is read as it is served. -/
theorem plain_text_served : ServesImages refusing oneImage (fun _ => []) () "no block".toList :=
  (servesImages_iff refusing_lawful oneImage (fun _ => []) () "no block".toList).mpr (.inr (by decide))

end Akb.Documents
