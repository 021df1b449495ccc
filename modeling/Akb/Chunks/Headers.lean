import Akb.Chunks.Splitter
import Akb.Library.Backtracking
import Akb.Uri.Grammar

/-! The metadata block on top of a chunk, and the expression that takes it off again. -/
namespace Akb.Chunks
open Akb.Library Backtracking

/-- The arguments of `build_doc_metadata_header`. -/
structure DocHeader where
  vaultName : Text
  path : Text
  title : Text
  summary : Option Text
  tags : List Text
  docType : Option Text

/-- A line for a value that is present and not empty. -/
def lineOf (key : String) (value : Option Text) : List Text := ((value.filter (· ≠ [])).map (key.toList ++ ·)).toList

def DocHeader.lines (h : DocHeader) : List Text :=
  ("TITLE: ".toList ++ h.title) ::
    (lineOf "SUMMARY: " h.summary ++ (if h.tags = [] then [] else ["TAGS: ".toList ++ ", ".toList.intercalate h.tags]) ++
      ("PATH: ".toList ++ h.vaultName ++ '/' :: h.path) :: lineOf "TYPE: " h.docType)

/-- The arguments of `build_file_metadata_header`. -/
structure FileHeader where
  vaultName : Text
  path : Text
  uri : Text
  sizeBytes : Option Nat

def FileHeader.lines (h : FileHeader) : List Text :=
  ["TITLE: ".toList ++ (Uri.rsplit h.path).2, "TYPE: file".toList, "VAULT: ".toList ++ h.vaultName, "PATH: ".toList ++ h.path,
    "URI: ".toList ++ h.uri] ++ (h.sizeBytes.map (fun size => "SIZE: ".toList ++ (toString size).toList)).toList

/-- `"\n".join(lines) + "\n\n"` -/
def headerText (lines : List Text) : Text := ['\n'].intercalate lines ++ blankLine

def buildDocMetadataHeader (h : DocHeader) : Text := headerText h.lines

def buildFileMetadataHeader (h : FileHeader) : Text := headerText h.lines

/-! ### Taking a block off -/

def key (name : String) : Matcher := keyLine name.toList

/-- `_DOC_METADATA_HEADER`. -/
def docMetadataHeader : Matcher :=
  seq (key "TITLE:") (seq (opt (seq (lit "SUMMARY:".toList) newlineRests)) (seq (opt (key "TAGS:"))
    (seq (key "PATH:") (opt (key "TYPE:")))))

/-- `_FILE_METADATA_HEADER`. -/
def fileMetadataHeader : Matcher :=
  seq (key "TITLE:") (seq (key "TYPE:") (seq (key "VAULT:") (seq (key "PATH:") (seq (key "URI:") (opt (key "SIZE:"))))))

/-- `_CHUNK_HEADER_RE`. -/
def chunkHeader : Matcher := seq (alt docMetadataHeader fileMetadataHeader) (lit ['\n'])

def stripChunkMetadataHeader (text : Text) : Text := (matchStart chunkHeader text).getD text

/-! Which lines of a metadata block the expression reads as the block. -/
/-- The line begins with the key. -/
def Keyed (name : String) (line : Text) : Prop := name.toList <+: line

instance (name : String) (line : Text) : Decidable (Keyed name line) := inferInstanceAs (Decidable (_ <+: _))

/-- An optional line with its key. -/
def OptionalLine (name : String) (lines : List Text) : Prop := lines = [] ∨ ∃ line, lines = [line] ∧ Keyed name line

/-- The lines of a document's block behind its title and summary. -/
def IsTail (lines : List Text) : Prop :=
  ∃ tags path type, lines = tags ++ path :: type ∧ OptionalLine "TAGS:" tags ∧ Keyed "PATH:" path ∧ OptionalLine "TYPE:" type

/-- The lines of a file's block behind its title. -/
def IsFile (lines : List Text) : Prop :=
  ∃ type vault path uri size, lines = type :: vault :: path :: uri :: size ∧ Keyed "TYPE:" type ∧ Keyed "VAULT:" vault ∧
    Keyed "PATH:" path ∧ Keyed "URI:" uri ∧ OptionalLine "SIZE:" size

/-! ### Reading the lines -/

/-- What is left behind a block: the body, or the lines behind an earlier blank line. -/
def left : Option (List Text) → List Text
  | none => []
  | some lines => [] :: lines

def closeBlank : List Text → Option (Option (List Text))
  | [] => some none
  | line :: lines => if line = [] then some (some lines) else none

def closeOptional (name : String) (close : List Text → Option (Option (List Text))) : List Text → Option (Option (List Text))
  | [] => close []
  | line :: lines => if Keyed name line then close lines else close (line :: lines)

def closeKeyed (name : String) (close : List Text → Option (Option (List Text))) : List Text → Option (Option (List Text))
  | [] => none
  | line :: lines => if Keyed name line then close lines else none

def closeTail : List Text → Option (Option (List Text)) :=
  closeOptional "TAGS:" (closeKeyed "PATH:" (closeOptional "TYPE:" closeBlank))

def closeFile : List Text → Option (Option (List Text)) :=
  closeKeyed "TYPE:" (closeKeyed "VAULT:" (closeKeyed "PATH:" (closeKeyed "URI:" (closeOptional "SIZE:" closeBlank))))

variable {close : List Text → Option (Option (List Text))} {P : List Text → Prop}

/-- The reader takes off lines of this shape. -/
def Reads (close : List Text → Option (Option (List Text))) (P : List Text → Prop) : Prop :=
  ∀ lines rest, close lines = some rest ↔ ∃ read, P read ∧ lines = read ++ left rest

theorem reads_blank : Reads closeBlank (· = []) := by
  intro lines rest
  rw [exists_eq_left, List.nil_append]
  cases lines with
  | nil => cases rest <;> simp [closeBlank, left]
  | cons line lines =>
    rw [closeBlank]
    cases rest <;> by_cases hline : line = [] <;> simp [hline, left]

theorem reads_keyed (name : String) (h : Reads close P) :
    Reads (closeKeyed name close) (fun read => ∃ line lines, read = line :: lines ∧ Keyed name line ∧ P lines) := by
  intro lines rest
  constructor
  · intro hclose
    cases lines with
    | nil => cases hclose
    | cons line lines =>
      rw [closeKeyed] at hclose
      split at hclose
      · rename_i hkeyed
        obtain ⟨read, hread, rfl⟩ := (h lines rest).mp hclose
        exact ⟨line :: read, ⟨line, read, rfl, hkeyed, hread⟩, rfl⟩
      · cases hclose
  · rintro ⟨read, ⟨line, lines, rfl, hkeyed, hread⟩, rfl⟩
    rw [List.cons_append, closeKeyed, if_pos hkeyed]
    exact (h _ rest).mpr ⟨lines, hread, rfl⟩

/-- A reader that stops at this key reads on behind an optional line with it. -/
theorem reads_optional (name : String) (h : Reads close P) (hno : ∀ line lines, Keyed name line → close (line :: lines) = none) :
    Reads (closeOptional name close) (fun read => ∃ first lines, read = first ++ lines ∧ OptionalLine name first ∧ P lines) := by
  intro lines rest
  constructor
  · intro hclose
    cases lines with
    | nil =>
      obtain ⟨read, hread, heq⟩ := (h [] rest).mp hclose
      exact ⟨read, ⟨[], read, rfl, Or.inl rfl, hread⟩, heq⟩
    | cons line lines =>
      rw [closeOptional] at hclose
      split at hclose
      · rename_i hkeyed
        obtain ⟨read, hread, rfl⟩ := (h lines rest).mp hclose
        exact ⟨line :: read, ⟨[line], read, rfl, Or.inr ⟨line, rfl, hkeyed⟩, hread⟩, rfl⟩
      · obtain ⟨read, hread, heq⟩ := (h _ rest).mp hclose
        exact ⟨read, ⟨[], read, rfl, Or.inl rfl, hread⟩, heq⟩
  · rintro ⟨read, ⟨first, lines, rfl, hfirst, hread⟩, rfl⟩
    have hclose := (h (lines ++ left rest) rest).mpr ⟨lines, hread, rfl⟩
    rcases hfirst with rfl | ⟨line, rfl, hkeyed⟩
    · rw [List.nil_append]
      cases hlines : lines ++ left rest with
      | nil =>
        rw [hlines] at hclose
        exact hclose
      | cons line more =>
        rw [hlines] at hclose
        rw [closeOptional, if_neg]
        · exact hclose
        · intro hkeyed
          rw [hno line more hkeyed] at hclose
          cases hclose
    · rw [List.append_assoc, List.singleton_append, closeOptional, if_pos hkeyed]
      exact hclose

theorem Keyed.ne_nil {name : String} {line : Text} (h : Keyed name line) (hname : name.toList ≠ []) : line ≠ [] := by
  rintro rfl
  exact hname (List.prefix_nil.mp h)

/-- A line begins with one of two keys that differ. -/
theorem Keyed.not {name name' : String} {line : Text} (h : Keyed name line) (hname : ¬ name'.toList <+: name.toList)
    (hname' : ¬ name.toList <+: name'.toList) : ¬ Keyed name' line := by
  intro h'
  rcases List.prefix_or_prefix_of_prefix h h' with hin | hin
  · exact hname' hin
  · exact hname hin

theorem reads_tail : Reads closeTail IsTail := by
  have htype := reads_optional "TYPE:" reads_blank fun line lines hkeyed =>
    if_neg (hkeyed.ne_nil (by decide))
  have htags := reads_optional "TAGS:" (reads_keyed "PATH:" htype) fun line lines hkeyed =>
    if_neg (hkeyed.not (by decide) (by decide))
  intro lines rest
  rw [closeTail, htags]
  refine exists_congr fun read => and_congr_left' ?_
  constructor
  · rintro ⟨tags, more, rfl, htags, path, more', rfl, hpath, type, more'', rfl, htype, rfl⟩
    exact ⟨tags, path, type, by rw [List.append_nil], htags, hpath, htype⟩
  · rintro ⟨tags, path, type, rfl, htags, hpath, htype⟩
    exact ⟨tags, path :: type, rfl, htags, path, type, rfl, hpath, type, [], (List.append_nil type).symm, htype, rfl⟩

theorem reads_file : Reads closeFile IsFile := by
  have hsize := reads_optional "SIZE:" reads_blank fun line lines hkeyed =>
    if_neg (hkeyed.ne_nil (by decide))
  have hall := reads_keyed "TYPE:" (reads_keyed "VAULT:" (reads_keyed "PATH:" (reads_keyed "URI:" hsize)))
  intro lines rest
  rw [closeFile, hall]
  refine exists_congr fun read => and_congr_left' ?_
  constructor
  · rintro ⟨type, _, rfl, htype, vault, _, rfl, hvault, path, _, rfl, hpath, uri, _, rfl, huri, size, _, rfl, hsize, rfl⟩
    exact ⟨type, vault, path, uri, size, by rw [List.append_nil], htype, hvault, hpath, huri, hsize⟩
  · rintro ⟨type, vault, path, uri, size, rfl, htype, hvault, hpath, huri, hsize⟩
    exact ⟨type, _, rfl, htype, vault, _, rfl, hvault, path, _, rfl, hpath, uri, _, rfl, huri, size, [],
      (List.append_nil size).symm, hsize, rfl⟩

/-! ### The lines as a text -/

/-- A block with its blank line, and the body. -/
def block (lines : List Text) (body : Text) : Text := lines.flatMap (· ++ ['\n']) ++ '\n' :: body

def OneLiners (lines : List Text) : Prop := ∀ line ∈ lines, '\n' ∉ line

def behind (body : Text) : Option (List Text) → Text
  | none => body
  | some lines => block lines body

theorem block_cons (line : Text) (lines : List Text) (body : Text) : block (line :: lines) body = line ++ '\n' :: block lines body := by
  rw [block, List.flatMap_cons, List.append_assoc, List.append_assoc]
  rfl

/-- The expression does on the text what the reader does on the lines. -/
def OnText (m : Matcher) (close : List Text → Option (Option (List Text))) : Prop :=
  ∀ lines, OneLiners lines → ∀ body, m (block lines body) = (close lines).toList.map (behind body)

theorem onText_blank : OnText (lit ['\n']) closeBlank := by
  intro lines hlines body
  cases lines with
  | nil => rfl
  | cons line lines =>
    rw [block_cons, closeBlank]
    cases line with
    | nil => simp [lit, behind]
    | cons c line =>
      have hc : '\n' ≠ c := fun heq => hlines (c :: line) List.mem_cons_self (heq ▸ List.mem_cons_self)
      rw [if_neg (List.cons_ne_nil c line), List.cons_append, lit, if_neg]
      · rfl
      · exact fun hprefix => hc (List.cons_prefix_cons.mp hprefix).1

theorem key_block {name : String} (hline : '\n' ∉ name.toList) {line : Text} {lines : List Text} (hlines : OneLiners (line :: lines))
    (body : Text) : key name (block (line :: lines) body) = if Keyed name line then [block lines body] else [] := by
  rw [key, block_cons, keyLine_line hline (hlines line List.mem_cons_self)]
  rfl

theorem key_block_nil {name : String} (hname : name.toList ≠ []) (hline : '\n' ∉ name.toList) (body : Text) :
    key name (block [] body) = [] := by
  have hnone := keyLine_line hline (List.not_mem_nil (a := '\n')) body
  rwa [if_neg fun hprefix => hname (List.prefix_nil.mp hprefix)] at hnone

theorem onText_keyed {m : Matcher} {name : String} (hname : name.toList ≠ []) (hline : '\n' ∉ name.toList) (h : OnText m close) :
    OnText (seq (key name) m) (closeKeyed name close) := by
  intro lines hlines body
  cases lines with
  | nil =>
    rw [seq, key_block_nil hname hline]
    rfl
  | cons line lines =>
    obtain ⟨-, hrest⟩ := List.forall_mem_cons.mp hlines
    rw [seq, key_block hline hlines, closeKeyed]
    by_cases hkeyed : Keyed name line
    · rw [if_pos hkeyed, if_pos hkeyed, List.flatMap_singleton, h lines hrest]
    · rw [if_neg hkeyed, if_neg hkeyed]
      rfl

theorem onText_optional {m : Matcher} {name : String} (hname : name.toList ≠ []) (hline : '\n' ∉ name.toList) (h : OnText m close)
    (hno : ∀ line lines, Keyed name line → close (line :: lines) = none) :
    OnText (seq (opt (key name)) m) (closeOptional name close) := by
  intro lines hlines body
  have hself := h lines hlines body
  cases lines with
  | nil =>
    rw [seq, opt, List.flatMap_append, List.flatMap_singleton, hself, key_block_nil hname hline]
    rfl
  | cons line lines =>
    obtain ⟨-, hrest⟩ := List.forall_mem_cons.mp hlines
    rw [seq, opt, List.flatMap_append, List.flatMap_singleton, hself, key_block hline hlines, closeOptional]
    by_cases hkeyed : Keyed name line
    · rw [if_pos hkeyed, if_pos hkeyed, List.flatMap_singleton, h lines hrest, hno line lines hkeyed]
      exact List.append_nil _
    · rw [if_neg hkeyed, if_neg hkeyed]
      rfl

end Akb.Chunks
