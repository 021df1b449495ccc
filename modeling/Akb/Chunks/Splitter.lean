import Akb.Library.PyReplace
import Akb.Library.PyText
import Akb.Library.Windows

/-! The chunker of the index: texts by size, markdown by headings and then by size. -/
namespace Akb.Chunks
open Akb.Library

abbrev Text := List Char

structure Chunk where
  sectionPath : Text
  content : Text
  chunkIndex : Nat
  charStart : Nat
  charEnd : Nat
  deriving DecidableEq

def maxChunkSize : Nat := 1500

def overlap : Nat := 200

def blankLine : Text := ['\n', '\n']

/-- `_hard_split_by_chars`. -/
def hardSplitByChars (text : Text) (limit overlap : Nat) : List Text :=
  if text.length ≤ limit then [text] else Windows.windows limit (max 1 (limit - overlap)) text.length text

/-- The pieces that the assembly loop puts together. -/
def paragraphs (limit : Nat) (content : Text) : List Text :=
  (PyReplace.split blankLine content).flatMap (fun raw => hardSplitByChars raw limit overlap)

/-- The state of the assembly loop. -/
structure Assembly where
  chunks : List Chunk
  current : Text
  currentStart : Nat

def Assembly.close (s : Assembly) (sectionPath : Text) : Chunk :=
  ⟨sectionPath, PyText.strip s.current, s.chunks.length, s.currentStart, s.currentStart + s.current.length⟩

/-- `current[-OVERLAP:] if len(current) > OVERLAP else current`. -/
def carried (current : Text) : Text := current.drop (current.length - overlap)

def overfull (limit : Nat) (current para : Text) : Prop := limit < current.length + para.length + 2 ∧ current ≠ []

instance (limit : Nat) (current para : Text) : Decidable (overfull limit current para) := inferInstanceAs (Decidable (_ ∧ _))

def Assembly.add (sectionPath : Text) (limit : Nat) (s : Assembly) (para : Text) : Assembly :=
  if overfull limit s.current para then
    { chunks := s.chunks ++ [s.close sectionPath]
      current := carried s.current ++ blankLine ++ para
      currentStart := s.currentStart + s.current.length - (carried s.current).length }
  else { s with current := if s.current = [] then para else s.current ++ blankLine ++ para }

def Assembly.finish (sectionPath : Text) (s : Assembly) : List Chunk :=
  if PyText.strip s.current = [] then s.chunks else s.chunks ++ [s.close sectionPath]

/-- `_split_large_chunk`. -/
def splitLargeChunk (sectionPath content : Text) (charOffset limit : Nat) : List Chunk :=
  if content.length ≤ limit then [⟨sectionPath, content, 0, charOffset, charOffset + content.length⟩]
  else ((paragraphs limit content).foldl (Assembly.add sectionPath limit) ⟨[], [], charOffset⟩).finish sectionPath

/-- The characters of a chunk that the header leaves to the body. -/
def bodyBudget (metadataHeader : Text) : Nat := max (maxChunkSize / 2) (maxChunkSize - metadataHeader.length)

def chunkTextBody (content metadataHeader : Text) : List Chunk :=
  if metadataHeader = [] then splitLargeChunk [] content 0 maxChunkSize
  else (splitLargeChunk [] content 0 (bodyBudget metadataHeader)).map
    (fun chunk => { chunk with content := metadataHeader ++ chunk.content })

/-! ### Markdown -/

structure Heading where
  pos : Nat
  level : Nat
  title : Text
  deriving DecidableEq

/-- What `^(#{1,6})\s+(.+)$` matches at the beginning of a line: the level, the stripped title, the length. -/
def matchHeading (s : Text) : Option (Nat × Text × Nat) :=
  let level := (s.takeWhile (· = '#')).length
  let rest := s.drop level
  let blanks := rest.takeWhile PyText.isSpace
  let body := rest.drop blanks.length
  if level = 0 ∨ 6 < level ∨ blanks = [] then none
  else if body ≠ [] then
    let line := body.takeWhile (· ≠ '\n')
    some (level, PyText.strip line, level + blanks.length + line.length)
  -- Only blanks are left, and the title takes the last of them that it can.
  else if blanks.tail.any (· ≠ '\n') then some (level, [], level + (blanks.rdropWhile (· = '\n')).length) else none

/-- `_HEADING_RE.finditer`; `skip` characters belong to the last match. -/
def findHeadings : Nat → Bool → Nat → Text → List Heading
  | _, _, _, [] => []
  | skip + 1, _, pos, c :: s => findHeadings skip (c = '\n') (pos + 1) s
  | 0, lineStart, pos, c :: s =>
    match if lineStart then matchHeading (c :: s) else none with
    | some (level, title, length) => ⟨pos, level, title⟩ :: findHeadings (length - 1) (c = '\n') (pos + 1) s
    | none => findHeadings 0 (c = '\n') (pos + 1) s

/-- The section of a heading: its text without the line of the heading. -/
def sectionBody (content : Text) (pos nextPos : Nat) : Text :=
  let sectionContent := PyText.strip ((content.take nextPos).drop pos)
  PyText.strip ((sectionContent.dropWhile (· ≠ '\n')).drop 1)

/-- The headings above, the deepest first. -/
def pushHeading (stack : List (Nat × Text)) (h : Heading) : List (Nat × Text) :=
  (h.level, List.replicate h.level '#' ++ ' ' :: h.title) :: stack.dropWhile (fun e => h.level ≤ e.1)

def sectionPathOf (stack : List (Nat × Text)) : Text := " > ".toList.intercalate (stack.map Prod.snd).reverse

/-- The sections with a body: the position, the path and the text to split. -/
def sectionsFrom (content metadataHeader : Text) (stack : List (Nat × Text)) : List Heading → List (Nat × Text × Text)
  | [] => []
  | h :: headings =>
    let nextPos := match headings with
      | next :: _ => next.pos
      | [] => content.length
    let stack := pushHeading stack h
    let path := sectionPathOf stack
    let body := sectionBody content h.pos nextPos
    let rest := sectionsFrom content metadataHeader stack headings
    if body = [] then rest else (h.pos, path, metadataHeader ++ ('[' :: path ++ "]\n".toList) ++ body) :: rest

def sections (content metadataHeader : Text) : List (Nat × Text × Text) :=
  sectionsFrom content metadataHeader [] (findHeadings 0 true 0 content)

def reindex (chunks : List Chunk) : List Chunk := chunks.mapIdx (fun i chunk => { chunk with chunkIndex := i })

def chunkMarkdown (content metadataHeader : Text) : List Chunk :=
  if findHeadings 0 true 0 content = [] then splitLargeChunk [] (metadataHeader ++ content) 0 maxChunkSize
  else reindex ((sections content metadataHeader).flatMap
    (fun part => splitLargeChunk part.2.1 part.2.2 part.1 maxChunkSize))

/-! Where the headings of a markdown text begin and end. -/
/-- A match of `_HEADING_RE`, with its end. -/
structure HeadingMatch where
  heading : Heading
  stop : Nat
  deriving DecidableEq

/-- `_HEADING_RE.finditer`, with the ends of the matches. -/
def findMatches : Nat → Bool → Nat → Text → List HeadingMatch
  | _, _, _, [] => []
  | skip + 1, _, pos, c :: s => findMatches skip (c = '\n') (pos + 1) s
  | 0, lineStart, pos, c :: s =>
    match if lineStart then matchHeading (c :: s) else none with
    | some (level, title, length) =>
      ⟨⟨pos, level, title⟩, pos + length⟩ :: findMatches (length - 1) (c = '\n') (pos + 1) s
    | none => findMatches 0 (c = '\n') (pos + 1) s

def headingMatches (content : Text) : List HeadingMatch := findMatches 0 true 0 content

theorem findHeadings_eq (skip : Nat) (lineStart : Bool) (pos : Nat) (s : Text) :
    findHeadings skip lineStart pos s = (findMatches skip lineStart pos s).map HeadingMatch.heading := by
  induction s generalizing skip lineStart pos with
  | nil => cases skip <;> rfl
  | cons c s ih =>
    cases skip with
    | succ skip => exact ih skip _ _
    | zero =>
      simp only [findHeadings, findMatches]
      cases if lineStart then matchHeading (c :: s) else none with
      | none => exact ih 0 _ _
      | some found => exact congrArg _ (ih _ _ _)

/-- A match begins with `#` and has an end within the text. -/
theorem matchHeading_spec {s : Text} {level length : Nat} {title : Text} (h : matchHeading s = some (level, title, length)) :
    s.head? = some '#' ∧ 0 < length ∧ length ≤ s.length := by
  simp only [matchHeading] at h
  have hsplit := congrArg List.length (List.takeWhile_append_dropWhile (p := (· = '#')) (l := s))
  split at h
  · cases h
  rename_i hlevel
  simp only [not_or, not_lt] at hlevel
  have hhash : s.head? = some '#' := by
    cases s with
    | nil => exact absurd rfl hlevel.1
    | cons c s =>
      by_cases hc : c = '#'
      · rw [hc, List.head?_cons]
      · exact absurd (by simp [hc]) hlevel.1
  have hblanks : ((s.drop (s.takeWhile (· = '#')).length).takeWhile PyText.isSpace).length ≤
      (s.drop (s.takeWhile (· = '#')).length).length := (List.takeWhile_prefix _).length_le
  have hdrop := List.length_drop (l := s) (i := (s.takeWhile (· = '#')).length)
  have hlevelLe : (s.takeWhile (· = '#')).length ≤ s.length := (List.takeWhile_prefix _).length_le
  split at h
  · cases h
    refine ⟨hhash, by omega, ?_⟩
    have hline := (List.takeWhile_prefix (p := (· ≠ '\n')) (l := (s.drop (s.takeWhile (· = '#')).length).drop
      ((s.drop (s.takeWhile (· = '#')).length).takeWhile PyText.isSpace).length)).length_le
    rw [List.length_drop] at hline
    omega
  · split at h
    · cases h
      refine ⟨hhash, by omega, ?_⟩
      have htitle := (List.rdropWhile_prefix (p := (· = '\n'))
        (l := (s.drop (s.takeWhile (· = '#')).length).takeWhile PyText.isSpace)).length_le
      omega
    · cases h

/-- The match in a text that begins at `pos`; `lineStart` says whether it begins a line. -/
structure MatchAt (pos : Nat) (lineStart : Bool) (s : Text) (m : HeadingMatch) : Prop where
  here : pos ≤ m.heading.pos
  nonempty : m.heading.pos < m.stop
  stop : m.stop ≤ pos + s.length
  hash : s[m.heading.pos - pos]? = some '#'
  first : m.heading.pos = pos → lineStart = true
  later : pos < m.heading.pos → s[m.heading.pos - pos - 1]? = some '\n'

theorem MatchAt.cons {pos : Nat} {s : Text} {m : HeadingMatch} {c : Char} (h : MatchAt (pos + 1) (c = '\n') s m)
    (lineStart : Bool) : MatchAt pos lineStart (c :: s) m := by
  have hhere := h.here
  have hstop := h.stop
  refine ⟨by omega, h.nonempty, ?_, ?_, fun heq => by omega, fun _ => ?_⟩
  · rw [List.length_cons]
    omega
  · rw [show m.heading.pos - pos = (m.heading.pos - (pos + 1)) + 1 by omega, List.getElem?_cons_succ]
    exact h.hash
  · by_cases hfirst : m.heading.pos = pos + 1
    · have hc := of_decide_eq_true (h.first hfirst)
      rw [hfirst, hc]
      simp
    · rw [show m.heading.pos - pos - 1 = (m.heading.pos - (pos + 1) - 1) + 1 by omega, List.getElem?_cons_succ]
      exact h.later (by omega)

theorem findMatches_spec (skip : Nat) (lineStart : Bool) (pos : Nat) (s : Text) :
    (∀ m ∈ findMatches skip lineStart pos s, MatchAt pos lineStart s m ∧ pos + skip ≤ m.heading.pos) ∧
    (findMatches skip lineStart pos s).Pairwise (fun m n => m.stop ≤ n.heading.pos) := by
  induction s generalizing skip lineStart pos with
  | nil => cases skip <;> exact ⟨fun m hm => absurd hm List.not_mem_nil, List.Pairwise.nil⟩
  | cons c s ih =>
    cases skip with
    | succ skip =>
      rw [findMatches]
      refine ⟨fun m hm => ?_, (ih skip _ _).2⟩
      obtain ⟨hat, hskip⟩ := (ih skip _ _).1 m hm
      exact ⟨hat.cons lineStart, by omega⟩
    | zero =>
      rw [findMatches]
      cases hfound : if lineStart then matchHeading (c :: s) else none with
      | none =>
        refine ⟨fun m hm => ?_, (ih 0 _ _).2⟩
        obtain ⟨hat, hskip⟩ := (ih 0 _ _).1 m hm
        exact ⟨hat.cons lineStart, by omega⟩
      | some found =>
        obtain ⟨level, title, length⟩ := found
        obtain ⟨hstart, hmatch⟩ := Option.ite_none_right_eq_some.mp hfound
        obtain ⟨hhash, hpos, hlen⟩ := matchHeading_spec hmatch
        refine ⟨List.forall_mem_cons.mpr ⟨⟨⟨le_refl pos, ?_, ?_, ?_, fun _ => hstart, ?_⟩, le_refl pos⟩, fun m hm => ?_⟩,
          List.pairwise_cons.mpr ⟨fun m hm => ?_, (ih _ _ _).2⟩⟩
        · exact Nat.lt_add_of_pos_right hpos
        · exact Nat.add_le_add_left hlen pos
        · rw [Nat.sub_self, ← List.head?_eq_getElem?]
          exact hhash
        · exact fun hlt => absurd hlt (lt_irrefl pos)
        · obtain ⟨hat, hskip⟩ := (ih _ _ _).1 m hm
          exact ⟨hat.cons lineStart, by omega⟩
        · obtain ⟨-, hskip⟩ := (ih _ _ _).1 m hm
          change pos + length ≤ m.heading.pos
          omega

end Akb.Chunks
