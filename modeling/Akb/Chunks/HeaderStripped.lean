import Akb.Chunks.Headers
import Akb.Library.PyText

/-! When taking the metadata block off a chunk gives back its body. -/
namespace Akb.Chunks
open Akb.Library Backtracking

/-- The lines behind the first line of a summary end in a block, and no blank line among them ends one sooner. -/
structure SummaryReads (lines : List Text) : Prop where
  ends : ∃ more tail, lines = more ++ tail ∧ IsTail tail
  first : ∀ more tail rest, lines = more ++ tail ++ [] :: rest → ¬ IsTail tail

/-- The lines of a block, split at every newline and without the first one, read as one block. -/
def HeaderReads (lines : List Text) : Prop :=
  (∃ summary more, lines = summary :: more ∧ Keyed "SUMMARY:" summary ∧ SummaryReads more) ∨ IsTail lines ∨ IsFile lines

/-! ### The expression in parts -/

def docTail : Matcher := seq (opt (key "TAGS:")) (seq (key "PATH:") (seq (opt (key "TYPE:")) (lit ['\n'])))

def fileTail : Matcher :=
  seq (key "TYPE:") (seq (key "VAULT:") (seq (key "PATH:") (seq (key "URI:") (seq (opt (key "SIZE:")) (lit ['\n'])))))

def summaryRest : Matcher := seq (lit "SUMMARY:".toList) newlineRests

theorem chunkHeader_eq :
    chunkHeader = alt (seq (key "TITLE:") (seq (opt summaryRest) docTail)) (seq (key "TITLE:") fileTail) := by
  rw [chunkHeader, seq_alt, docMetadataHeader, fileMetadataHeader]
  simp only [seq_assoc, docTail, fileTail, summaryRest]

theorem onText_docTail : OnText docTail closeTail :=
  onText_optional (by decide) (by decide)
    (onText_keyed (by decide) (by decide)
      (onText_optional (by decide) (by decide) onText_blank fun _ _ hkeyed => if_neg (hkeyed.ne_nil (by decide))))
    fun _ _ hkeyed => if_neg (hkeyed.not (by decide) (by decide))

theorem onText_fileTail : OnText fileTail closeFile :=
  onText_keyed (by decide) (by decide) (onText_keyed (by decide) (by decide) (onText_keyed (by decide) (by decide)
    (onText_keyed (by decide) (by decide)
      (onText_optional (by decide) (by decide) onText_blank fun _ _ hkeyed => if_neg (hkeyed.ne_nil (by decide))))))

theorem closeTail_of_keyed {line : Text} (lines : List Text) (htags : ¬ Keyed "TAGS:" line) (hpath : ¬ Keyed "PATH:" line) :
    closeTail (line :: lines) = none := by
  rw [closeTail, closeOptional, if_neg htags, closeKeyed, if_neg hpath]

theorem closeFile_of_keyed {line : Text} (lines : List Text) (htype : ¬ Keyed "TYPE:" line) : closeFile (line :: lines) = none := by
  rw [closeFile, closeKeyed, if_neg htype]

theorem length_block (lines : List Text) (body : Text) : body.length < (block lines body).length := by
  rw [block, List.length_append, List.length_cons]
  omega

theorem behind_eq_body (body : Text) (rest : Option (List Text)) : behind body rest = body ↔ rest = none := by
  cases rest with
  | none => exact iff_of_true rfl rfl
  | some lines =>
    refine iff_of_false (fun heq => ?_) (Option.some_ne_none lines)
    have hlength := length_block lines body
    rw [show block lines body = body from heq] at hlength
    exact lt_irrefl _ hlength

/-! ### Behind a summary -/

/-- The blocks that end behind a newline, from here on. -/
def search (lines : List Text) (body : Text) : List Text := (block lines body :: newlineRests (block lines body)).flatMap docTail

theorem search_cons {line : Text} {lines : List Text} (hlines : OneLiners (line :: lines)) (body : Text) :
    search (line :: lines) body = docTail (block (line :: lines) body) ++ search lines body := by
  rw [search, List.flatMap_cons, search]
  congr 2
  rw [block_cons, newlineRests_line (hlines line List.mem_cons_self)]

theorem length_docTail {s rest : Text} (h : rest ∈ docTail s) : rest.length < s.length := by
  obtain ⟨a, ha, h⟩ := List.mem_flatMap.mp h
  obtain ⟨b, hb, h⟩ := List.mem_flatMap.mp h
  have hsa := ((consumes_keyLine _).opt s a ha).length_le
  have hab := length_keyLine (by decide) hb
  have hbr := (((consumes_keyLine _).opt.seq (consumes_lit _)) b rest h).length_le
  omega

/-- No block ends behind a body. -/
theorem search_nil (body : Text) : (search [] body).head? ≠ some body := by
  intro h
  have hrests : newlineRests (block [] body) = body :: newlineRests body := newlineRests_line (List.not_mem_nil (a := '\n')) body
  obtain ⟨s, hs, hrest⟩ := List.mem_flatMap.mp (List.mem_of_head? h)
  rcases List.mem_cons.mp hs with rfl | hs
  · rw [onText_docTail [] (fun _ hmem => absurd hmem List.not_mem_nil)] at hrest
    cases hrest
  · rw [hrests] at hs
    have hshort := length_docTail hrest
    rcases List.mem_cons.mp hs with rfl | hs
    · exact lt_irrefl _ hshort
    · have hle := (consumes_newlineRests body s hs).length_le
      omega

theorem IsTail.ne_nil {lines : List Text} (h : IsTail lines) : lines ≠ [] := by
  obtain ⟨tags, path, type, rfl, -⟩ := h
  exact List.append_ne_nil_of_right_ne_nil _ (List.cons_ne_nil _ _)

theorem OptionalLine.blank {name : String} {lines : List Text} (h : OptionalLine name lines) (hname : name.toList ≠ []) : [] ∉ lines := by
  rcases h with rfl | ⟨line, rfl, hkeyed⟩
  · exact List.not_mem_nil
  · rw [List.mem_singleton]
    exact (hkeyed.ne_nil hname).symm

theorem IsTail.blank {lines : List Text} (h : IsTail lines) : [] ∉ lines := by
  obtain ⟨tags, path, type, rfl, htags, hpath, htype⟩ := h
  intro hmem
  rcases List.mem_append.mp hmem with hmem | hmem
  · exact htags.blank (by decide) hmem
  · rcases List.mem_cons.mp hmem with heq | hmem
    · exact hpath.ne_nil (by decide) heq.symm
    · exact htype.blank (by decide) hmem

theorem not_summaryReads_nil : ¬ SummaryReads [] := by
  intro h
  obtain ⟨more, tail, heq, htail⟩ := h.ends
  exact htail.ne_nil (List.append_eq_nil_iff.mp heq.symm).2

/-- A line from which no block is read is one more line of the summary. -/
theorem summaryReads_cons {line : Text} {lines : List Text} (h : closeTail (line :: lines) = none) :
    SummaryReads (line :: lines) ↔ SummaryReads lines := by
  have hnone : ∀ tail rest, line :: lines = tail ++ left rest → ¬ IsTail tail := by
    intro tail rest heq htail
    have hsome := (reads_tail (line :: lines) rest).mpr ⟨tail, htail, heq⟩
    rw [h] at hsome
    cases hsome
  constructor
  · intro hreads
    refine ⟨?_, fun more tail rest heq => hreads.first (line :: more) tail rest (by rw [heq]; rfl)⟩
    obtain ⟨more, tail, heq, htail⟩ := hreads.ends
    cases more with
    | nil => exact absurd htail (hnone tail none (by rw [heq]; exact (List.append_nil tail).symm))
    | cons first more => exact ⟨more, tail, (List.cons.inj heq).2, htail⟩
  · intro hreads
    obtain ⟨more, tail, rfl, htail⟩ := hreads.ends
    refine ⟨⟨line :: more, tail, rfl, htail⟩, fun more' tail' rest heq htail' => ?_⟩
    cases more' with
    | nil => exact hnone tail' (some rest) heq htail'
    | cons first more' => exact hreads.first more' tail' rest (List.cons.inj heq).2 htail'

theorem search_body {lines : List Text} (hlines : OneLiners lines) (body : Text) :
    (search lines body).head? = some body ↔ SummaryReads lines := by
  induction lines with
  | nil => exact iff_of_false (search_nil body) not_summaryReads_nil
  | cons line lines ih =>
    rw [search_cons hlines, onText_docTail _ hlines]
    cases hclose : closeTail (line :: lines) with
    | none =>
      rw [summaryReads_cons hclose]
      exact ih (List.forall_mem_cons.mp hlines).2
    | some rest =>
      obtain ⟨read, hread, heq⟩ := (reads_tail _ _).mp hclose
      rw [Option.toList_some, List.map_singleton, List.singleton_append, List.head?_cons, Option.some.injEq, behind_eq_body, heq]
      cases rest with
      | none =>
        refine iff_of_true rfl ⟨⟨[], read, List.append_nil read, hread⟩, fun more tail rest heq' => ?_⟩
        have hmem : [] ∈ read := by
          rw [left, List.append_nil] at heq'
          rw [heq']
          exact List.mem_append_right _ List.mem_cons_self
        exact absurd hmem hread.blank
      | some rest =>
        exact iff_of_false (Option.some_ne_none rest) fun hreads => hreads.first [] read rest rfl hread

/-! ### The whole block -/

theorem summaryRest_keyed {summary : Text} {lines : List Text} (hlines : OneLiners (summary :: lines)) (h : Keyed "SUMMARY:" summary)
    (body : Text) : summaryRest (block (summary :: lines) body) = block lines body :: newlineRests (block lines body) := by
  obtain ⟨value, rfl⟩ := h
  have hvalue : '\n' ∉ value := fun hmem => hlines _ List.mem_cons_self (List.mem_append_right _ hmem)
  rw [summaryRest, seq, block_cons, List.append_assoc, lit, if_pos (List.prefix_append _ _), List.drop_left, List.flatMap_singleton,
    newlineRests_line hvalue]

theorem summaryRest_other {line : Text} {lines : List Text} (h : ¬ Keyed "SUMMARY:" line) (body : Text) :
    summaryRest (block (line :: lines) body) = [] := by
  rw [summaryRest, seq, block_cons, lit, if_neg]
  · rfl
  · exact fun hprefix => h ((prefix_line (by decide) _).mp hprefix)

theorem head_rests (body : Text) (a b : Option (Option (List Text))) :
    (a.toList.map (behind body) ++ b.toList.map (behind body)).head? = some body ↔ a = some none ∨ a = none ∧ b = some none := by
  cases a with
  | none =>
    cases b with
    | none => simp
    | some b => simp [behind_eq_body]
  | some a => simp [behind_eq_body]

theorem closes_tail_iff (lines : List Text) : closeTail lines = some none ↔ IsTail lines := by
  rw [reads_tail]
  constructor
  · rintro ⟨read, hread, rfl⟩
    rwa [left, List.append_nil]
  · exact fun h => ⟨lines, h, (List.append_nil lines).symm⟩

theorem closes_file_iff (lines : List Text) : closeFile lines = some none ↔ IsFile lines := by
  rw [reads_file]
  constructor
  · rintro ⟨read, hread, rfl⟩
    rwa [left, List.append_nil]
  · exact fun h => ⟨lines, h, (List.append_nil lines).symm⟩

theorem IsFile.closeTail {lines : List Text} (h : IsFile lines) : closeTail lines = none := by
  obtain ⟨type, vault, path, uri, size, rfl, htype, -⟩ := h
  exact closeTail_of_keyed _ (htype.not (by decide) (by decide)) (htype.not (by decide) (by decide))

theorem chunkHeader_block {title : Text} {lines : List Text} (hlines : OneLiners (title :: lines)) (htitle : Keyed "TITLE:" title)
    (body : Text) : chunkHeader (block (title :: lines) body) =
      (summaryRest (block lines body)).flatMap docTail ++ docTail (block lines body) ++ fileTail (block lines body) := by
  have hkey : key "TITLE:" (block (title :: lines) body) = [block lines body] := by
    rw [key_block (by decide) hlines, if_pos htitle]
  rw [chunkHeader_eq, alt, seq, seq, hkey, List.flatMap_singleton, List.flatMap_singleton, seq, opt, List.flatMap_append,
    List.flatMap_singleton]

/-- The expression takes off a block exactly when its lines read as one. -/
theorem chunkHeader_body {title : Text} {lines : List Text} (hlines : OneLiners (title :: lines)) (htitle : Keyed "TITLE:" title)
    (body : Text) : matchStart chunkHeader (block (title :: lines) body) = some body ↔ HeaderReads lines := by
  have hrest : OneLiners lines := (List.forall_mem_cons.mp hlines).2
  rw [matchStart, chunkHeader_block hlines htitle]
  by_cases hsummary : ∃ summary more, lines = summary :: more ∧ Keyed "SUMMARY:" summary
  · obtain ⟨summary, more, rfl, hkeyed⟩ := hsummary
    have htail : closeTail (summary :: more) = none :=
      closeTail_of_keyed more (hkeyed.not (by decide) (by decide)) (hkeyed.not (by decide) (by decide))
    have hfile : closeFile (summary :: more) = none := closeFile_of_keyed more (hkeyed.not (by decide) (by decide))
    rw [onText_docTail _ hrest, onText_fileTail _ hrest, htail, hfile, summaryRest_keyed hrest hkeyed]
    rw [Option.toList_none, List.map_nil, List.append_nil, List.append_nil, ← search, search_body (List.forall_mem_cons.mp hrest).2]
    constructor
    · exact fun hreads => Or.inl ⟨summary, more, rfl, hkeyed, hreads⟩
    · rintro (⟨summary', more', heq, -, hreads⟩ | htail' | hfile')
      · rw [(List.cons.inj heq).2]
        exact hreads
      · rw [(closes_tail_iff _).mpr htail'] at htail
        cases htail
      · rw [(closes_file_iff _).mpr hfile'] at hfile
        cases hfile
  · have hnone : summaryRest (block lines body) = [] := by
      cases lines with
      | nil =>
        rw [summaryRest, seq, lit, if_neg]
        · rfl
        · exact fun hprefix => absurd (List.cons_prefix_cons.mp hprefix).1 (by decide)
      | cons line lines => exact summaryRest_other (fun hkeyed => hsummary ⟨line, lines, rfl, hkeyed⟩) body
    rw [hnone, onText_docTail _ hrest, onText_fileTail _ hrest, List.flatMap_nil, List.nil_append, head_rests, closes_tail_iff,
      closes_file_iff]
    constructor
    · rintro (htail | ⟨-, hfile⟩)
      · exact Or.inr (Or.inl htail)
      · exact Or.inr (Or.inr hfile)
    · rintro (⟨summary, more, heq, hkeyed, -⟩ | htail | hfile)
      · exact absurd ⟨summary, more, heq, hkeyed⟩ hsummary
      · exact Or.inl htail
      · exact Or.inr ⟨hfile.closeTail, hfile⟩

/-! ### The builders -/

/-- The lines of a block as they stand in the text. -/
def physicalLines (lines : List Text) : List Text := (['\n'].intercalate lines).splitOn '\n'

theorem intercalate_newline {lines : List Text} (h : lines ≠ []) :
    ['\n'].intercalate lines ++ ['\n'] = lines.flatMap (· ++ ['\n']) := by
  induction lines with
  | nil => exact absurd rfl h
  | cons line lines ih =>
    by_cases hlines : lines = []
    · rw [hlines, List.intercalate_singleton, List.flatMap_singleton]
    · rw [PyReplace.intercalate_cons _ _ hlines, List.flatMap_cons, ← ih hlines, List.append_assoc]

theorem headerText_block (lines : List Text) (body : Text) : headerText lines ++ body = block (physicalLines lines) body := by
  have hjoin : ['\n'].intercalate (physicalLines lines) = ['\n'].intercalate lines := List.intercalate_splitOn '\n'
  have hne : physicalLines lines ≠ [] := List.splitOn_ne_nil '\n' _
  rw [headerText, block, ← intercalate_newline hne, hjoin, List.append_assoc, List.append_assoc]
  rfl

theorem oneLiners_physicalLines (lines : List Text) : OneLiners (physicalLines lines) := fun _ => Segments.notMem_of_mem_splitOn

/-- The first line of a block is the one with the title. -/
theorem physicalLines_title (title : Text) (lines : List Text) :
    ∃ first rest, physicalLines (("TITLE: ".toList ++ title) :: lines) = first :: rest ∧ Keyed "TITLE:" first := by
  obtain ⟨first, rest, hsplit⟩ := List.exists_cons_of_ne_nil (List.splitOn_ne_nil '\n' (['\n'].intercalate (("TITLE: ".toList ++ title) :: lines)))
  refine ⟨first, rest, hsplit, ?_⟩
  have hjoin : ['\n'].intercalate (first :: rest) = ['\n'].intercalate (("TITLE: ".toList ++ title) :: lines) :=
    hsplit ▸ List.intercalate_splitOn '\n'
  have hkey : "TITLE:".toList <+: ['\n'].intercalate (("TITLE: ".toList ++ title) :: lines) ++ ['\n'] := by
    rw [intercalate_newline (List.cons_ne_nil _ _), List.flatMap_cons, List.append_assoc, List.append_assoc]
    exact List.prefix_append _ _
  rw [← hjoin, intercalate_newline (List.cons_ne_nil _ _), List.flatMap_cons, List.append_assoc, List.singleton_append] at hkey
  exact (prefix_line (by decide) _).mp hkey

theorem strip_headerText (title : Text) (lines : List Text) (body : Text) :
    stripChunkMetadataHeader (headerText (("TITLE: ".toList ++ title) :: lines) ++ body) = body ↔
      HeaderReads (physicalLines (("TITLE: ".toList ++ title) :: lines)).tail := by
  obtain ⟨first, rest, hlines, hkeyed⟩ := physicalLines_title title lines
  have hone := oneLiners_physicalLines (("TITLE: ".toList ++ title) :: lines)
  rw [hlines] at hone
  rw [headerText_block, hlines, List.tail_cons, ← chunkHeader_body hone hkeyed body, stripChunkMetadataHeader]
  cases hmatch : matchStart chunkHeader (block (first :: rest) body) with
  | none =>
    refine iff_of_false (fun heq => ?_) (Option.some_ne_none body ∘ Eq.symm)
    have hlength := length_block (first :: rest) body
    rw [show block (first :: rest) body = body from heq] at hlength
    exact lt_irrefl _ hlength
  | some found => exact Option.some_inj.symm

/-- The body comes back exactly when the lines of its block read as one block. -/
theorem strip_header_iff (doc : DocHeader) (file : FileHeader) (body : Text) :
    (stripChunkMetadataHeader (buildDocMetadataHeader doc ++ body) = body ↔ HeaderReads (physicalLines doc.lines).tail) ∧
    (stripChunkMetadataHeader (buildFileMetadataHeader file ++ body) = body ↔ HeaderReads (physicalLines file.lines).tail) :=
  ⟨strip_headerText _ _ _, strip_headerText _ _ _⟩

/-- A summary with a path line and a blank line, which ends the block too soon. -/
def quotingHeader : DocHeader := ⟨"v".toList, "p.md".toList, "T".toList, some "see\nPATH: x\n\nmore".toList, [], none⟩

theorem summary_left_over : stripChunkMetadataHeader (buildDocMetadataHeader quotingHeader ++ "body".toList) ≠ "body".toList := by
  decide

end Akb.Chunks
