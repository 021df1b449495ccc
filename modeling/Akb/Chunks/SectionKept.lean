import Akb.Chunks.HeaderStripped
import Akb.Chunks.Coverage

/-! Reading a section back from its stored chunks. -/
namespace Akb.Chunks
open Akb.Library

/-- A chunk row as `drill_down` selects it. -/
structure StoredRow where
  docId : Option Text
  chunkIndex : Int
  sectionPath : Option Text
  content : Text
  deriving DecidableEq

/-- An entry of the section payload. -/
structure SectionEntry where
  sectionPath : Option Text
  content : Text
  chunkIndex : Int
  deriving DecidableEq

/-- `strip_chunk_context_line`. -/
def stripChunkContextLine (text : Text) (sectionPath : Option Text) : Text :=
  match sectionPath.filter (· ≠ []) with
  | none => text
  | some path =>
    let line := '[' :: path ++ [']']
    let rest := text.drop line.length
    if text = [] ∨ ¬ line <+: text then text
    else if "\r\n".toList <+: rest then rest.drop 2
    else if ['\n'] <+: rest then rest.drop 1
    else if rest = [] then rest
    else text

/-- The longest beginning of `current`, up to so many characters, that ends `previous` is taken off. -/
def stripOverlapUpTo (previous current : Text) : Nat → Text
  | 0 => current
  | size + 1 =>
    if current.take (size + 1) = previous.drop (previous.length - (size + 1)) then current.drop (size + 1)
    else stripOverlapUpTo previous current size

/-- `strip_chunk_overlap_prefix`. -/
def stripChunkOverlapPrefix (previous current : Text) : Text :=
  stripOverlapUpTo previous current (min overlap (min previous.length current.length))

/-- What is left of a row without its metadata block and its context line. -/
def StoredRow.stripped (row : StoredRow) : Text :=
  stripChunkContextLine (stripChunkMetadataHeader row.content) row.sectionPath

/-- The row that a document last contributed. -/
structure Prior where
  chunkIndex : Int
  content : Text
  sectionPath : Option Text

structure Cleaning where
  sections : List SectionEntry
  seen : List StoredRow
  previous : Option Text → Option Prior

/-- The position carries more than one body. -/
def Contested (rows : List StoredRow) (docId : Option Text) (chunkIndex : Int) : Prop :=
  ∃ a ∈ rows, ∃ b ∈ rows, a.docId = docId ∧ a.chunkIndex = chunkIndex ∧ b.docId = docId ∧ b.chunkIndex = chunkIndex ∧
    a.content ≠ b.content

instance (rows : List StoredRow) (docId : Option Text) (chunkIndex : Int) : Decidable (Contested rows docId chunkIndex) :=
  inferInstanceAs (Decidable (∃ a ∈ rows, ∃ b ∈ rows, _))

/-- The writer may have put the end of the prior row at the beginning of this one. -/
def Continues (rows : List StoredRow) (prior : Prior) (row : StoredRow) : Prop :=
  row.stripped = row.content ∧ prior.chunkIndex + 1 = row.chunkIndex ∧ prior.sectionPath = row.sectionPath ∧
    ¬ Contested rows row.docId prior.chunkIndex ∧ ¬ Contested rows row.docId row.chunkIndex

instance (rows : List StoredRow) (prior : Prior) (row : StoredRow) : Decidable (Continues rows prior row) :=
  inferInstanceAs (Decidable (_ ∧ _))

def cleaned (rows : List StoredRow) (prior : Option Prior) (row : StoredRow) : Text :=
  match prior with
  | some prior => if Continues rows prior row then stripChunkOverlapPrefix prior.content row.stripped else row.stripped
  | none => row.stripped

def Cleaning.visit (rows : List StoredRow) (s : Cleaning) (row : StoredRow) : Cleaning :=
  if row ∈ s.seen then s
  else
    let content := cleaned rows (s.previous row.docId) row
    { sections := s.sections ++ [⟨row.sectionPath, content, row.chunkIndex⟩]
      seen := s.seen ++ [row]
      previous := Function.update s.previous row.docId (some ⟨row.chunkIndex, content, row.sectionPath⟩) }

def Cleaning.start : Cleaning := ⟨[], [], fun _ => none⟩

/-- `clean_section_rows`. -/
def cleanSectionRows (rows : List StoredRow) : List SectionEntry := (rows.foldl (Cleaning.visit rows) Cleaning.start).sections

/-! Reading a section back: one entry for each distinct row, and no text lost with the overlaps. -/
/-! ### One row -/

theorem overlap_suffix (previous current : Text) (size : Nat) (hsize : size ≤ previous.length) :
    current <:+ previous ++ stripOverlapUpTo previous current size := by
  induction size with
  | zero => exact List.suffix_append _ _
  | succ size ih =>
    rw [stripOverlapUpTo]
    split
    · rename_i heq
      have hcurrent := List.take_append_drop (size + 1) current
      have hprevious := List.take_append_drop (previous.length - (size + 1)) previous
      rw [← heq] at hprevious
      refine ⟨previous.take (previous.length - (size + 1)), ?_⟩
      conv_lhs => rw [← hcurrent]
      rw [← List.append_assoc, hprevious]
    · exact ih (by omega)

theorem overlap_rest (previous current : Text) (size : Nat) : stripOverlapUpTo previous current size <:+ current := by
  induction size with
  | zero => exact List.suffix_rfl
  | succ size ih =>
    rw [stripOverlapUpTo]
    split
    · exact List.drop_suffix _ _
    · exact ih

theorem consumes_chunkHeader : Backtracking.Consumes chunkHeader := by
  have hkey (name : String) : Backtracking.Consumes (key name) := Backtracking.consumes_keyLine _
  have hdoc : Backtracking.Consumes docMetadataHeader :=
    (hkey _).seq ((((Backtracking.consumes_lit _).seq Backtracking.consumes_newlineRests).opt).seq
      ((hkey _).opt.seq ((hkey _).seq (hkey _).opt)))
  have hfile : Backtracking.Consumes fileMetadataHeader :=
    (hkey _).seq ((hkey _).seq ((hkey _).seq ((hkey _).seq ((hkey _).seq (hkey _).opt))))
  exact (hdoc.alt hfile).seq (Backtracking.consumes_lit _)

theorem strip_header_suffix (text : Text) : stripChunkMetadataHeader text <:+ text := by
  rw [stripChunkMetadataHeader]
  cases hmatch : Backtracking.matchStart chunkHeader text with
  | none => exact List.suffix_rfl
  | some rest => exact consumes_chunkHeader text rest (List.mem_of_head? hmatch)

theorem context_line_suffix (text : Text) (sectionPath : Option Text) : stripChunkContextLine text sectionPath <:+ text := by
  rw [stripChunkContextLine]
  split
  · exact List.suffix_rfl
  · simp only
    split
    · exact List.suffix_rfl
    · split
      · exact (List.drop_suffix _ _).trans (List.drop_suffix _ _)
      · split
        · exact (List.drop_suffix _ _).trans (List.drop_suffix _ _)
        · split
          · exact List.drop_suffix _ _
          · exact List.suffix_rfl

theorem cleaned_suffix (rows : List StoredRow) (prior : Option Prior) (row : StoredRow) :
    cleaned rows prior row <:+ row.content := by
  have hstripped : row.stripped <:+ row.content := (context_line_suffix _ _).trans (strip_header_suffix _)
  cases prior with
  | none => exact hstripped
  | some prior =>
    unfold cleaned
    simp only
    split
    · exact (overlap_rest _ _ _).trans hstripped
    · exact hstripped

/-- Behind what the prior row left, the text of the row stands in full. -/
theorem stripped_suffix (rows : List StoredRow) (prior : Option Prior) (row : StoredRow) {before : Text}
    (hprior : ∀ p ∈ prior, p.content <:+ before) : row.stripped <:+ before ++ cleaned rows prior row := by
  cases prior with
  | none => exact List.suffix_append _ _
  | some prior =>
    unfold cleaned
    simp only
    split
    · obtain ⟨lead, rfl⟩ := hprior prior rfl
      rw [List.append_assoc]
      exact (overlap_suffix _ _ _ (by omega)).trans (List.suffix_append _ _)
    · exact List.suffix_append _ _

/-! ### All rows -/

/-- The entries stand for the rows that differ, in their order. -/
structure OneToOne (rows : List StoredRow) (sections : List SectionEntry) : Prop where
  exists_distinct : ∃ distinct : List StoredRow, distinct.Nodup ∧ distinct.Sublist rows ∧ (∀ row, row ∈ distinct ↔ row ∈ rows) ∧
    List.Forall₂ (fun row entry => entry.sectionPath = row.sectionPath ∧ entry.chunkIndex = row.chunkIndex ∧
      entry.content <:+ row.content) distinct sections

def joined (sections : List SectionEntry) : Text := sections.flatMap SectionEntry.content

def OneDocument (rows : List StoredRow) : Prop := ∀ a ∈ rows, ∀ b ∈ rows, a.docId = b.docId

/-- Every line that a row holds behind its metadata block and context line stands in the entries together. -/
def KeepsLines (rows : List StoredRow) (sections : List SectionEntry) : Prop :=
  ∀ row ∈ rows, ∀ line, line <:+: row.stripped → line <:+: joined sections

/-- What the rows seen so far have left behind. -/
structure Cleaned (rows : List StoredRow) (s : Cleaning) : Prop where
  nodup : s.seen.Nodup
  sublist : s.seen.Sublist rows
  mem : ∀ row, row ∈ s.seen ↔ row ∈ rows
  entries : List.Forall₂ (fun row entry => entry.sectionPath = row.sectionPath ∧ entry.chunkIndex = row.chunkIndex ∧
    entry.content <:+ row.content) s.seen s.sections

theorem Cleaned.visit {all rows : List StoredRow} {s : Cleaning} (h : Cleaned rows s) (row : StoredRow) :
    Cleaned (rows ++ [row]) (s.visit all row) := by
  rw [Cleaning.visit]
  split
  · rename_i hseen
    refine ⟨h.nodup, h.sublist.trans (List.sublist_append_left _ _), fun other => ?_, h.entries⟩
    rw [h.mem, List.mem_append, List.mem_singleton]
    constructor
    · exact Or.inl
    · rintro (hother | rfl)
      · exact hother
      · exact (h.mem other).mp hseen
  · rename_i hseen
    refine ⟨?_, h.sublist.append (List.Sublist.refl _), fun other => ?_, ?_⟩
    · exact List.nodup_append.mpr ⟨h.nodup, List.pairwise_singleton _ row, fun a ha b hb heq => hseen (List.mem_singleton.mp hb ▸ heq ▸ ha)⟩
    · rw [List.mem_append, List.mem_append, h.mem]
    · exact List.rel_append h.entries (.cons ⟨rfl, rfl, cleaned_suffix _ _ _⟩ .nil)

theorem cleaned_all (all rows : List StoredRow) : Cleaned rows (rows.foldl (Cleaning.visit all) Cleaning.start) := by
  induction rows using List.reverseRecOn with
  | nil => exact ⟨List.nodup_nil, List.Sublist.refl _, fun _ => Iff.rfl, .nil⟩
  | append_singleton rows row ih =>
    rw [List.foldl_append]
    exact ih.visit row

/-- The text of every row seen so far, and where the last one ends. -/
structure Joined (docId : Option Text) (s : Cleaning) : Prop where
  kept : ∀ row ∈ s.seen, row.stripped <:+: joined s.sections
  last : ∀ prior ∈ s.previous docId, prior.content <:+ joined s.sections

theorem joined_snoc (sections : List SectionEntry) (entry : SectionEntry) :
    joined (sections ++ [entry]) = joined sections ++ entry.content := by
  rw [joined, List.flatMap_append, List.flatMap_singleton]
  rfl

theorem Joined.visit {all : List StoredRow} {s : Cleaning} {row : StoredRow} (h : Joined row.docId s) :
    Joined row.docId (s.visit all row) := by
  rw [Cleaning.visit]
  split
  · exact h
  · have hsuffix := stripped_suffix all (s.previous row.docId) row h.last
    refine ⟨List.forall_mem_append.mpr ⟨fun other hother => ?_, List.forall_mem_singleton.mpr ?_⟩, fun prior hprior => ?_⟩
    · rw [joined_snoc]
      exact (h.kept other hother).trans (List.prefix_append _ _).isInfix
    · rw [joined_snoc]
      exact hsuffix.isInfix
    · simp only [Function.update_self, Option.mem_some_iff] at hprior
      rw [joined_snoc, ← hprior]
      exact List.suffix_append _ _

theorem joined_all (all : List StoredRow) {docId : Option Text} {rows : List StoredRow} (hrows : ∀ row ∈ rows, row.docId = docId) :
    Joined docId (rows.foldl (Cleaning.visit all) Cleaning.start) := by
  induction rows using List.reverseRecOn with
  | nil => exact ⟨fun _ h => absurd h List.not_mem_nil, fun _ h => absurd h (Option.not_mem_none _)⟩
  | append_singleton rows row ih =>
    obtain ⟨hrest, hrow⟩ := List.forall_mem_append.mp hrows
    have hdoc := hrow row List.mem_cons_self
    rw [List.foldl_append]
    subst hdoc
    exact (ih hrest).visit

/-- The entries stand one to one for the rows that differ, and those of one document hold every line of its rows. -/
theorem section_rows_kept (rows : List StoredRow) :
    OneToOne rows (cleanSectionRows rows) ∧ (OneDocument rows → KeepsLines rows (cleanSectionRows rows)) := by
  have hcleaned := cleaned_all rows rows
  refine ⟨⟨_, hcleaned.nodup, hcleaned.sublist, hcleaned.mem, hcleaned.entries⟩, fun hone row hrow line hline => ?_⟩
  have hjoined := joined_all rows fun other hother => hone other hother row hrow
  exact hline.trans (hjoined.kept row ((hcleaned.mem row).mpr hrow))

/-- The rows of the chunks of one section. -/
def sectionRows (docId : Option Text) (first : Int) (chunks : List Chunk) : List StoredRow :=
  chunks.map (fun chunk => ⟨docId, first + chunk.chunkIndex, some chunk.sectionPath, chunk.content⟩)

theorem sectionRows_oneDocument (docId : Option Text) (first : Int) (chunks : List Chunk) :
    OneDocument (sectionRows docId first chunks) := by
  intro a ha b hb
  obtain ⟨chunk, -, rfl⟩ := List.mem_map.mp ha
  obtain ⟨chunk', -, rfl⟩ := List.mem_map.mp hb
  rfl

def headedSection : Text := "TITLE: T\nPATH: v/p.md\n\n[# A]\nbody".toList

theorem headed_section_kept : KeepsLines (sectionRows none 0 (splitLargeChunk "# A".toList headedSection 0 maxChunkSize))
    (cleanSectionRows (sectionRows none 0 (splitLargeChunk "# A".toList headedSection 0 maxChunkSize))) :=
  (section_rows_kept _).2 (sectionRows_oneDocument _ _ _)

/-- The context line of a section stands in its stored chunk, and is not given back. -/
theorem context_line_removed :
    ¬ ∀ (sectionPath content : Text) (charOffset : Nat), ∀ line ∈ bodyLines content,
      (∃ row ∈ sectionRows none 0 (splitLargeChunk sectionPath content charOffset maxChunkSize), line <:+: row.content) →
      line <:+: joined (cleanSectionRows (sectionRows none 0 (splitLargeChunk sectionPath content charOffset maxChunkSize))) := by
  intro h
  have hline := h "# A".toList headedSection 0 "[# A]".toList (by decide) (by decide)
  revert hline
  decide

end Akb.Chunks
