import Akb.Chunks.Coverage
import Akb.Chunks.Splitter
import Akb.Chunks.NativeSections

/-! Which lines of a markdown text stand in its chunks: all those behind its first heading, and of those
before it the ones that stand again in a section. -/
namespace Akb.Chunks
open Akb.Library Akb.Library.Windows

/-! ### A short text in the chunks of a section -/

theorem infix_raw {raws : List Text} {t : Text} (h : t <:+: blankLine.intercalate raws) (hline : '\n' ∉ t) (hne : t ≠ []) :
    ∃ raw ∈ raws, t <:+: raw := by
  induction raws with
  | nil => exact absurd (List.infix_nil.mp h) hne
  | cons raw raws ih =>
    by_cases hraws : raws = []
    · subst hraws
      rw [List.intercalate_singleton] at h
      exact ⟨raw, List.mem_cons_self, h⟩
    · rw [PyReplace.intercalate_cons _ _ hraws, List.append_assoc] at h
      rcases infix_append_cons hline h with h | h
      · exact ⟨raw, List.mem_cons_self, h⟩
      · rcases infix_append_cons (a := []) hline h with h | h
        · exact absurd (List.infix_nil.mp h) hne
        · obtain ⟨raw', hmem, hin⟩ := ih h
          exact ⟨raw', List.mem_cons_of_mem raw hmem, hin⟩

variable {limit : Nat} {content t : Text}

theorem infix_hardSplit (hlimit : overlap < limit) {raw : Text} (h : t <:+: raw) (hshort : t.length ≤ overlap) :
    ∃ piece ∈ hardSplitByChars raw limit overlap, t <:+: piece := by
  unfold hardSplitByChars
  split
  · exact ⟨raw, List.mem_singleton_self raw, h⟩
  · have hstep : 0 < max 1 (limit - overlap) := by omega
    have hsum : max 1 (limit - overlap) + overlap ≤ limit := by omega
    have hwithin := windows_within hstep hsum 0 (placed_infix_text h) rfl (Nat.le_refl raw.length)
      (List.ne_nil_of_length_pos (by omega)) (Or.inl hstep) (List.forall_mem_singleton.mpr hshort)
    exact hwithin.exists_match t (List.mem_singleton_self t)

theorem infix_piece (hlimit : overlap < limit) (h : t <:+: content) (hline : '\n' ∉ t) (hne : t ≠ [])
    (hshort : t.length ≤ overlap) : ∃ piece ∈ piecesOf limit content, t <:+: piece := by
  unfold piecesOf
  split
  · exact ⟨content, List.mem_singleton_self content, h⟩
  · have hcontent : blankLine.intercalate (PyReplace.split blankLine content) = content :=
      PyReplace.intercalate_cuts blankLine content.length content
    obtain ⟨raw, hraw, hin⟩ := infix_raw (hcontent.symm ▸ h) hline hne
    obtain ⟨piece, hpiece, hin'⟩ := infix_hardSplit hlimit hin hshort
    exact ⟨piece, List.mem_flatMap.mpr ⟨raw, hraw, hpiece⟩, hin'⟩

/-- Texts without a newline that stand in the text stand in the content. -/
def From (content text : Text) : Prop := ∀ t, '\n' ∉ t → t <:+: text → t <:+: content

theorem From.of_infix {text : Text} (h : text <:+: content) : From content text := fun _ _ ht => ht.trans h

theorem From.sub {text part : Text} (h : From content text) (hpart : part <:+: text) : From content part :=
  fun t hline ht => h t hline (ht.trans hpart)

theorem From.join {a b : Text} (ha : From content a) (hb : From content b) : From content (a ++ blankLine ++ b) := by
  intro t hline ht
  rw [List.append_assoc] at ht
  rcases infix_append_cons hline ht with ht | ht
  · exact ha t hline ht
  · rcases infix_append_cons (a := []) hline ht with ht | ht
    · rw [List.infix_nil.mp ht]
      exact List.nil_infix
    · exact hb t hline ht

theorem raw_infix {raws : List Text} {raw : Text} (h : raw ∈ raws) : raw <:+: blankLine.intercalate raws := by
  induction raws with
  | nil => cases h
  | cons first raws ih =>
    by_cases hraws : raws = []
    · subst hraws
      rw [List.intercalate_singleton, List.mem_singleton.mp h]
    · rw [PyReplace.intercalate_cons _ _ hraws]
      rcases List.mem_cons.mp h with rfl | h
      · exact ((List.prefix_append _ _).trans (List.prefix_append _ _)).isInfix
      · exact (ih h).trans (List.suffix_append _ _).isInfix

theorem paragraph_infix {para : Text} (h : para ∈ paragraphs limit content) : para <:+: content := by
  obtain ⟨raw, hraw, hpara⟩ := List.mem_flatMap.mp h
  have hcontent : blankLine.intercalate (PyReplace.split blankLine content) = content :=
    PyReplace.intercalate_cuts blankLine content.length content
  have hin : raw <:+: content := hcontent ▸ raw_infix hraw
  unfold hardSplitByChars at hpara
  split at hpara
  · rwa [List.mem_singleton.mp hpara]
  · exact (infix_of_mem_windows hpara).trans hin

/-- Every text without a newline in the assembly comes from the content. -/
structure Assembly.Traced (content : Text) (s : Assembly) : Prop where
  current : From content s.current
  chunks : ∀ chunk ∈ s.chunks, From content chunk.content

theorem Assembly.Traced.close {s : Assembly} (h : s.Traced content) (sectionPath : Text) :
    From content (s.close sectionPath).content := h.current.sub (strip_infix_self s.current)

theorem Assembly.Traced.add {s : Assembly} (h : s.Traced content) (sectionPath : Text) {para : Text} (hpara : para <:+: content) :
    (s.add sectionPath limit para).Traced content := by
  unfold Assembly.add
  split
  · refine ⟨(h.current.sub (List.drop_suffix _ _).isInfix).join (From.of_infix hpara), ?_⟩
    exact List.forall_mem_append.mpr ⟨h.chunks, List.forall_mem_singleton.mpr (h.close sectionPath)⟩
  · refine ⟨?_, h.chunks⟩
    simp only
    split
    · exact From.of_infix hpara
    · exact h.current.join (From.of_infix hpara)

theorem Assembly.Traced.addAll {s : Assembly} (h : s.Traced content) (sectionPath : Text) {paras : List Text}
    (hparas : ∀ para ∈ paras, para <:+: content) : (paras.foldl (Assembly.add sectionPath limit) s).Traced content := by
  induction paras generalizing s with
  | nil => exact h
  | cons para paras ih =>
    rw [List.forall_mem_cons] at hparas
    exact ih (h.add sectionPath hparas.1) hparas.2

theorem from_splitLargeChunk (sectionPath content : Text) (charOffset limit : Nat) :
    ∀ chunk ∈ splitLargeChunk sectionPath content charOffset limit, From content chunk.content := by
  unfold splitLargeChunk
  split
  · exact List.forall_mem_singleton.mpr (From.of_infix List.infix_rfl)
  · have hstart : Assembly.Traced content ⟨[], [], charOffset⟩ :=
      ⟨From.of_infix List.nil_infix, fun chunk hchunk => absurd hchunk List.not_mem_nil⟩
    have hall : ((paragraphs limit content).foldl (Assembly.add sectionPath limit) ⟨[], [], charOffset⟩).Traced content :=
      hstart.addAll sectionPath fun para hpara => paragraph_infix hpara
    unfold Assembly.finish
    split
    · exact hall.chunks
    · exact List.forall_mem_append.mpr ⟨hall.chunks, List.forall_mem_singleton.mpr (hall.close sectionPath)⟩

/-- A short line stands in a chunk exactly when it stands in the text that is split. -/
theorem stands_iff (sectionPath : Text) (charOffset : Nat) (hlimit : overlap < limit) {line : Text} (hline : '\n' ∉ line)
    (hblank : PyText.strip line ≠ []) (hshort : line.length ≤ overlap) :
    (∃ chunk ∈ splitLargeChunk sectionPath content charOffset limit, StandsIn line chunk) ↔
      PyText.strip line <:+: content := by
  have hsub : PyText.strip line <:+: line := strip_infix_self line
  have hfree : '\n' ∉ PyText.strip line := fun h => hline (hsub.subset h)
  constructor
  · rintro ⟨chunk, hchunk, hstands⟩
    exact from_splitLargeChunk _ _ _ _ chunk hchunk _ hfree hstands
  · intro h
    obtain ⟨d, hd, hspace⟩ : ∃ d ∈ PyText.strip line, PyText.isSpace d = false := by
      obtain ⟨d, hd⟩ := Option.isSome_iff_exists.mp (List.isSome_head?.mpr hblank)
      exact ⟨d, List.mem_of_head? hd, PyText.head_of_strip (PyText.strip_strip line) d hd⟩
    obtain ⟨piece, hpiece, hin⟩ := infix_piece hlimit h hfree hblank (hsub.length_le.trans hshort)
    obtain ⟨chunk, hchunk, hkeeps⟩ := (pieces_within_chunks sectionPath hlimit
      (Or.inr ⟨d, h.subset hd, hspace⟩) charOffset).exists_match piece hpiece
    have hstands := hkeeps _ hin
    rw [StandsIn, PyText.strip_strip] at hstands
    exact ⟨chunk, hchunk, hstands⟩

end Akb.Chunks

/-! The markdown chunker keeps every short line behind the first heading, and before it those that stand again
in a section. -/
namespace Akb.Chunks
open Akb.Library

/-- A line of the text, with the offset at which it begins. -/
structure LineAt (content : Text) (start : Nat) (line : Text) : Prop where
  inside : start ≤ content.length
  begins : start = 0 ∨ content[start - 1]? = some '\n'
  text : line = (content.drop start).takeWhile (· ≠ '\n')

theorem LineAt.no_newline {content line : Text} {start : Nat} (h : LineAt content start line) : '\n' ∉ line := by
  intro hmem
  rw [h.text] at hmem
  have hne := List.all_eq_true.mp (List.all_takeWhile (p := (· ≠ '\n')) (l := content.drop start)) _ hmem
  exact absurd hne (by decide)

theorem LineAt.rest {content line : Text} {start : Nat} (h : LineAt content start line) : line <+: content.drop start :=
  h.text ▸ List.takeWhile_prefix _

/-- A line ends before a newline that stands behind its beginning. -/
theorem LineAt.stop_le {content line : Text} {start n : Nat} (h : LineAt content start line) (hn : start ≤ n)
    (hnewline : content[n]? = some '\n') : start + line.length ≤ n := by
  by_contra hlt
  obtain ⟨rest, hrest⟩ := h.rest
  have hget : (content.drop start)[n - start]? = some '\n' := by
    rw [List.getElem?_drop, Nat.add_sub_cancel' hn, hnewline]
  rw [← hrest, List.getElem?_append_left (by omega)] at hget
  exact h.no_newline (List.mem_of_getElem? hget)

theorem LineAt.stop_le_length {content line : Text} {start : Nat} (h : LineAt content start line) :
    start + line.length ≤ content.length := by
  have hle := h.rest.length_le
  have hinside := h.inside
  rw [List.length_drop] at hle
  omega

theorem LineAt.in_slice {content line : Text} {start stop : Nat} (h : LineAt content start line)
    (hstop : start + line.length ≤ stop) : line <+: slice content start stop := by
  rw [slice, List.drop_take]
  exact List.prefix_take_iff.mpr ⟨h.rest, by omega⟩

/-! ### One section -/

theorem head_slice {content : Text} {pos stop : Nat} (h : pos < stop) : (slice content pos stop).head? = content[pos]? := by
  rw [slice, List.head?_drop, List.getElem?_take_of_lt h]

/-- What stands behind the line of the heading, stripped, is the body. -/
theorem strip_rest {first rest line : Text} (hhash : first.head? = some '#') (hfirst : '\n' ∉ first)
    (hline : line <:+: rest) (hblank : PyText.strip line ≠ []) :
    PyText.strip line <:+: PyText.strip (((PyText.strip (first ++ '\n' :: rest)).dropWhile (· ≠ '\n')).drop 1) := by
  have hin := strip_infix hline
  obtain ⟨lead, trail, hall, hlead, htrail⟩ := PyText.strip_spec (first ++ '\n' :: rest)
  have hhead : (first ++ '\n' :: rest).head? = some '#' := by rw [List.head?_append, hhash, Option.some_or]
  have hnil : lead = [] := by
    cases lead with
    | nil => rfl
    | cons c lead =>
      rw [hall, List.append_assoc, List.cons_append, List.head?_cons] at hhead
      have hspace := hlead c List.mem_cons_self
      rw [Option.some.inj hhead] at hspace
      exact absurd hspace (by decide)
  rw [hnil, List.nil_append] at hall
  have hsuffix : trail <:+ rest := by
    rcases List.suffix_or_suffix_of_suffix ⟨_, hall.symm⟩ (⟨first ++ ['\n'], List.append_cons .. |>.symm⟩ : rest <:+ _) with h | h
    · exact h
    · have hnone : rest.dropWhile PyText.isSpace = [] :=
        List.dropWhile_eq_nil_iff.mpr fun c hc => htrail c (h.subset hc)
      have hstrip : PyText.strip rest = [] := List.prefix_nil.mp (hnone ▸ PyText.strip_prefix rest)
      rw [hstrip] at hin
      exact absurd (List.infix_nil.mp hin) hblank
  obtain ⟨kept, rfl⟩ := hsuffix
  have hsection : PyText.strip (first ++ '\n' :: (kept ++ trail)) = first ++ '\n' :: kept := by
    rw [← List.append_cancel_right_eq _ trail, List.append_assoc, List.cons_append]
    exact hall.symm
  have hkept : PyText.strip (kept ++ trail) = PyText.strip kept := by
    rw [PyText.strip_def, PyText.rstrip_append_blanks htrail, ← PyText.strip_def]
  rw [hsection, List.dropWhile_append_of_pos, List.dropWhile_cons_of_neg, List.drop_one, List.tail_cons, ← hkept]
  · exact hin
  · decide
  · exact fun c hc => decide_eq_true fun heq => hfirst (heq ▸ hc)

/-- A line between the line of the heading and the next heading stands in the body of the section. -/
theorem section_line {content line : Text} {pos nextPos start : Nat} (h : LineAt content start line)
    (hhash : content[pos]? = some '#') (hpos : pos < start) (hstop : start + line.length ≤ nextPos)
    (hblank : PyText.strip line ≠ []) : PyText.strip line <:+: sectionBody content pos nextPos := by
  have hnewline : '\n' ∈ slice content pos start := by
    have hget : (slice content pos start)[start - 1 - pos]? = some '\n' := by
      rw [slice, List.getElem?_drop, List.getElem?_take_of_lt (by omega), Nat.add_sub_cancel' (by omega)]
      exact h.begins.resolve_left (by omega)
    exact List.mem_of_getElem? hget
  obtain ⟨first, rest, hsplit, hfirst⟩ := List.eq_append_cons_of_mem hnewline
  have hhead : (slice content pos start).head? = content[pos]? := head_slice hpos
  have hfirstHash : first.head? = some '#' := by
    cases first with
    | nil =>
      rw [hsplit, hhash, List.nil_append, List.head?_cons] at hhead
      exact absurd hhead (by decide)
    | cons c first =>
      rw [hsplit, hhash] at hhead
      exact hhead
  have hall : slice content pos nextPos = first ++ '\n' :: (rest ++ slice content start nextPos) := by
    rw [← slice_append hpos.le (by omega : start ≤ nextPos), hsplit, List.append_assoc, List.cons_append]
  rw [sectionBody, ← slice, hall]
  exact strip_rest hfirstHash hfirst ((h.in_slice hstop).isInfix.trans (List.suffix_append _ _).isInfix) hblank

/-! ### All sections -/

/-- The headings of a text, as far as the lines between them need it. -/
structure HeadingsPlaced (content : Text) (headings : List Heading) : Prop where
  hash : ∀ h ∈ headings, content[h.pos]? = some '#'
  begins : ∀ h ∈ headings, h.pos = 0 ∨ content[h.pos - 1]? = some '\n'
  ordered : headings.Pairwise (fun a b => a.pos < b.pos)

theorem headings_placed (content : Text) : HeadingsPlaced content (findHeadings 0 true 0 content) := by
  obtain ⟨hat, hordered⟩ := findMatches_spec 0 true 0 content
  rw [findHeadings_eq]
  refine ⟨?_, ?_, ?_⟩
  · exact List.forall_mem_map.mpr fun m hm => (hat m hm).1.hash
  · refine List.forall_mem_map.mpr fun m hm => ?_
    by_cases hzero : m.heading.pos = 0
    · exact Or.inl hzero
    · exact Or.inr ((hat m hm).1.later (Nat.pos_of_ne_zero hzero))
  · rw [List.pairwise_map]
    refine hordered.imp_of_mem fun hm _ hle => ?_
    exact Nat.lt_of_lt_of_le (hat _ hm).1.nonempty hle

/-- Where the section of the heading before these ends. -/
def sectionEnd (content : Text) (headings : List Heading) : Nat := (headings.head?.map Heading.pos).getD content.length

def sectionText (content metadataHeader path : Text) (pos nextPos : Nat) : Text :=
  metadataHeader ++ ('[' :: path ++ "]\n".toList) ++ sectionBody content pos nextPos

theorem sectionsFrom_eq (content metadataHeader : Text) (stack : List (Nat × Text)) (h : Heading) (headings : List Heading) :
    sectionsFrom content metadataHeader stack (h :: headings) =
      if sectionBody content h.pos (sectionEnd content headings) = [] then
        sectionsFrom content metadataHeader (pushHeading stack h) headings
      else (h.pos, sectionPathOf (pushHeading stack h), sectionText content metadataHeader (sectionPathOf (pushHeading stack h))
        h.pos (sectionEnd content headings)) :: sectionsFrom content metadataHeader (pushHeading stack h) headings := by
  cases headings <;> rfl

theorem sectionsFrom_tail {content metadataHeader : Text} {stack : List (Nat × Text)} {h : Heading} {headings : List Heading}
    {part : Nat × Text × Text} (hpart : part ∈ sectionsFrom content metadataHeader (pushHeading stack h) headings) :
    part ∈ sectionsFrom content metadataHeader stack (h :: headings) := by
  rw [sectionsFrom_eq]
  split
  · exact hpart
  · exact List.mem_cons_of_mem _ hpart

theorem sectionsFrom_head {content t : Text} (metadataHeader : Text) (stack : List (Nat × Text)) {h : Heading}
    {headings : List Heading} (ht : t <:+: sectionBody content h.pos (sectionEnd content headings)) (hne : t ≠ []) :
    ∃ part ∈ sectionsFrom content metadataHeader stack (h :: headings), t <:+: part.2.2 := by
  have hbody : sectionBody content h.pos (sectionEnd content headings) ≠ [] := by
    intro hnil
    rw [hnil] at ht
    exact hne (List.infix_nil.mp ht)
  rw [sectionsFrom_eq, if_neg hbody]
  exact ⟨_, List.mem_cons_self, ht.trans (List.suffix_append _ _).isInfix⟩

/-- A line behind the first heading, which is no heading itself, stands in a section. -/
theorem sections_line {content line : Text} {start : Nat} (h : LineAt content start line) (hblank : PyText.strip line ≠ [])
    (metadataHeader : Text) (stack : List (Nat × Text)) {headings : List Heading} (hplaced : HeadingsPlaced content headings)
    (hno : ∀ heading ∈ headings, heading.pos ≠ start) (hafter : ∃ first ∈ headings.head?, first.pos < start) :
    ∃ part ∈ sectionsFrom content metadataHeader stack headings, PyText.strip line <:+: part.2.2 := by
  induction headings generalizing stack with
  | nil =>
    obtain ⟨first, hfirst, -⟩ := hafter
    cases hfirst
  | cons heading headings ih =>
    have hlt : heading.pos < start := by
      obtain ⟨first, hfirst, hlt⟩ := hafter
      rwa [Option.some.inj hfirst]
    have hhash : content[heading.pos]? = some '#' := hplaced.hash heading List.mem_cons_self
    by_cases hnext : ∃ next ∈ headings.head?, next.pos < start
    · have hrest : HeadingsPlaced content headings :=
        ⟨fun h' hh' => hplaced.hash h' (List.mem_cons_of_mem _ hh'), fun h' hh' => hplaced.begins h' (List.mem_cons_of_mem _ hh'),
          (List.pairwise_cons.mp hplaced.ordered).2⟩
      obtain ⟨part, hpart, hin⟩ := ih (pushHeading stack heading) hrest (fun h' hh' => hno h' (List.mem_cons_of_mem _ hh')) hnext
      exact ⟨part, sectionsFrom_tail hpart, hin⟩
    · refine sectionsFrom_head metadataHeader stack (section_line h hhash hlt ?_ hblank) hblank
      cases headings with
      | nil => exact h.stop_le_length
      | cons next headings =>
        have hmem : next ∈ heading :: next :: headings := List.mem_cons_of_mem _ List.mem_cons_self
        have hle : start < next.pos := by
          refine lt_of_le_of_ne (Nat.le_of_not_lt fun hlt => hnext ⟨next, rfl, hlt⟩) (Ne.symm (hno next hmem))
        have hnewline := (hplaced.begins next hmem).resolve_left (by omega)
        have hstop := h.stop_le (by omega) hnewline
        exact hstop.trans (Nat.sub_le _ _)

/-! ### All chunks -/

/-- Each short line that is no heading stands in a chunk. -/
def LinesKept (content metadataHeader : Text) : Prop :=
  ∀ start line, LineAt content start line → (∀ h ∈ findHeadings 0 true 0 content, h.pos ≠ start) → PyText.strip line ≠ [] →
    line.length ≤ overlap → ∃ chunk ∈ chunkMarkdown content metadataHeader, StandsIn line chunk

/-- Each short line before the first heading stands again in a section. -/
def LeadingLinesRepeated (content metadataHeader : Text) : Prop :=
  ∀ first ∈ (findHeadings 0 true 0 content).head?, ∀ start line, LineAt content start line → start < first.pos →
    PyText.strip line ≠ [] → line.length ≤ overlap →
    ∃ part ∈ sections content metadataHeader, PyText.strip line <:+: part.2.2

theorem exists_reindexed {chunks : List Chunk} {line : Text} :
    (∃ chunk ∈ reindex chunks, StandsIn line chunk) ↔ ∃ chunk ∈ chunks, StandsIn line chunk := by
  constructor
  · rintro ⟨chunk, hchunk, hstands⟩
    obtain ⟨i, hi, rfl⟩ := List.mem_mapIdx.mp hchunk
    exact ⟨chunks[i], List.getElem_mem hi, hstands⟩
  · rintro ⟨chunk, hchunk, hstands⟩
    obtain ⟨i, hi, rfl⟩ := List.mem_iff_getElem.mp hchunk
    exact ⟨{ chunks[i] with chunkIndex := i }, List.mem_mapIdx.mpr ⟨i, hi, rfl⟩, hstands⟩

theorem overlap_lt_maxChunkSize : overlap < maxChunkSize := by decide

theorem stands_in_chunks {content metadataHeader line : Text} (hheadings : findHeadings 0 true 0 content ≠ [])
    (hline : '\n' ∉ line) (hblank : PyText.strip line ≠ []) (hshort : line.length ≤ overlap) :
    (∃ chunk ∈ chunkMarkdown content metadataHeader, StandsIn line chunk) ↔
      ∃ part ∈ sections content metadataHeader, PyText.strip line <:+: part.2.2 := by
  rw [chunkMarkdown, if_neg hheadings, exists_reindexed]
  constructor
  · rintro ⟨chunk, hchunk, hstands⟩
    obtain ⟨part, hpart, hchunk⟩ := List.mem_flatMap.mp hchunk
    exact ⟨part, hpart, (stands_iff part.2.1 part.1 overlap_lt_maxChunkSize hline hblank hshort).mp ⟨chunk, hchunk, hstands⟩⟩
  · rintro ⟨part, hpart, hin⟩
    obtain ⟨chunk, hchunk, hstands⟩ := (stands_iff part.2.1 part.1 overlap_lt_maxChunkSize hline hblank hshort).mpr hin
    exact ⟨chunk, List.mem_flatMap.mpr ⟨part, hpart, hchunk⟩, hstands⟩

/-- No short line is lost exactly when those before the first heading stand again in a section. -/
theorem lines_kept_iff (content metadataHeader : Text) :
    LinesKept content metadataHeader ↔ LeadingLinesRepeated content metadataHeader := by
  have hplaced := headings_placed content
  constructor
  · intro h first hfirst start line hat hbefore hblank hshort
    have hheadings : findHeadings 0 true 0 content ≠ [] := by
      intro hnil
      rw [hnil] at hfirst
      cases hfirst
    refine (stands_in_chunks hheadings hat.no_newline hblank hshort).mp (h start line hat (fun heading hmem heq => ?_) hblank hshort)
    obtain ⟨rest, hrest⟩ := List.head?_eq_some_iff.mp hfirst
    have hordered := hplaced.ordered
    rw [hrest] at hordered hmem
    rcases List.mem_cons.mp hmem with rfl | hmem
    · omega
    · have hlt := (List.pairwise_cons.mp hordered).1 heading hmem
      omega
  · intro h start line hat hno hblank hshort
    by_cases hheadings : findHeadings 0 true 0 content = []
    · rw [chunkMarkdown, if_pos hheadings]
      refine (stands_iff [] 0 overlap_lt_maxChunkSize hat.no_newline hblank hshort).mpr ?_
      have hline : line <:+: content := hat.rest.isInfix.trans (List.drop_suffix start content).isInfix
      exact ((strip_infix_self line).trans hline).trans (List.suffix_append metadataHeader content).isInfix
    · refine (stands_in_chunks hheadings hat.no_newline hblank hshort).mpr ?_
      obtain ⟨first, rest, hrest⟩ := List.exists_cons_of_ne_nil hheadings
      have hfirst : first ∈ (findHeadings 0 true 0 content).head? := by rw [hrest, List.head?_cons, Option.mem_some]
      rcases lt_trichotomy start first.pos with hlt | heq | hgt
      · exact h first hfirst start line hat hlt hblank hshort
      · exact absurd heq.symm (hno first (List.mem_of_head? hfirst))
      · exact sections_line hat hblank metadataHeader [] hplaced hno ⟨first, hfirst, hgt⟩

/-- A paragraph before the only heading stands in no chunk. -/
theorem leading_paragraph_lost : ¬ LinesKept "intro\n\n# A\n\ntext".toList [] := by
  intro h
  obtain ⟨chunk, hchunk, hstands⟩ := h 0 "intro".toList ⟨by decide, Or.inl rfl, by decide⟩ (by decide +kernel) (by decide)
    (by decide)
  revert chunk
  unfold StandsIn
  decide

end Akb.Chunks
