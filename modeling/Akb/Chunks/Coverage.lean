import Akb.Chunks.Bounded
import Akb.Library.PyLines

/-! What the chunks of a text body keep of it: its short lines in order, and every character that is no blank. -/
namespace Akb.Chunks
open Akb.Library Akb.Library.Matching Akb.Library.Windows

/-- `content.split("\n")`. -/
def bodyLines (content : Text) : List Text := content.splitOn '\n'

/-- The lines that no split between two windows can cut. -/
def shortLines (content : Text) : List Text := (bodyLines content).filter (fun line => line.length ≤ overlap)

/-- The stripped line stands in the chunk. -/
def StandsIn (line : Text) (chunk : Chunk) : Prop := PyText.strip line <:+: chunk.content

/-- The character at `x` lies in a paragraph of the body, or in a part of one longer than the overlap, that stands in a
chunk. -/
def Covered (content : Text) (chunks : List Chunk) (x : Nat) : Prop :=
  ∃ before part after, content = before ++ part ++ after ∧ before.length ≤ x ∧ x < before.length + part.length ∧
    (part ∈ PyReplace.split blankLine content ∨ overlap < part.length) ∧ ∃ chunk ∈ chunks, StandsIn part chunk

/-! ### Stripping keeps what stands inside -/

theorem dropWhile_append_stop {p : Char → Bool} (a : Text) {s : Text} {c : Char} (hs : s.head? = some c) (hc : p c = false) :
    ∃ b, (a ++ s).dropWhile p = b ++ s := by
  induction a with
  | nil =>
    obtain ⟨s, rfl⟩ := List.head?_eq_some_iff.mp hs
    exact ⟨[], List.dropWhile_cons_of_neg (by simp [hc])⟩
  | cons d a ih =>
    rw [List.cons_append, List.dropWhile_cons]
    split
    · exact ih
    · exact ⟨d :: a, rfl⟩

theorem strip_infix {line s : Text} (h : line <:+: s) : PyText.strip line <:+: PyText.strip s := by
  obtain ⟨lead, trail, hline, -, -⟩ := PyText.strip_spec line
  obtain ⟨a, b, hs⟩ := h
  by_cases hnil : PyText.strip line = []
  · rw [hnil]
    exact List.nil_infix
  have hne : (PyText.strip line).reverse ≠ [] := by simpa using hnil
  obtain ⟨c, hc⟩ := Option.isSome_iff_exists.mp (List.isSome_head?.mpr hnil)
  obtain ⟨d, hd⟩ := Option.isSome_iff_exists.mp (List.isSome_head?.mpr hne)
  have hcspace : PyText.isSpace c = false := by
    have hhead := List.head?_dropWhile_not PyText.isSpace (PyText.rstrip line)
    rw [← PyText.strip_def, hc] at hhead
    exact hhead
  have hdspace : PyText.isSpace d = false := by
    have hhead := List.head?_dropWhile_not PyText.isSpace (PyText.strip line).reverse
    have hstrip : ((PyText.strip line).reverse.dropWhile PyText.isSpace) = (PyText.strip line).reverse := by
      have hr := PyText.rstrip_strip line
      rw [PyText.rstrip, List.rdropWhile] at hr
      rw [← List.reverse_reverse ((PyText.strip line).reverse.dropWhile PyText.isSpace), hr]
    rw [hstrip, hd] at hhead
    exact hhead
  have hwhole : s = (a ++ lead) ++ PyText.strip line ++ (trail ++ b) := by
    rw [← hs]
    conv_lhs => rw [hline]
    simp only [List.append_assoc]
  have hreverse : s.reverse = (trail ++ b).reverse ++ ((PyText.strip line).reverse ++ (a ++ lead).reverse) := by
    rw [hwhole]
    simp only [List.reverse_append, List.append_assoc]
  have hhead : ((PyText.strip line).reverse ++ (a ++ lead).reverse).head? = some d := by
    rw [List.head?_append_of_ne_nil _ hne]
    exact hd
  obtain ⟨back, hback⟩ := dropWhile_append_stop (p := PyText.isSpace) (trail ++ b).reverse hhead hdspace
  have hhead' : (PyText.strip line ++ back.reverse).head? = some c := by
    rw [List.head?_append_of_ne_nil _ hnil]
    exact hc
  obtain ⟨front, hfront⟩ := dropWhile_append_stop (p := PyText.isSpace) (a ++ lead) hhead' hcspace
  have hstrip : PyText.strip s = front ++ (PyText.strip line ++ back.reverse) := by
    have hstep : (s.reverse.dropWhile PyText.isSpace).reverse = a ++ lead ++ (PyText.strip line ++ back.reverse) := by
      rw [hreverse, hback]
      simp only [List.reverse_append, List.reverse_reverse, List.append_assoc]
    rw [← hfront, ← hstep]
    rfl
  exact ⟨front, back.reverse, by rw [hstrip, List.append_assoc]⟩

/-! ### The assembly loop keeps every piece -/

/-- Whatever stands in the piece stands in the chunk. -/
def Keeps (piece : Text) (chunk : Chunk) : Prop := ∀ line, line <:+: piece → StandsIn line chunk

theorem keeps_close {s : Assembly} {piece : Text} (h : piece <:+: s.current) (sectionPath : Text) :
    Keeps piece (s.close sectionPath) := fun _ hline => strip_infix (hline.trans h)

/-- The pieces so far: the first of them stand in the chunks, the others in the text at hand. -/
structure Kept (pieces : List Text) (s : Assembly) : Prop where
  split : ∃ closed pending, pieces = closed ++ pending ∧ Within Keeps closed s.chunks ∧ ∀ piece ∈ pending, piece <:+: s.current
  indices : s.chunks.map Chunk.chunkIndex = List.range s.chunks.length

variable {sectionPath : Text} {limit : Nat}

theorem close_index (s : Assembly) : (s.close sectionPath).chunkIndex = s.chunks.length := rfl

theorem indices_close {s : Assembly} (h : s.chunks.map Chunk.chunkIndex = List.range s.chunks.length) (sectionPath : Text) :
    (s.chunks ++ [s.close sectionPath]).map Chunk.chunkIndex = List.range (s.chunks ++ [s.close sectionPath]).length := by
  rw [List.map_append, h, List.map_singleton, close_index, List.length_append, List.length_singleton, List.range_succ]

theorem Kept.add {pieces : List Text} {s : Assembly} (h : Kept pieces s) (sectionPath : Text) (limit : Nat) (para : Text) :
    Kept (pieces ++ [para]) (s.add sectionPath limit para) := by
  obtain ⟨closed, pending, hpieces, hclosed, hpending⟩ := h.split
  unfold Assembly.add
  split
  · refine ⟨⟨closed ++ pending, [para], by rw [hpieces], ?_, ?_⟩, indices_close h.indices sectionPath⟩
    · exact hclosed.append (.all_to_one (fun piece hp => keeps_close (hpending piece hp) sectionPath) [])
    · exact List.forall_mem_singleton.mpr (List.suffix_append _ para).isInfix
  · refine ⟨⟨closed, pending ++ [para], by rw [hpieces, List.append_assoc], hclosed, ?_⟩, h.indices⟩
    refine List.forall_mem_append.mpr ⟨fun piece hp => ?_, List.forall_mem_singleton.mpr ?_⟩
    · have hin := hpending piece hp
      simp only
      split
      · rename_i hempty
        rw [hempty, List.infix_nil] at hin
        rw [hin]
        exact List.nil_infix
      · exact hin.trans (((List.prefix_append _ _).trans (List.prefix_append _ _)).isInfix)
    · simp only
      split
      · exact List.infix_rfl
      · exact (List.suffix_append _ para).isInfix

theorem Kept.addAll {pieces : List Text} {s : Assembly} (h : Kept pieces s) (sectionPath : Text) (limit : Nat)
    (paras : List Text) :
    Kept (pieces ++ paras) (paras.foldl (Assembly.add sectionPath limit) s) := by
  induction paras generalizing pieces s with
  | nil => rwa [List.append_nil]
  | cons para paras ih =>
    have hnext := ih (h.add sectionPath limit para)
    rwa [List.append_assoc] at hnext

/-- What the loop leaves: every piece in some chunk, unless nothing but blanks came. -/
theorem Kept.finish {pieces : List Text} {s : Assembly} (h : Kept pieces s)
    (hne : s.finish sectionPath ≠ []) : Within Keeps pieces (s.finish sectionPath) := by
  obtain ⟨closed, pending, rfl, hclosed, hpending⟩ := h.split
  unfold Assembly.finish at hne ⊢
  split at hne
  · rename_i hblank
    rw [if_pos hblank]
    refine hclosed.append_free hne fun piece hp chunk line hline => ?_
    have hstrip := strip_infix (hline.trans (hpending piece hp))
    rw [hblank, List.infix_nil] at hstrip
    rw [StandsIn, hstrip]
    exact List.nil_infix
  · rename_i hkept
    rw [if_neg hkept]
    exact hclosed.append (.all_to_one (fun piece hp => keeps_close (hpending piece hp) sectionPath) [])

/-! ### The pieces of a body -/

theorem placed_lines (s : Text) : Placed (bodyLines s) s := by
  have hhead : ∃ line rest, bodyLines s = line :: rest ∧ line <+: s ∧ Placed rest s := by
    induction s with
    | nil => exact ⟨[], [], rfl, List.prefix_rfl, .nil _⟩
    | cons c s ih =>
      obtain ⟨line, rest, hlines, hprefix, hplaced⟩ := ih
      rw [bodyLines] at hlines ⊢
      rw [List.splitOn_cons_eq_if_modifyHead, hlines]
      split
      · exact ⟨[], line :: rest, rfl, List.nil_prefix, (hplaced.here hprefix).later⟩
      · exact ⟨c :: line, rest, rfl, List.cons_prefix_cons.mpr ⟨rfl, hprefix⟩, hplaced.later⟩
  obtain ⟨line, rest, hlines, hprefix, hplaced⟩ := hhead
  rw [hlines]
  exact hplaced.here hprefix

theorem short_of_mem {content line : Text} (h : line ∈ shortLines content) : line.length ≤ overlap :=
  of_decide_eq_true (List.mem_filter.mp h).2

theorem shortLines_placed (s : Text) : Placed (shortLines s) s := (placed_lines s).filter _

theorem hardSplit_ne_nil (text : Text) (limit : Nat) : hardSplitByChars text limit overlap ≠ [] := by
  unfold hardSplitByChars
  split
  · exact List.cons_ne_nil _ _
  · rename_i hlong
    have hne : text ≠ [] := List.ne_nil_of_length_pos (by omega)
    obtain ⟨n, hn⟩ := Nat.exists_eq_succ_of_ne_zero (List.length_pos_iff.mpr hne).ne'
    rw [hn, windows, if_neg hne]
    exact List.cons_ne_nil _ _

theorem lines_within_hardSplit (hlimit : overlap < limit) (text : Text) :
    Within (· <:+: ·) (shortLines text) (hardSplitByChars text limit overlap) := by
  unfold hardSplitByChars
  split
  · exact (shortLines_placed text).within
  · rename_i hlong
    have hstep : 0 < max 1 (limit - overlap) := by omega
    have hsum : max 1 (limit - overlap) + overlap ≤ limit := by omega
    refine windows_within hstep hsum 0 (shortLines_placed text) rfl (Nat.le_refl _) ?_ (Or.inl ?_) fun line => short_of_mem
    · exact List.ne_nil_of_length_pos (by omega)
    · omega

theorem shortLines_newline (rest : Text) : shortLines ('\n' :: rest) = [] :: shortLines rest := by
  rw [shortLines, bodyLines, ← List.nil_append ('\n' :: rest), List.splitOn_append_cons_self, List.filter_append]
  rfl

theorem shortLines_blankLine (raw rest : Text) :
    shortLines (raw ++ blankLine ++ rest) = shortLines raw ++ [] :: shortLines rest := by
  have hcons : raw ++ blankLine ++ rest = raw ++ '\n' :: '\n' :: rest := by simp [blankLine]
  rw [← shortLines_newline, shortLines, bodyLines, hcons, List.splitOn_append_cons_self, List.filter_append]
  rfl

/-- The short lines of a body stand in its pieces. -/
theorem lines_within_pieces (hlimit : overlap < limit) {raws : List Text} (hne : raws ≠ []) :
    Within (· <:+: ·) (shortLines (blankLine.intercalate raws)) (raws.flatMap (fun raw => hardSplitByChars raw limit overlap)) := by
  induction raws with
  | nil => exact absurd rfl hne
  | cons raw raws ih =>
    have hraw := lines_within_hardSplit hlimit raw
    by_cases hraws : raws = []
    · subst hraws
      rw [List.intercalate_singleton, List.flatMap_singleton]
      exact hraw
    · have hrest := ih hraws
      rw [PyReplace.intercalate_cons _ _ hraws, shortLines_blankLine, List.flatMap_cons]
      refine hraw.append ?_
      obtain ⟨next, raws, rfl⟩ := List.exists_cons_of_ne_nil hraws
      rw [List.flatMap_cons] at hrest ⊢
      obtain ⟨piece, pieces, hpieces⟩ := List.exists_cons_of_ne_nil (hardSplit_ne_nil next limit)
      rw [hpieces] at hrest ⊢
      exact hrest.here List.nil_infix

theorem lines_within_paragraphs (hlimit : overlap < limit) (content : Text) :
    Within (· <:+: ·) (shortLines content) (paragraphs limit content) := by
  have hwithin := lines_within_pieces hlimit (PyReplace.cuts_ne_nil blankLine content.length content)
  rwa [PyReplace.intercalate_cuts] at hwithin

/-- A character that is no blank lies in a paragraph. -/
theorem exists_raw {raws : List Text} {x : Nat} {c : Char} (h : (blankLine.intercalate raws)[x]? = some c)
    (hc : PyText.isSpace c = false) : ∃ before raw after, blankLine.intercalate raws = before ++ raw ++ after ∧
      raw ∈ raws ∧ before.length ≤ x ∧ x < before.length + raw.length := by
  induction raws generalizing x with
  | nil => cases h
  | cons raw raws ih =>
    by_cases hraws : raws = []
    · subst hraws
      rw [List.intercalate_singleton] at h ⊢
      obtain ⟨hx, -⟩ := List.getElem?_eq_some_iff.mp h
      exact ⟨[], raw, [], by simp, List.mem_singleton_self raw, Nat.zero_le _, by simpa using hx⟩
    · rw [PyReplace.intercalate_cons _ _ hraws] at h ⊢
      by_cases hx : x < raw.length
      · exact ⟨[], raw, blankLine ++ blankLine.intercalate raws, by simp, List.mem_cons_self, Nat.zero_le _, by simpa using hx⟩
      · have hlength : (raw ++ blankLine).length = raw.length + 2 := List.length_append
        by_cases hgap : x < raw.length + 2
        · rw [List.getElem?_append_left (by omega), List.getElem?_append_right (by omega)] at h
          have hblank : ∀ d ∈ blankLine, PyText.isSpace d := by decide
          have hspace := hblank c (List.mem_of_getElem? h)
          rw [hc] at hspace
          cases hspace
        · rw [List.getElem?_append_right (by omega), hlength] at h
          obtain ⟨before, raw', after, heq, hmem, hle, hlt⟩ := ih h
          refine ⟨raw ++ blankLine ++ before, raw', after, ?_, List.mem_cons_of_mem _ hmem, ?_, ?_⟩
          · rw [heq]
            simp only [List.append_assoc]
          · rw [List.length_append, hlength]
            omega
          · rw [List.length_append, hlength]
            omega

/-- And with it in a piece, which is the whole paragraph or longer than the overlap. -/
theorem exists_piece (hlimit : overlap < limit) {content : Text} {x : Nat} {c : Char} (h : content[x]? = some c)
    (hc : PyText.isSpace c = false) : ∃ before part after, content = before ++ part ++ after ∧
      part ∈ paragraphs limit content ∧ before.length ≤ x ∧ x < before.length + part.length ∧
      (part ∈ PyReplace.split blankLine content ∨ overlap < part.length) := by
  have hcontent : blankLine.intercalate (PyReplace.split blankLine content) = content :=
    PyReplace.intercalate_cuts blankLine content.length content
  obtain ⟨before, raw, after, heq, hmem, hle, hlt⟩ := exists_raw (hcontent.symm ▸ h) hc
  rw [hcontent] at heq
  have hpiece {piece : Text} (hp : piece ∈ hardSplitByChars raw limit overlap) : piece ∈ paragraphs limit content :=
    List.mem_flatMap.mpr ⟨raw, hmem, hp⟩
  by_cases hshort : raw.length ≤ limit
  · refine ⟨before, raw, after, heq, hpiece ?_, hle, hlt, Or.inl hmem⟩
    rw [hardSplitByChars, if_pos hshort]
    exact List.mem_singleton_self raw
  · have hstep : 0 < max 1 (limit - overlap) := by omega
    have hsum : max 1 (limit - overlap) + overlap ≤ limit := by omega
    obtain ⟨front, w, back, hraw, hw, hfront, hback, hover⟩ := exists_window hstep hsum raw (Nat.le_refl raw.length)
      (by omega) (x - before.length) (by omega)
    refine ⟨before ++ front, w, back ++ after, ?_, hpiece ?_, ?_, ?_, Or.inr hover⟩
    · rw [heq]
      conv_lhs => rw [hraw]
      simp only [List.append_assoc]
    · rw [hardSplitByChars, if_neg hshort]
      exact hw
    · rw [List.length_append]
      omega
    · rw [List.length_append]
      omega

/-! ### A body and its chunks -/

/-- The body is one chunk, or has something besides blanks. -/
def Tells (limit : Nat) (content : Text) : Prop := content.length ≤ limit ∨ ∃ c ∈ content, PyText.isSpace c = false

/-- The short lines stand in the chunks, and no line in an earlier chunk than the line before it. -/
def InOrder (content : Text) (chunks : List Chunk) : Prop :=
  ∃ places : List Nat, places.Pairwise (· ≤ ·) ∧
    List.Forall₂ (fun line place => ∃ chunk, chunks[place]? = some chunk ∧ StandsIn line chunk) (shortLines content) places

theorem kept_start (charOffset : Nat) : Kept [] ⟨[], [], charOffset⟩ := ⟨⟨[], [], rfl, .nil _, by simp⟩, rfl⟩

theorem finish_ne_nil {pieces : List Text} {s : Assembly} (h : Kept pieces s) {piece : Text} (hp : piece ∈ pieces)
    {c : Char} (hc : c ∈ piece) (hspace : PyText.isSpace c = false) : s.finish sectionPath ≠ [] := by
  obtain ⟨closed, pending, rfl, hclosed, hpending⟩ := h.split
  unfold Assembly.finish
  rcases List.mem_append.mp hp with hp | hp
  · obtain ⟨chunk, hchunk, -⟩ := hclosed.exists_match piece hp
    split
    · exact List.ne_nil_of_mem hchunk
    · exact List.ne_nil_of_mem (List.mem_append_left _ hchunk)
  · have hcurrent : c ∈ s.current := (hpending piece hp).subset hc
    have hstrip : PyText.strip s.current ≠ [] := List.ne_nil_of_mem (PyLines.mem_strip hcurrent hspace)
    rw [if_neg hstrip]
    simp

/-- The pieces that `_split_large_chunk` keeps: the whole content, or its paragraphs. -/
def piecesOf (limit : Nat) (content : Text) : List Text :=
  if content.length ≤ limit then [content] else paragraphs limit content

theorem strip_infix_self (s : Text) : PyText.strip s <:+: s := by
  obtain ⟨lead, trail, hs, -, -⟩ := PyText.strip_spec s
  exact ⟨lead, trail, hs.symm⟩

theorem mem_part {before part after : Text} {x : Nat} {c : Char} (h : (before ++ part ++ after)[x]? = some c)
    (hle : before.length ≤ x) (hlt : x < before.length + part.length) : c ∈ part := by
  rw [List.append_assoc, List.getElem?_append_right hle, List.getElem?_append_left (by omega)] at h
  exact List.mem_of_getElem? h

theorem pieces_within_chunks (sectionPath : Text) (hlimit : overlap < limit) {content : Text} (h : Tells limit content) (charOffset : Nat) :
    Within Keeps (piecesOf limit content) (splitLargeChunk sectionPath content charOffset limit) := by
  unfold piecesOf splitLargeChunk
  split
  · have hkeeps : Keeps content ⟨sectionPath, content, 0, charOffset, charOffset + content.length⟩ :=
      fun line hline => (strip_infix_self line).trans hline
    exact .all_to_one (List.forall_mem_singleton.mpr hkeeps) []
  · rename_i hlong
    obtain ⟨c, hc, hspace⟩ := h.resolve_left hlong
    obtain ⟨x, hx, hget⟩ := List.mem_iff_getElem.mp hc
    have hkept := (kept_start charOffset).addAll sectionPath limit (paragraphs limit content)
    rw [List.nil_append] at hkept
    have hat : content[x]? = some c := List.getElem?_eq_some_iff.mpr ⟨hx, hget⟩
    obtain ⟨before, part, after, heq, hpart, hle, hlt, -⟩ := exists_piece hlimit hat hspace
    rw [heq] at hat
    exact hkept.finish (finish_ne_nil hkept hpart (mem_part hat hle hlt) hspace)

theorem inOrder_splitLargeChunk (sectionPath : Text) (hlimit : overlap < limit) {content : Text} (h : Tells limit content) (charOffset : Nat) :
    Within StandsIn (shortLines content) (splitLargeChunk sectionPath content charOffset limit) := by
  have hlines : Within (· <:+: ·) (shortLines content) (piecesOf limit content) := by
    unfold piecesOf
    split
    · exact (shortLines_placed content).within
    · exact lines_within_paragraphs hlimit content
  exact hlines.trans (pieces_within_chunks sectionPath hlimit h charOffset) fun line piece chunk hline hkeeps => hkeeps line hline

theorem covered_splitLargeChunk (sectionPath : Text) (hlimit : overlap < limit) {content : Text} (charOffset : Nat) {x : Nat} {c : Char}
    (h : content[x]? = some c) (hc : PyText.isSpace c = false) :
    Covered content (splitLargeChunk sectionPath content charOffset limit) x := by
  have htells : Tells limit content := Or.inr ⟨c, List.mem_of_getElem? h, hc⟩
  have hchunks := pieces_within_chunks sectionPath hlimit htells charOffset
  obtain ⟨before, part, after, heq, hpart, hle, hlt, hwhole⟩ := exists_piece hlimit h hc
  refine ⟨before, part, after, heq, hle, hlt, hwhole, ?_⟩
  unfold piecesOf at hchunks
  split at hchunks
  · obtain ⟨chunk, hchunk, hkeeps⟩ := hchunks.exists_match content (List.mem_singleton_self content)
    exact ⟨chunk, hchunk, hkeeps part ⟨before, after, heq.symm⟩⟩
  · obtain ⟨chunk, hchunk, hkeeps⟩ := hchunks.exists_match part hpart
    exact ⟨chunk, hchunk, hkeeps part List.infix_rfl⟩

theorem indices_splitLargeChunk (sectionPath content : Text) (charOffset limit : Nat) :
    (splitLargeChunk sectionPath content charOffset limit).map Chunk.chunkIndex =
      List.range (splitLargeChunk sectionPath content charOffset limit).length := by
  unfold splitLargeChunk
  split
  · rfl
  · have hkept := (kept_start charOffset).addAll sectionPath limit (paragraphs limit content)
    unfold Assembly.finish
    split
    · exact hkept.indices
    · exact indices_close hkept.indices sectionPath

theorem overlap_lt_textLimit (metadataHeader : Text) : overlap < textLimit metadataHeader := by
  unfold textLimit bodyBudget maxChunkSize overlap
  split <;> omega

/-- The chunks of a body, without their header. -/
theorem chunkTextBody_eq (content metadataHeader : Text) :
    chunkTextBody content metadataHeader = (splitLargeChunk [] content 0 (textLimit metadataHeader)).map
      (fun chunk => { chunk with content := metadataHeader ++ chunk.content }) := by
  unfold chunkTextBody textLimit
  split
  · rename_i hnone
    rw [hnone]
    exact (List.map_id _).symm
  · rfl

theorem StandsIn.behind {line : Text} {chunk : Chunk} (h : StandsIn line chunk) (metadataHeader : Text) :
    StandsIn line { chunk with content := metadataHeader ++ chunk.content } :=
  List.IsInfix.trans h (List.suffix_append metadataHeader chunk.content).isInfix

/-- Unless a body is longer than its limit and all blank, its short lines stand in the chunks in their order; every
character that is no blank is covered, and the chunks are numbered from 0 on. -/
theorem text_body_kept (content metadataHeader : Text) :
    (Tells (textLimit metadataHeader) content → InOrder content (chunkTextBody content metadataHeader)) ∧
    (∀ x c, content[x]? = some c → PyText.isSpace c = false → Covered content (chunkTextBody content metadataHeader) x) ∧
    (chunkTextBody content metadataHeader).map Chunk.chunkIndex =
      List.range (chunkTextBody content metadataHeader).length := by
  have hlimit := overlap_lt_textLimit metadataHeader
  rw [chunkTextBody_eq]
  refine ⟨fun htells => ?_, fun x c hx hc => ?_, ?_⟩
  · have hlines := inOrder_splitLargeChunk [] hlimit htells 0
    exact (hlines.map_right fun line chunk hline => hline.behind metadataHeader).places
  · obtain ⟨before, part, after, heq, hle, hlt, hwhole, chunk, hchunk, hstands⟩ :=
      covered_splitLargeChunk [] hlimit 0 hx hc
    exact ⟨before, part, after, heq, hle, hlt, hwhole, _, List.mem_map_of_mem hchunk, hstands.behind metadataHeader⟩
  · rw [List.map_map, List.length_map]
    exact indices_splitLargeChunk [] content 0 (textLimit metadataHeader)

theorem two_paragraphs_kept :
    InOrder "one\n\ntwo".toList (chunkTextBody "one\n\ntwo".toList "TITLE: a\n\n".toList) ∧
    Covered "one\n\ntwo".toList (chunkTextBody "one\n\ntwo".toList "TITLE: a\n\n".toList) 5 :=
  ⟨(text_body_kept _ _).1 (Or.inl (by decide)), (text_body_kept _ _).2.1 5 't' rfl (by decide)⟩

theorem add_nothing {s : Assembly} (hs : s.current = []) (n : Nat) :
    (List.replicate n []).foldl (Assembly.add sectionPath limit) s = s := by
  induction n with
  | zero => rfl
  | succ n ih =>
    have hstay : s.add sectionPath limit [] = s := by
      obtain ⟨chunks, current, currentStart⟩ := s
      obtain rfl : current = [] := hs
      simp [Assembly.add, overfull]
    rw [List.replicate_succ, List.foldl_cons, hstay, ih]

/-- Newlines in an odd number: each pair ends an empty paragraph. -/
theorem cuts_newlines {k fuel : Nat} (h : k ≤ fuel) :
    PyReplace.cuts blankLine fuel (List.replicate (2 * k + 1) '\n') = List.replicate k [] ++ [['\n']] := by
  induction k generalizing fuel with
  | zero => cases fuel <;> rfl
  | succ k ih =>
    obtain ⟨fuel, rfl⟩ : ∃ n, fuel = n + 1 := ⟨fuel - 1, by omega⟩
    have hpartition (s : Text) : PyReplace.partition blankLine ('\n' :: '\n' :: s) = some ([], s) :=
      if_pos (List.prefix_append blankLine s)
    have hsplit : List.replicate (2 * (k + 1) + 1) '\n' = '\n' :: '\n' :: List.replicate (2 * k + 1) '\n' := rfl
    rw [hsplit, PyReplace.cuts, hpartition]
    exact congrArg (List.cons []) (ih (Nat.le_of_succ_le_succ h))

/-- A long body of newlines: its lines stand in no chunk, since it has none. -/
theorem blank_body_has_no_chunk :
    [] ∈ shortLines (List.replicate 1501 '\n') ∧ chunkTextBody (List.replicate 1501 '\n') [] = [] ∧
      ¬ InOrder (List.replicate 1501 '\n') (chunkTextBody (List.replicate 1501 '\n') []) := by
  have hline : [] ∈ shortLines (List.replicate 1501 '\n') := by
    rw [List.replicate_succ, shortLines_newline]
    exact List.mem_cons_self
  have hpieces : paragraphs maxChunkSize (List.replicate 1501 '\n') = List.replicate 750 [] ++ [['\n']] := by
    have hcuts := @cuts_newlines 750 1501 (by omega)
    have hshort : ∀ raw ∈ List.replicate 750 [] ++ [['\n']], hardSplitByChars raw maxChunkSize overlap = [raw] := by
      intro raw hraw
      rcases List.mem_append.mp hraw with hraw | hraw
      · rw [(List.mem_replicate.mp hraw).2]
        rfl
      · rw [List.mem_singleton.mp hraw]
        rfl
    rw [paragraphs, PyReplace.split, List.length_replicate, hcuts, List.flatMap_congr hshort, List.flatMap_singleton']
  have hnone : chunkTextBody (List.replicate 1501 '\n') [] = [] := by
    have hlong : ¬ (List.replicate 1501 '\n').length ≤ maxChunkSize := by
      rw [List.length_replicate]
      decide
    rw [chunkTextBody, if_pos rfl, splitLargeChunk, if_neg hlong, hpieces, List.foldl_append,
      add_nothing rfl]
    rfl
  refine ⟨hline, hnone, ?_⟩
  rw [hnone]
  rintro ⟨places, -, hplaces⟩
  cases hlines : shortLines (List.replicate 1501 '\n') with
  | nil =>
    rw [hlines] at hline
    cases hline
  | cons line lines =>
    rw [hlines] at hplaces
    cases hplaces with
    | cons hplace _ =>
      obtain ⟨chunk, hchunk, -⟩ := hplace
      cases hchunk

end Akb.Chunks
