import Akb.Chunks.Splitter

/-! The sections that `drill_down` reads from a native document: its text cut at the headings and by size. -/
namespace Akb.Chunks
open Akb.Library

/-- `s[start:stop]`. -/
def slice (s : Text) (start stop : Nat) : Text := (s.take stop).drop start

/-- A row of `drill_down`. -/
structure SectionRow where
  sectionPath : Text
  content : Text
  chunkIndex : Nat
  deriving DecidableEq

structure Span where
  path : Text
  start : Nat
  stop : Nat

/-- Where the text behind a heading starts: its line terminator belongs to it. -/
def HeadingMatch.after (body : Text) (m : HeadingMatch) : Nat := if body[m.stop]? = some '\n' then m.stop + 1 else m.stop

def headingSpans (body : Text) (hierarchy : List (Nat × Text)) : List HeadingMatch → List Span
  | [] => []
  | m :: rest =>
    let hierarchy := pushHeading hierarchy m.heading
    let stop := match rest with
      | next :: _ => next.heading.pos
      | [] => body.length
    ⟨sectionPathOf hierarchy, m.after body, stop⟩ :: headingSpans body hierarchy rest

/-- The span before the first heading, if there is one. -/
def leadingSpan (body : Text) : List HeadingMatch → List Span
  | [] => [⟨[], 0, body.length⟩]
  | m :: _ => if m.heading.pos = 0 then [] else [⟨[], 0, m.heading.pos⟩]

def spans (body : Text) : List Span :=
  leadingSpan body (headingMatches body) ++ headingSpans body [] (headingMatches body)

/-- `range(start, max(start + 1, stop), MAX_CHUNK_SIZE)`. -/
def Span.offsets (span : Span) : List Nat :=
  let count := (max (span.start + 1) span.stop - span.start + (maxChunkSize - 1)) / maxChunkSize
  (List.range count).map (fun i => span.start + maxChunkSize * i)

/-- `not section or section.casefold() in path.casefold()`. -/
def sectionSelected (casefold : Text → Text) (wanted : Option Text) (path : Text) : Bool :=
  match wanted with
  | none => true
  | some text => text = [] || (PyReplace.partition (casefold text) (casefold path)).isSome

/-- The rows so far and the next index. -/
structure SectionRows where
  rows : List SectionRow
  chunkIndex : Nat

def SectionRows.add (selected : Text → Bool) (s : SectionRows) (entry : Text × Text) : SectionRows :=
  { rows := if selected entry.1 then s.rows ++ [⟨entry.1, entry.2, s.chunkIndex⟩] else s.rows
    chunkIndex := s.chunkIndex + 1 }

/-- The windows of a span, with its path. -/
def Span.windows (body : Text) (span : Span) : List (Text × Text) :=
  span.offsets.map (fun offset => (span.path, slice body offset (min (offset + maxChunkSize) span.stop)))

/-- `native_sections`. -/
def nativeSections (casefold : Text → Text) (body : Text) (wanted : Option Text) : List SectionRow :=
  let rows : SectionRows := (spans body).foldl
    (fun s span => (Span.windows body span).foldl (SectionRows.add (sectionSelected casefold wanted)) s) ⟨[], 0⟩
  rows.rows

/-! ### Windows -/

theorem length_slice_le (s : Text) (start stop : Nat) : (slice s start stop).length ≤ stop - start := by
  rw [slice, List.length_drop, List.length_take]
  omega

theorem slice_append {s : Text} {a b c : Nat} (hab : a ≤ b) (hbc : b ≤ c) : slice s a b ++ slice s b c = slice s a c := by
  have htake : s.take c = s.take b ++ (s.take c).drop b := by
    conv_lhs => rw [← List.take_append_drop b (s.take c), List.take_take, min_eq_left hbc]
  by_cases hlen : a ≤ (s.take b).length
  · rw [slice, slice, slice, htake, List.drop_append_of_le_length hlen]
    rw [← htake]
  · have hshort : s.length < a := by
      rw [List.length_take] at hlen
      omega
    rw [slice, slice, slice, List.drop_eq_nil_of_le, List.drop_eq_nil_of_le, List.drop_eq_nil_of_le, List.append_nil] <;>
      rw [List.length_take] <;> omega

theorem slice_self (s : Text) (a : Nat) : slice s a a = [] := List.drop_eq_nil_of_le (List.length_take_le a s)

/-- The windows of a span are its text. -/
theorem flatten_windows (body : Text) (span : Span) (h : span.start ≤ span.stop) :
    ((span.windows body).map Prod.snd).flatten = slice body span.start span.stop := by
  have hwindows : ∀ n, ((List.range n).map (fun i => slice body (span.start + maxChunkSize * i)
      (min (span.start + maxChunkSize * i + maxChunkSize) span.stop))).flatten =
        slice body span.start (min (span.start + maxChunkSize * n) span.stop) := by
    intro n
    induction n with
    | zero =>
      rw [Nat.mul_zero, Nat.add_zero, min_eq_left h, slice_self]
      rfl
    | succ n ih =>
      rw [List.range_succ, List.map_append, List.flatten_append, ih, List.map_singleton, List.flatten_singleton,
        Nat.mul_succ, ← Nat.add_assoc]
      by_cases hpast : span.start + maxChunkSize * n ≤ span.stop
      · rw [min_eq_left hpast, slice_append (Nat.le_add_right _ _) (by omega)]
      · have hnone : slice body (span.start + maxChunkSize * n) (min (span.start + maxChunkSize * n + maxChunkSize) span.stop) = [] := by
          refine List.drop_eq_nil_of_le ?_
          rw [List.length_take]
          omega
        rw [hnone, List.append_nil, min_eq_right (by omega), min_eq_right (by omega)]
  rw [Span.windows, Span.offsets, List.map_map, List.map_map]
  refine (hwindows _).trans (congrArg _ (min_eq_right ?_))
  rw [maxChunkSize]
  omega

theorem windows_ne_nil (body : Text) (span : Span) : span.windows body ≠ [] := by
  refine List.ne_nil_of_length_pos ?_
  rw [Span.windows, List.length_map, Span.offsets, List.length_map, List.length_range, maxChunkSize]
  omega

theorem windows_spec (body : Text) (span : Span) :
    ∀ entry ∈ span.windows body, entry.1 = span.path ∧ entry.2.length ≤ maxChunkSize := by
  intro entry hentry
  obtain ⟨offset, -, rfl⟩ := List.mem_map.mp hentry
  have hlen := length_slice_le body offset (min (offset + maxChunkSize) span.stop)
  exact ⟨rfl, hlen.trans (by omega)⟩

/-! ### Numbering -/

/-- The rows of the windows, numbered from `n` on. -/
def numbered (n : Nat) (entries : List (Text × Text)) : List SectionRow :=
  (entries.zipIdx n).map (fun e => ⟨e.1.1, e.1.2, e.2⟩)

theorem numbered_cons (n : Nat) (entry : Text × Text) (entries : List (Text × Text)) :
    numbered n (entry :: entries) = ⟨entry.1, entry.2, n⟩ :: numbered (n + 1) entries := by
  rw [numbered, List.zipIdx_cons]
  rfl

theorem numbered_append (n : Nat) (a b : List (Text × Text)) :
    numbered n (a ++ b) = numbered n a ++ numbered (n + a.length) b := by
  rw [numbered, List.zipIdx_append, List.map_append]
  rfl

theorem map_content_numbered (n : Nat) (entries : List (Text × Text)) :
    (numbered n entries).map SectionRow.content = entries.map Prod.snd := by
  induction entries generalizing n with
  | nil => rfl
  | cons entry entries ih => rw [numbered_cons, List.map_cons, List.map_cons, ih]

theorem map_path_numbered (n : Nat) (entries : List (Text × Text)) :
    (numbered n entries).map SectionRow.sectionPath = entries.map Prod.fst := by
  induction entries generalizing n with
  | nil => rfl
  | cons entry entries ih => rw [numbered_cons, List.map_cons, List.map_cons, ih]

theorem map_index_numbered (n : Nat) (entries : List (Text × Text)) :
    (numbered n entries).map SectionRow.chunkIndex = List.range' n entries.length := by
  induction entries generalizing n with
  | nil => rfl
  | cons entry entries ih => rw [numbered_cons, List.map_cons, ih, List.length_cons, List.range'_succ]

theorem add_entries (selected : Text → Bool) (s : SectionRows) (entries : List (Text × Text)) :
    entries.foldl (SectionRows.add selected) s =
      ⟨s.rows ++ (numbered s.chunkIndex entries).filter (fun row => selected row.sectionPath),
        s.chunkIndex + entries.length⟩ := by
  induction entries generalizing s with
  | nil => simp [numbered]
  | cons entry entries ih =>
    rw [List.foldl_cons, ih, numbered_cons, SectionRows.add]
    have hnext : s.chunkIndex + 1 + entries.length = s.chunkIndex + (entry :: entries).length := by
      rw [List.length_cons]
      omega
    rw [hnext]
    by_cases hselected : selected entry.1 = true
    · simp [hselected]
    · simp [hselected]

variable {casefold : Text → Text}

theorem nativeSections_eq (body : Text) (wanted : Option Text) :
    nativeSections casefold body wanted =
      (numbered 0 ((spans body).flatMap (Span.windows body))).filter
        (fun row => sectionSelected casefold wanted row.sectionPath) := by
  rw [nativeSections, ← List.foldl_flatMap, add_entries, List.nil_append]

theorem nativeSections_all (body : Text) :
    nativeSections casefold body none = numbered 0 ((spans body).flatMap (Span.windows body)) := by
  rw [nativeSections_eq]
  exact List.filter_eq_self.mpr fun _ _ => rfl

/-! ### Tiling -/

/-- The text of a heading, and the newline behind it. -/
def HeadingMatch.line (body : Text) (m : HeadingMatch) : Text :=
  slice body m.heading.pos m.stop ++ if body[m.stop]? = some '\n' then ['\n'] else []

/-- Matches in a body, in their order. -/
structure InOrderIn (body : Text) (ms : List HeadingMatch) : Prop where
  each : ∀ m ∈ ms, m.heading.pos < m.stop ∧ m.stop ≤ body.length ∧ body[m.heading.pos]? = some '#'
  order : ms.Pairwise (fun m n => m.stop ≤ n.heading.pos)

theorem headingMatches_inOrder (body : Text) : InOrderIn body (headingMatches body) := by
  obtain ⟨hat, horder⟩ := findMatches_spec 0 true 0 body
  refine ⟨fun m hm => ?_, horder⟩
  have hm := (hat m hm).1
  refine ⟨hm.nonempty, ?_, ?_⟩
  · have hstop := hm.stop
    rwa [Nat.zero_add] at hstop
  · have hhash := hm.hash
    rwa [Nat.sub_zero] at hhash

theorem line_eq {body : Text} {m : HeadingMatch} (hpos : m.heading.pos < m.stop) :
    m.line body = slice body m.heading.pos (m.after body) := by
  rw [HeadingMatch.line, HeadingMatch.after]
  split
  · rename_i hnewline
    rw [← slice_append (le_of_lt hpos) (Nat.le_succ m.stop)]
    congr 1
    obtain ⟨hlt, hget⟩ := List.getElem?_eq_some_iff.mp hnewline
    have hone : m.stop.succ - m.stop = 1 := by omega
    rw [slice, List.drop_take, hone, List.drop_eq_getElem_cons hlt, hget]
    rfl
  · exact List.append_nil _

/-- The newline behind a heading comes before the next heading. -/
theorem after_le {body : Text} {m : HeadingMatch} {n : Nat} (hle : m.stop ≤ n) (hn : body[n]? ≠ some '\n') :
    m.after body ≤ n := by
  rw [HeadingMatch.after]
  split
  · rename_i hnewline
    rcases Nat.lt_or_eq_of_le hle with hlt | heq
    · exact hlt
    · exact absurd (heq ▸ hnewline) hn
  · exact hle

/-- Where the text of a list of matches begins. -/
def startOf (body : Text) : List HeadingMatch → Nat
  | [] => body.length
  | m :: _ => m.heading.pos

theorem startOf_le {body : Text} {ms : List HeadingMatch} (h : InOrderIn body ms) : startOf body ms ≤ body.length := by
  cases ms with
  | nil => exact le_refl _
  | cons m rest =>
    obtain ⟨hpos, hstop, -⟩ := h.each m List.mem_cons_self
    change m.heading.pos ≤ body.length
    omega

theorem after_le_startOf {body : Text} {m : HeadingMatch} {rest : List HeadingMatch} (h : InOrderIn body (m :: rest)) :
    m.after body ≤ startOf body rest := by
  cases rest with
  | nil =>
    refine after_le (h.each m List.mem_cons_self).2.1 ?_
    change body[body.length]? ≠ _
    rw [List.getElem?_eq_none (le_refl _)]
    exact Option.some_ne_none _ ∘ Eq.symm
  | cons n rest =>
    refine after_le ((List.pairwise_cons.mp h.order).1 n List.mem_cons_self) ?_
    change body[n.heading.pos]? ≠ _
    rw [(h.each n (List.mem_cons_of_mem m List.mem_cons_self)).2.2]
    decide

theorem headingSpans_cons (body : Text) (hierarchy : List (Nat × Text)) (m : HeadingMatch) (rest : List HeadingMatch) :
    headingSpans body hierarchy (m :: rest) =
      ⟨sectionPathOf (pushHeading hierarchy m.heading), m.after body, startOf body rest⟩ ::
        headingSpans body (pushHeading hierarchy m.heading) rest := by
  cases rest <;> rfl

theorem headingSpans_tile {body : Text} {ms : List HeadingMatch} (h : InOrderIn body ms) (hierarchy : List (Nat × Text)) :
    (List.zipWith (fun m span => m.line body ++ slice body span.start span.stop) ms
      (headingSpans body hierarchy ms)).flatten = slice body (startOf body ms) body.length ∧
    (headingSpans body hierarchy ms).length = ms.length ∧
    ∀ span ∈ headingSpans body hierarchy ms, span.start ≤ span.stop := by
  induction ms generalizing hierarchy with
  | nil =>
    refine ⟨?_, rfl, fun span hspan => absurd hspan List.not_mem_nil⟩
    rw [startOf, slice_self]
    rfl
  | cons m rest ih =>
    have hrest : InOrderIn body rest :=
      ⟨fun n hn => h.each n (List.mem_cons_of_mem m hn), (List.pairwise_cons.mp h.order).2⟩
    obtain ⟨htile, hlength, hspans⟩ := ih hrest (pushHeading hierarchy m.heading)
    have hpos := (h.each m List.mem_cons_self).1
    have hafter := after_le_startOf h
    have hstop : m.stop ≤ m.after body := by
      rw [HeadingMatch.after]
      split <;> omega
    rw [headingSpans_cons]
    refine ⟨?_, congrArg Nat.succ hlength, List.forall_mem_cons.mpr ⟨hafter, hspans⟩⟩
    rw [List.zipWith_cons_cons, List.flatten_cons, htile, line_eq hpos, slice_append (by omega) hafter,
      slice_append (by omega) (startOf_le hrest)]
    rfl

/-! ### The rows of the sections -/

/-- The text before the first heading. -/
theorem leading_tile {body : Text} {ms : List HeadingMatch} (h : InOrderIn body ms) :
    (((leadingSpan body ms).flatMap (Span.windows body)).map Prod.snd).flatten ++ slice body (startOf body ms) body.length =
      body := by
  have hwhole : slice body 0 body.length = body := by
    rw [slice, List.take_length, List.drop_zero]
  cases ms with
  | nil =>
    rw [leadingSpan, List.flatMap_singleton, flatten_windows _ _ (Nat.zero_le _), startOf, slice_self, List.append_nil]
    exact hwhole
  | cons m rest =>
    rw [leadingSpan]
    split
    · rename_i hzero
      rw [startOf, hzero, hwhole]
      rfl
    · rw [List.flatMap_singleton, flatten_windows _ _ (Nat.zero_le _)]
      exact (slice_append (Nat.zero_le _) (startOf_le h)).trans hwhole

theorem exists_parts (body : Text) (n : Nat) {ms : List HeadingMatch} {all : List Span} (hlength : all.length = ms.length)
    (hspans : ∀ span ∈ all, span.start ≤ span.stop) :
    ∃ parts : List (HeadingMatch × List SectionRow), numbered n (all.flatMap (Span.windows body)) = parts.flatMap Prod.snd ∧
      parts.map Prod.fst = ms ∧ (∀ part ∈ parts, part.2 ≠ []) ∧
      parts.flatMap (fun part => part.1.line body ++ (part.2.map SectionRow.content).flatten) =
        (List.zipWith (fun m span => m.line body ++ slice body span.start span.stop) ms all).flatten := by
  induction ms generalizing n all with
  | nil =>
    obtain rfl := List.length_eq_zero_iff.mp hlength
    exact ⟨[], rfl, rfl, fun part hpart => absurd hpart List.not_mem_nil, rfl⟩
  | cons m ms ih =>
    obtain ⟨span, all, rfl⟩ := List.exists_cons_of_length_eq_add_one hlength
    rw [List.forall_mem_cons] at hspans
    obtain ⟨parts, hrows, hheadings, hnonempty, htext⟩ :=
      ih (n + (span.windows body).length) (Nat.succ.inj hlength) hspans.2
    refine ⟨(m, numbered n (span.windows body)) :: parts, ?_, ?_, List.forall_mem_cons.mpr ⟨?_, hnonempty⟩, ?_⟩
    · rw [List.flatMap_cons, numbered_append, hrows, List.flatMap_cons]
    · rw [List.map_cons, hheadings]
    · intro hnil
      have hnone : numbered n (span.windows body) = [] := hnil
      have hmap := map_content_numbered n (span.windows body)
      rw [hnone, List.map_nil] at hmap
      exact windows_ne_nil body span (List.map_eq_nil_iff.mp hmap.symm)
    · rw [List.flatMap_cons, htext, List.zipWith_cons_cons, List.flatten_cons, map_content_numbered,
        flatten_windows body span hspans.1]

theorem sectionSelected_iff (text path : Text) :
    sectionSelected casefold (some text) path = true ↔ text = [] ∨ casefold text <:+: casefold path := by
  rw [sectionSelected, Bool.or_eq_true, decide_eq_true_iff, PyReplace.partition_isSome]

/-- The rows of a native document are numbered from 0 on, of bounded length, and together with the
lines of the headings they are the body; a filter picks those of the sections that it names. -/
theorem native_sections_tile (casefold : Text → Text) (body : Text) :
    (∃ leading, ∃ parts : List (HeadingMatch × List SectionRow),
      nativeSections casefold body none = leading ++ parts.flatMap Prod.snd ∧
      parts.map Prod.fst = headingMatches body ∧ (∀ part ∈ parts, part.2 ≠ []) ∧
      (leading.map SectionRow.content).flatten ++
        parts.flatMap (fun part => part.1.line body ++ (part.2.map SectionRow.content).flatten) = body) ∧
    (nativeSections casefold body none).map SectionRow.chunkIndex =
      List.range (nativeSections casefold body none).length ∧
    (∀ row ∈ nativeSections casefold body none, row.content.length ≤ maxChunkSize) ∧
    (∀ wanted, nativeSections casefold body wanted =
      (nativeSections casefold body none).filter (fun row => sectionSelected casefold wanted row.sectionPath)) ∧
    ∀ text path, sectionSelected casefold (some text) path = true ↔ text = [] ∨ casefold text <:+: casefold path := by
  have horder := headingMatches_inOrder body
  obtain ⟨htile, hlength, hspans⟩ := headingSpans_tile horder []
  refine ⟨?_, ?_, fun row hrow => ?_, fun wanted => ?_, sectionSelected_iff⟩
  · obtain ⟨parts, hrows, hheadings, hnonempty, htext⟩ := exists_parts body
      (0 + ((leadingSpan body (headingMatches body)).flatMap (Span.windows body)).length) hlength hspans
    refine ⟨numbered 0 ((leadingSpan body (headingMatches body)).flatMap (Span.windows body)), parts, ?_, hheadings,
      hnonempty, ?_⟩
    · rw [nativeSections_all, spans, List.flatMap_append, numbered_append, hrows]
    · rw [htext, htile, map_content_numbered]
      exact leading_tile horder
  · rw [nativeSections_all, map_index_numbered, List.range_eq_range', numbered, List.length_map, List.length_zipIdx]
  · rw [nativeSections_all] at hrow
    have hcontent : row.content ∈ ((spans body).flatMap (Span.windows body)).map Prod.snd := by
      rw [← map_content_numbered 0]
      exact List.mem_map_of_mem hrow
    obtain ⟨entry, hentry, heq⟩ := List.mem_map.mp hcontent
    obtain ⟨span, -, hwindow⟩ := List.mem_flatMap.mp hentry
    exact heq ▸ (windows_spec body span entry hwindow).2
  · rw [nativeSections_eq, nativeSections_all]

end Akb.Chunks
