import Akb.Library.Backtracking
import Akb.Library.PyText
import Akb.Library.Utf8
import Akb.Library.PyReplace

/-! The metadata filter of the candidate search, which reads a prefix of each body. -/
namespace Akb.Search
open Akb.Library Backtracking

abbrev Text := List Char

def sliceBytes : Nat := 8 * 1024 + 1

/-- `substring(canonical_bytes FROM 1 FOR n)` -/
def bodySlice (n : Nat) (body : Text) : List UInt8 := (Utf8.encode body).take n

/-- `_decode_slice_prefix`. -/
def decodeSlicePrefix (raw : List UInt8) : Option Text :=
  (Utf8.decode raw).or ((Utf8.decode (raw.take (raw.length - 1))).or
    ((Utf8.decode (raw.take (raw.length - 2))).or (Utf8.decode (raw.take (raw.length - 3)))))

def isBlank (c : Char) : Bool := c = ' ' || c = '\t'

/-- `\r?\n` -/
def lineEnd : Matcher := seq (opt (lit ['\r'])) (lit ['\n'])

/-- `\Z` -/
def textEnd : Matcher := fun s => if s = [] then [[]] else []

/-- `_FRONTMATTER_ENVELOPE_RE`. -/
def frontmatterEnvelope : Matcher :=
  seq (lit "---".toList) (seq (greedy isBlank) (seq lineEnd (seq lazyAny (seq lineEnd (seq (lit "---".toList)
    (seq (greedy isBlank) (alt lineEnd textEnd)))))))

/-- `_slice_has_complete_frontmatter`. -/
def sliceHasCompleteFrontmatter (text : Text) : Bool :=
  if "---".toList <+: text then (matchStart frontmatterEnvelope text).isSome else true

variable {M : Type}

/-- The library that reads front matter: what it makes of a text, or `none` where it raises, and of a block of YAML. -/
structure Frontmatter (M : Type) where
  loads : Text → Option M
  yaml : Text → Option M
  empty : M

/-- The metadata of `_parse_markdown`. -/
def Frontmatter.parse (lib : Frontmatter M) (text : Text) : M := (lib.loads text).getD lib.empty

/-- `_filtered_native_metadata`. -/
def filteredNativeMetadata (lib : Frontmatter M) (raw : List UInt8) : Option M :=
  match decodeSlicePrefix raw with
  | none => none
  | some text => if sliceHasCompleteFrontmatter text then some (lib.parse text) else none

/-- What becomes of a row of the candidate query. -/
inductive Outcome where
  | unparseable
  | rejected
  | candidate
  deriving DecidableEq

def Outcome.ofMetadata (accepts : M → Bool) (metadata : M) : Outcome := if accepts metadata then .candidate else .rejected

/-- One row of `_native_document_candidates`; the filter is on the metadata. -/
def decideRow (lib : Frontmatter M) (accepts : M → Bool) (raw : List UInt8) : Outcome :=
  match filteredNativeMetadata lib raw with
  | none => .unparseable
  | some metadata => .ofMetadata accepts metadata

/-- The decision from the whole body. -/
def decideBody (lib : Frontmatter M) (accepts : M → Bool) (body : Text) : Outcome := .ofMetadata accepts (lib.parse body)

/-! ### What the library is relied on for -/

/-- A line of three or more dashes, with blanks behind them. -/
def FenceLine (line : Text) : Prop :=
  '\n' ∉ line ∧ ∃ dashes blanks, line = dashes ++ blanks ∧ 3 ≤ dashes.length ∧ (∀ c ∈ dashes, c = '-') ∧
    ∀ c ∈ blanks, PyText.isSpace c

/-- Lines, each with its newline. -/
def ended (lines : List Text) : Text := lines.flatMap (· ++ ['\n'])

/-- The text opens no block of any format that the library knows. -/
def Plain (text : Text) : Prop :=
  ∀ opening ∈ ["---".toList, "+++".toList, "\x7b".toList, "\x7d".toList], ¬ opening <+: text.dropWhile PyText.isSpace

/-- The metadata is what the block between the first two fences says, and a text without a block has none. -/
structure Frontmatter.Lawful (lib : Frontmatter M) : Prop where
  fenced : ∀ opening lines closing rest, FenceLine opening → (∀ line ∈ lines, '\n' ∉ line ∧ ¬ FenceLine line) →
    FenceLine closing → lib.loads (ended (opening :: lines ++ [closing]) ++ rest) = lib.yaml (ended lines)
  plain : ∀ text, Plain text → lib.loads text = some lib.empty

end Akb.Search

/-! When a prefix of a body is enough for the metadata filter. -/
namespace Akb.Search
open Akb.Library Backtracking

/-! ### The text of a slice -/

theorem decode_shorter (s : Text) {part rest : List UInt8} {c : Char} (hrest : rest ≠ []) (h : part ++ rest = String.utf8EncodeChar c)
    {k : Nat} (hk : k < part.length) : Utf8.decode ((Utf8.encode s ++ part).take ((Utf8.encode s ++ part).length - k)) = none := by
  have htake : (Utf8.encode s ++ part).take ((Utf8.encode s ++ part).length - k) = Utf8.encode s ++ part.take (part.length - k) := by
    rw [List.length_append, Nat.add_sub_assoc hk.le, List.take_length_add_append]
  have hne : part.take (part.length - k) ≠ [] := by
    rw [← List.length_pos_iff, List.length_take]
    omega
  rw [htake]
  refine Utf8.decode_part (c := c) s hne (List.append_ne_nil_of_right_ne_nil (part.drop (part.length - k)) hrest) ?_
  rw [← List.append_assoc, List.take_append_drop, h]

/-- A slice decodes to the characters that it holds in full. -/
theorem decodeSlicePrefix_bodySlice (n : Nat) (body : Text) : decodeSlicePrefix (bodySlice n body) = some (Utf8.fitting n body) := by
  obtain ⟨part, htake, hpart⟩ := Utf8.take_encode body n
  rw [bodySlice, htake]
  rcases hpart with rfl | ⟨c, rest, hrest, hc⟩
  · rw [List.append_nil, decodeSlicePrefix, Utf8.decode_encode, Option.some_or]
  · have hsize := String.length_utf8EncodeChar c
    have hmax := c.utf8Size_le_four
    have hpos := List.length_pos_of_ne_nil hrest
    have hlength := congrArg List.length hc
    rw [List.length_append] at hlength
    have hcut (k : Nat) (hk : k < part.length) := decode_shorter (Utf8.fitting n body) hrest hc hk
    have hwhole : Utf8.decode ((Utf8.encode (Utf8.fitting n body) ++ part).take
        ((Utf8.encode (Utf8.fitting n body) ++ part).length - part.length)) = some (Utf8.fitting n body) := by
      rw [List.length_append, Nat.add_sub_cancel, List.take_left, Utf8.decode_encode]
    have hself := hcut 0
    rw [Nat.sub_zero, List.take_length] at hself
    rw [decodeSlicePrefix]
    rcases (by omega : part.length = 0 ∨ part.length = 1 ∨ part.length = 2 ∨ part.length = 3) with h | h | h | h <;> rw [h] at hwhole
    · rw [List.length_eq_zero_iff.mp h, List.append_nil, Utf8.decode_encode, Option.some_or]
    · rw [hself (by omega), hwhole]
      rfl
    · rw [hself (by omega), hcut 1 (by omega), hwhole]
      rfl
    · rw [hself (by omega), hcut 1 (by omega), hcut 2 (by omega), hwhole]
      rfl

/-! ### Closed blocks -/

/-- A fence as the filter looks for it. -/
def StrictFence (line : Text) : Prop :=
  ∃ blanks cr, line = "---".toList ++ (blanks ++ cr) ∧ (∀ c ∈ blanks, isBlank c) ∧ (cr = [] ∨ cr = ['\r'])

/-- The body begins with a block of at least one line, whose closing fence ends within so many bytes. -/
def ClosedWithin (n : Nat) (body : Text) : Prop :=
  ∃ opening first more closing rest, body = ended (opening :: (first :: more) ++ [closing]) ++ rest ∧ StrictFence opening ∧
    StrictFence closing ∧ (∀ line ∈ first :: more, '\n' ∉ line) ∧
    (Utf8.encode (ended (opening :: (first :: more) ++ [closing]))).length ≤ n

theorem isSpace_of_isBlank {c : Char} (h : isBlank c) : PyText.isSpace c ∧ c ≠ '\n' := by
  rw [isBlank, Bool.or_eq_true, decide_eq_true_eq, decide_eq_true_eq] at h
  rcases h with rfl | rfl <;> decide

theorem StrictFence.fenceLine {line : Text} (h : StrictFence line) : FenceLine line := by
  obtain ⟨blanks, cr, rfl, hblanks, hcr⟩ := h
  have hrest : ∀ c ∈ blanks ++ cr, PyText.isSpace c ∧ c ≠ '\n' := by
    refine List.forall_mem_append.mpr ⟨fun c hc => isSpace_of_isBlank (hblanks c hc), fun c hc => ?_⟩
    rcases hcr with rfl | rfl
    · exact absurd hc List.not_mem_nil
    · rw [List.mem_singleton.mp hc]
      decide
  refine ⟨fun hmem => ?_, "---".toList, blanks ++ cr, rfl, by decide, by decide, fun c hc => (hrest c hc).1⟩
  rcases List.mem_append.mp hmem with hmem | hmem
  · exact absurd hmem (by decide)
  · exact (hrest _ hmem).2 rfl

theorem mem_seq {m n : Matcher} {s t rest : Text} (ht : t ∈ m s) (h : rest ∈ n t) : rest ∈ seq m n s :=
  List.mem_flatMap.mpr ⟨t, ht, h⟩

theorem mem_lit (text s : Text) : s ∈ lit text (text ++ s) := by
  rw [lit, if_pos (List.prefix_append text s), List.drop_left]
  exact List.mem_singleton_self s

theorem mem_greedy {p : Char → Bool} {a : Text} (h : ∀ c ∈ a, p c) (s : Text) : s ∈ greedy p (a ++ s) := by
  induction a with
  | nil =>
    cases s with
    | nil => exact List.mem_singleton_self []
    | cons c s =>
      rw [List.nil_append, greedy]
      split
      · exact List.mem_append_right _ (List.mem_singleton_self _)
      · exact List.mem_singleton_self _
  | cons c a ih =>
    rw [List.cons_append, greedy, if_pos (h c List.mem_cons_self)]
    exact List.mem_append_left _ (ih fun d hd => h d (List.mem_cons_of_mem c hd))

theorem mem_lineEnd {cr : Text} (hcr : cr = [] ∨ cr = ['\r']) (s : Text) : s ∈ lineEnd (cr ++ '\n' :: s) := by
  rcases hcr with rfl | rfl
  · exact mem_seq (List.mem_append_right _ (List.mem_singleton_self _)) (mem_lit ['\n'] s)
  · exact mem_seq (List.mem_append_left _ (mem_lit ['\r'] ('\n' :: s))) (mem_lit ['\n'] s)

theorem ended_nil : ended [] = [] := rfl

theorem ended_append (a b : List Text) : ended (a ++ b) = ended a ++ ended b := List.flatMap_append

theorem ended_cons (line : Text) (lines : List Text) : ended (line :: lines) = line ++ '\n' :: ended lines := by
  rw [ended, List.flatMap_cons, List.append_assoc]
  rfl

theorem ended_last (first : Text) (more : List Text) : ∃ text, ended (first :: more) = text ++ ['\n'] := by
  induction more generalizing first with
  | nil => exact ⟨first, List.flatMap_singleton ..⟩
  | cons second more ih =>
    obtain ⟨text, htext⟩ := ih second
    exact ⟨first ++ '\n' :: text, by rw [ended_cons, htext, List.append_assoc]; rfl⟩

/-- The expression finds a closed block. -/
theorem envelope_closed {opening first closing : Text} (more : List Text) (hopening : StrictFence opening) (hclosing : StrictFence closing)
    (rest : Text) : (matchStart frontmatterEnvelope (ended (opening :: (first :: more) ++ [closing]) ++ rest)).isSome := by
  obtain ⟨blanks, cr, rfl, hblanks, hcr⟩ := hopening
  obtain ⟨blanks', cr', rfl, hblanks', hcr'⟩ := hclosing
  obtain ⟨text, htext⟩ := ended_last first more
  have hall : ended (("---".toList ++ (blanks ++ cr)) :: (first :: more) ++ ["---".toList ++ (blanks' ++ cr')]) ++ rest =
      "---".toList ++ (blanks ++ (cr ++ '\n' :: (text ++ ([] ++ '\n' :: ("---".toList ++ (blanks' ++ (cr' ++ '\n' :: rest))))))) := by
    rw [List.cons_append, ended_cons, ended_append, htext, ended_cons, ended_nil]
    simp only [List.append_assoc, List.cons_append, List.nil_append]
  have hmem : rest ∈ frontmatterEnvelope (ended (("---".toList ++ (blanks ++ cr)) :: (first :: more) ++
      ["---".toList ++ (blanks' ++ cr')]) ++ rest) := by
    rw [hall]
    exact mem_seq (mem_lit _ _) (mem_seq (mem_greedy hblanks _) (mem_seq (mem_lineEnd hcr _)
      (mem_seq ((List.mem_tails _ _).mpr (List.suffix_append _ _)) (mem_seq (mem_lineEnd (Or.inl rfl) _) (mem_seq (mem_lit _ _)
        (mem_seq (mem_greedy hblanks' _) (List.mem_append_left _ (mem_lineEnd hcr' rest))))))))
  rw [matchStart, List.isSome_head?]
  exact List.ne_nil_of_mem hmem

theorem first_fence {lines : List Text} (h : ∃ line ∈ lines, FenceLine line) :
    ∃ before closing after, lines = before ++ closing :: after ∧ (∀ line ∈ before, ¬ FenceLine line) ∧ FenceLine closing := by
  induction lines with
  | nil =>
    obtain ⟨line, hline, -⟩ := h
    cases hline
  | cons line lines ih =>
    by_cases hline : FenceLine line
    · exact ⟨[], line, lines, rfl, fun _ h => absurd h List.not_mem_nil, hline⟩
    · obtain ⟨fence, hmem, hfence⟩ := h
      rcases List.mem_cons.mp hmem with rfl | hmem
      · exact absurd hfence hline
      · obtain ⟨before, closing, after, rfl, hbefore, hclosing⟩ := ih ⟨fence, hmem, hfence⟩
        exact ⟨line :: before, closing, after, rfl, List.forall_mem_cons.mpr ⟨hline, hbefore⟩, hclosing⟩

variable {M : Type} {lib : Frontmatter M}

/-- What the library reads from a closed block does not depend on what follows it. -/
theorem loads_closed (hlib : lib.Lawful) {opening closing : Text} {lines : List Text} (hopening : FenceLine opening)
    (hclosing : FenceLine closing) (hlines : ∀ line ∈ lines, '\n' ∉ line) (rest rest' : Text) :
    lib.loads (ended (opening :: lines ++ [closing]) ++ rest) = lib.loads (ended (opening :: lines ++ [closing]) ++ rest') := by
  have hone : ∀ line ∈ lines ++ [closing], '\n' ∉ line :=
    List.forall_mem_append.mpr ⟨hlines, List.forall_mem_singleton.mpr hclosing.1⟩
  have hexists : ∃ line ∈ lines ++ [closing], FenceLine line :=
    ⟨closing, List.mem_append_right _ (List.mem_singleton_self _), hclosing⟩
  obtain ⟨before, fence, after, heq, hbefore, hfence⟩ := first_fence hexists
  rw [heq] at hone
  have hloads (text : Text) : lib.loads (ended (opening :: lines ++ [closing]) ++ text) = lib.yaml (ended before) := by
    have hsplit : ended (opening :: lines ++ [closing]) ++ text = ended (opening :: before ++ [fence]) ++ (ended after ++ text) := by
      rw [List.cons_append, heq, ended_cons, ended_append, ended_cons, List.cons_append, ended_cons, ended_append, ended_cons]
      simp only [ended_nil, List.append_assoc, List.cons_append, List.nil_append]
    rw [hsplit]
    exact hlib.fenced opening before fence _ hopening
      (fun line hline => ⟨hone line (List.mem_append_left _ hline), hbefore line hline⟩) hfence
  rw [hloads, hloads]

/-! ### The answer from a slice -/

/-- What the filter can read off the first bytes: a body that opens no block, a closed block, or a whole body that is
complete. -/
def Readable (n : Nat) (body : Text) : Prop :=
  Plain body ∨ ClosedWithin n body ∨ (Utf8.encode body).length ≤ n ∧ sliceHasCompleteFrontmatter body

/-- The slice opens a block, and no further line in it begins like a fence. -/
def Unclosed (n : Nat) (body : Text) : Prop :=
  "---".toList <+: Utf8.fitting n body ∧ ¬ "\n---".toList <:+: Utf8.fitting n body

theorem prefix_dropWhile {s t : Text} (h : s <+: t) (hne : s.dropWhile PyText.isSpace ≠ []) :
    s.dropWhile PyText.isSpace <+: t.dropWhile PyText.isSpace := by
  obtain ⟨rest, rfl⟩ := h
  rw [List.dropWhile_append, if_neg (by simpa using hne)]
  exact List.prefix_append _ _

theorem Plain.of_prefix {s t : Text} (h : Plain t) (hs : s <+: t) : Plain s := by
  intro opening hmem hopens
  by_cases hnil : s.dropWhile PyText.isSpace = []
  · rw [hnil, List.prefix_nil] at hopens
    subst hopens
    exact absurd hmem (by decide)
  · exact h opening hmem (hopens.trans (prefix_dropWhile hs hnil))

theorem Plain.not_fence {s : Text} (h : Plain s) : ¬ "---".toList <+: s := by
  rintro ⟨rest, rfl⟩
  exact h "---".toList List.mem_cons_self ⟨rest, rfl⟩

theorem filteredNativeMetadata_bodySlice (n : Nat) (body : Text) : filteredNativeMetadata lib (bodySlice n body) =
    if sliceHasCompleteFrontmatter (Utf8.fitting n body) then some (lib.parse (Utf8.fitting n body)) else none := by
  rw [filteredNativeMetadata, decodeSlicePrefix_bodySlice]

theorem metadata_of_readable (hlib : lib.Lawful) {n : Nat} {body : Text} (h : Readable n body) :
    filteredNativeMetadata lib (bodySlice n body) = some (lib.parse body) := by
  rw [filteredNativeMetadata_bodySlice]
  rcases h with hplain | ⟨opening, first, more, closing, rest, rfl, hopening, hclosing, hlines, hbytes⟩ | ⟨hbytes, hcomplete⟩
  · have hslice := hplain.of_prefix (Utf8.fitting_prefix n body)
    have hcomplete : sliceHasCompleteFrontmatter (Utf8.fitting n body) = true := if_neg hslice.not_fence
    rw [if_pos hcomplete, Frontmatter.parse, Frontmatter.parse, hlib.plain _ hslice, hlib.plain _ hplain]
  · rw [Utf8.fitting_append hbytes]
    have hcomplete (text : Text) : sliceHasCompleteFrontmatter (ended (opening :: (first :: more) ++ [closing]) ++ text) = true := by
      rw [sliceHasCompleteFrontmatter, envelope_closed more hopening hclosing text, ite_self]
    rw [if_pos (hcomplete _), Frontmatter.parse, Frontmatter.parse]
    rw [loads_closed hlib hopening.fenceLine hclosing.fenceLine hlines _ rest]
  · rw [Utf8.fitting_all hbytes, if_pos hcomplete]

theorem lineEnd_spec {s rest : Text} (h : rest ∈ lineEnd s) : '\n' :: rest <:+ s := by
  obtain ⟨t, ht, hrest⟩ := List.mem_flatMap.mp h
  have hsuffix := (consumes_lit ['\r']).opt s t ht
  rw [lit] at hrest
  split at hrest
  · rename_i hnewline
    obtain ⟨u, rfl⟩ := hnewline
    rw [List.drop_left] at hrest
    rw [List.mem_singleton.mp hrest]
    exact hsuffix
  · cases hrest

/-- A block is closed only by a line that begins like a fence. -/
theorem infix_of_envelope {s rest : Text} (h : rest ∈ frontmatterEnvelope s) : "\n---".toList <:+: s := by
  obtain ⟨a, ha, h⟩ := List.mem_flatMap.mp h
  obtain ⟨b, hb, h⟩ := List.mem_flatMap.mp h
  obtain ⟨c, hc, h⟩ := List.mem_flatMap.mp h
  obtain ⟨d, hd, h⟩ := List.mem_flatMap.mp h
  obtain ⟨e, he, h⟩ := List.mem_flatMap.mp h
  obtain ⟨f, hf, -⟩ := List.mem_flatMap.mp h
  have hc' : c <:+ s := ((List.suffix_cons _ c).trans (lineEnd_spec hc)).trans
    ((consumes_greedy _ a b hb).trans (consumes_lit _ s a ha))
  have hd' : d <:+ s := ((List.mem_tails _ _).mp hd).trans hc'
  have he' : '\n' :: e <:+ s := (lineEnd_spec he).trans hd'
  rw [lit] at hf
  split at hf
  · rename_i hfence
    obtain ⟨u, rfl⟩ := hfence
    exact (List.prefix_append "\n---".toList u).isInfix.trans he'.isInfix
  · cases hf

theorem metadata_of_unclosed {n : Nat} {body : Text} (h : Unclosed n body) : filteredNativeMetadata lib (bodySlice n body) = none := by
  rw [filteredNativeMetadata_bodySlice, sliceHasCompleteFrontmatter, if_pos h.1, if_neg]
  rw [matchStart, List.isSome_head?, not_not, List.eq_nil_iff_forall_not_mem]
  exact fun rest hrest => h.2 (infix_of_envelope hrest)

/-- Wherever the slice is cut, a readable one decides as the whole body does, and an unclosed one is counted as such. -/
theorem slice_answer (lib : Frontmatter M) (hlib : lib.Lawful) (accepts : M → Bool) (n : Nat) (body : Text) :
    (Readable n body → decideRow lib accepts (bodySlice n body) = decideBody lib accepts body) ∧
    (Unclosed n body → decideRow lib accepts (bodySlice n body) = .unparseable) := by
  constructor
  · intro h
    rw [decideRow, metadata_of_readable hlib h, decideBody]
  · intro h
    rw [decideRow, metadata_of_unclosed h]

end Akb.Search

/-! A reader of front matter for blocks of plain `key: value` lines. -/
namespace Akb.Search
open Akb.Library

/-- Whether the line is a fence. -/
def isFence (line : Text) : Bool :=
  '\n' ∉ line && 3 ≤ (line.takeWhile (· = '-')).length && (line.dropWhile (· = '-')).all PyText.isSpace

theorem isFence_iff (line : Text) : isFence line = true ↔ FenceLine line := by
  rw [isFence, Bool.and_eq_true, Bool.and_eq_true, decide_eq_true_eq, decide_eq_true_eq, List.all_eq_true]
  constructor
  · rintro ⟨⟨hline, hdashes⟩, hblanks⟩
    refine ⟨hline, _, _, List.takeWhile_append_dropWhile.symm, hdashes, fun c hc => ?_, hblanks⟩
    exact of_decide_eq_true (List.all_eq_true.mp List.all_takeWhile c hc)
  · rintro ⟨hline, dashes, blanks, rfl, hlength, hdashes, hblanks⟩
    have hpos : ∀ c ∈ dashes, decide (c = '-') = true := fun c hc => decide_eq_true (hdashes c hc)
    have hstop : blanks.takeWhile (· = '-') = [] ∧ blanks.dropWhile (· = '-') = blanks := by
      cases blanks with
      | nil => exact ⟨rfl, rfl⟩
      | cons c blanks =>
        have hc : c ≠ '-' := by
          rintro rfl
          exact absurd (hblanks '-' List.mem_cons_self) (by decide)
        exact ⟨List.takeWhile_cons_of_neg (by simpa using hc), List.dropWhile_cons_of_neg (by simpa using hc)⟩
    rw [List.takeWhile_append_of_pos hpos, List.dropWhile_append_of_pos hpos, hstop.1, hstop.2, List.append_nil]
    exact ⟨⟨hline, hlength⟩, hblanks⟩

/-- The pairs of the lines with a colon. -/
def linePairs (block : Text) : Option (List (Text × Text)) :=
  some ((block.splitOn '\n').filterMap (PyReplace.partition ": ".toList))

def lineLib : Frontmatter (List (Text × Text)) where
  loads := fun text =>
    let lines := text.splitOn '\n'
    let rest := lines.drop 1
    if (lines.head?.any isFence) ∧ (rest.dropWhile (fun line => !isFence line)) ≠ [] then
      linePairs (ended (rest.takeWhile (fun line => !isFence line)))
    else some []
  yaml := linePairs
  empty := []

theorem splitOn_ended {lines : List Text} (h : ∀ line ∈ lines, '\n' ∉ line) (rest : Text) :
    (ended lines ++ rest).splitOn '\n' = lines ++ rest.splitOn '\n' := by
  induction lines with
  | nil => rfl
  | cons line lines ih =>
    obtain ⟨hline, hlines⟩ := List.forall_mem_cons.mp h
    rw [ended_cons, List.append_assoc, List.cons_append, List.splitOn_append_cons_self_of_not_mem hline, ih hlines]
    rfl

theorem lineLib_fenced {opening closing : Text} {lines : List Text} (hopening : FenceLine opening)
    (hlines : ∀ line ∈ lines, '\n' ∉ line ∧ ¬ FenceLine line) (hclosing : FenceLine closing) (rest : Text) :
    lineLib.loads (ended (opening :: lines ++ [closing]) ++ rest) = lineLib.yaml (ended lines) := by
  have hone : ∀ line ∈ opening :: lines ++ [closing], '\n' ∉ line :=
    List.forall_mem_append.mpr ⟨List.forall_mem_cons.mpr ⟨hopening.1, fun line hline => (hlines line hline).1⟩,
      List.forall_mem_singleton.mpr hclosing.1⟩
  have hno : ∀ line ∈ lines, (!isFence line) = true := by
    intro line hline
    rw [Bool.not_eq_true', ← Bool.not_eq_true, isFence_iff]
    exact (hlines line hline).2
  have hclose : isFence closing = true := (isFence_iff closing).mpr hclosing
  have hopen : isFence opening = true := (isFence_iff opening).mpr hopening
  have hsplit : (ended (opening :: lines ++ [closing]) ++ rest).splitOn '\n' = opening :: (lines ++ closing :: rest.splitOn '\n') := by
    rw [splitOn_ended hone, List.append_assoc]
    rfl
  have htake : (lines ++ closing :: rest.splitOn '\n').takeWhile (fun line => !isFence line) = lines := by
    rw [List.takeWhile_append_of_pos hno, List.takeWhile_cons_of_neg (by simp [hclose]), List.append_nil]
  have hdrop : (lines ++ closing :: rest.splitOn '\n').dropWhile (fun line => !isFence line) ≠ [] := by
    rw [List.dropWhile_append_of_pos hno, List.dropWhile_cons_of_neg (by simp [hclose])]
    exact List.cons_ne_nil _ _
  simp only [lineLib]
  rw [hsplit, List.head?_cons, List.drop_one, List.tail_cons, htake, if_pos ⟨by simpa using hopen, hdrop⟩]

theorem lineLib_plain {text : Text} (h : Plain text) : lineLib.loads text = some [] := by
  have hfirst : (text.splitOn '\n').head?.any isFence = false := by
    obtain ⟨first, rest, hsplit⟩ := List.exists_cons_of_ne_nil (List.splitOn_ne_nil '\n' text)
    rw [hsplit, List.head?_cons, Option.any_some, ← Bool.not_eq_true, isFence_iff]
    rintro ⟨-, dashes, blanks, rfl, hlength, hdashes, -⟩
    have hdashes' : dashes = List.replicate dashes.length '-' := List.eq_replicate_of_mem hdashes
    obtain ⟨n, hn⟩ := Nat.exists_eq_add_of_le hlength
    have htext : ∃ tail, text = "---".toList ++ tail := by
      have hjoin : ['\n'].intercalate (text.splitOn '\n') = text := List.intercalate_splitOn '\n'
      rw [hsplit, hdashes', hn, List.replicate_add] at hjoin
      cases rest with
      | nil =>
        rw [List.intercalate_singleton, List.append_assoc] at hjoin
        exact ⟨_, hjoin.symm⟩
      | cons second rest =>
        rw [List.intercalate_cons_cons, List.append_assoc, List.append_assoc] at hjoin
        exact ⟨_, hjoin.symm⟩
    obtain ⟨tail, rfl⟩ := htext
    exact h.not_fence (List.prefix_append _ _)
  simp only [lineLib, hfirst, Bool.false_eq_true, false_and, if_false]

theorem lineLib_lawful : lineLib.Lawful where
  fenced := fun _ _ _ rest hopening hlines hclosing => lineLib_fenced hopening hlines hclosing rest
  plain := fun _ => lineLib_plain

/-- A block that is closed far behind the slice. -/
def longBlock : Text := ['-', '-', '-', '\n'] ++ (List.replicate 9000 'a' ++ "\n---\n".toList)

theorem longBlock_unclosed : Unclosed sliceBytes longBlock := by
  have hstart : Utf8.fitting sliceBytes longBlock = ['-', '-', '-', '\n'] ++
      Utf8.fitting (sliceBytes - (Utf8.encode ['-', '-', '-', '\n']).length) (List.replicate 9000 'a' ++ "\n---\n".toList) :=
    Utf8.fitting_append (by decide) _
  have hlength : (Utf8.fitting sliceBytes longBlock).length ≤ (['-', '-', '-', '\n'] ++ List.replicate 9000 'a').length := by
    have hfits := (Utf8.length_le_encode _).trans (Utf8.length_encode_fitting sliceBytes longBlock)
    rw [List.length_append, List.length_replicate]
    exact hfits.trans (by decide)
  refine ⟨hstart ▸ List.prefix_append ['-', '-', '-'] _, fun hin => ?_⟩
  have hslice : Utf8.fitting sliceBytes longBlock <+: ['-', '-', '-', '\n'] ++ List.replicate 9000 'a' :=
    List.prefix_of_prefix_length_le (Utf8.fitting_prefix _ _)
      (by rw [longBlock, ← List.append_assoc]; exact List.prefix_append _ _) hlength
  have hall : ['\n', '-', '-', '-'] <:+: '-' :: '-' :: '-' :: '\n' :: List.replicate 9000 'a' := hin.trans hslice.isInfix
  simp only [List.infix_cons_iff, List.cons_prefix_cons] at hall
  rcases hall with ⟨h, -⟩ | ⟨h, -⟩ | ⟨h, -⟩ | ⟨-, h⟩ | h
  · exact absurd h (by decide)
  · exact absurd h (by decide)
  · exact absurd h (by decide)
  · exact absurd (List.eq_of_mem_replicate (h.subset List.mem_cons_self)) (by decide)
  · exact absurd (List.eq_of_mem_replicate (h.subset List.mem_cons_self)) (by decide)

/-- A block that the slice does not hold in full is not decided by the whole body. -/
theorem long_block_excluded :
    ¬ ∀ (lib : Frontmatter (List (Text × Text))) (accepts : List (Text × Text) → Bool) (body : Text), lib.Lawful →
      decideRow lib accepts (bodySlice sliceBytes body) = decideBody lib accepts body := by
  intro h
  have hrow := h lineLib (fun _ => true) longBlock lineLib_lawful
  rw [decideRow, metadata_of_unclosed longBlock_unclosed] at hrow
  exact absurd hrow (by decide)

def typedNote : Text := "---\ntype: note\n---\ntext".toList

theorem typed_note_decided :
    decideRow lineLib (fun m => m = [("type".toList, "note".toList)]) (bodySlice sliceBytes typedNote) =
      decideBody lineLib (fun m => m = [("type".toList, "note".toList)]) typedNote :=
  (slice_answer lineLib lineLib_lawful _ sliceBytes typedNote).1
    (Or.inr (Or.inl ⟨"---".toList, "type: note".toList, [], "---".toList, "text".toList, by decide +kernel,
      ⟨[], [], rfl, by simp, Or.inl rfl⟩, ⟨[], [], rfl, by simp, Or.inl rfl⟩, by decide, by decide⟩))

end Akb.Search
