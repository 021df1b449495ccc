import Akb.Grep.Scan
import Akb.Library.PyReplace
import Mathlib.Data.List.Chain

/-! Replacing in the bodies of the current heads, line by line. -/
namespace Akb.Grep
open Akb.Library UniversalNewlines

/-- A compiled pattern of `re`. `sub` takes a template, and `subWith` a text that stands as it is. -/
structure Compiled where
  search : Text → Bool
  sub : Text → Text → Option Text
  subWith : Text → Text → Text

/-- The module `re`: patterns by their text and whether case counts. -/
structure Re where
  compile : Text → Bool → Option Compiled
  escape : Text → Text

/-- A pattern that is not found leaves the text as it is. -/
structure Compiled.Lawful (c : Compiled) : Prop where
  sub : ∀ text, c.search text = false → ∀ replacement, ∀ out ∈ c.sub replacement text, out = text
  subWith : ∀ text, c.search text = false → ∀ replacement, c.subWith replacement text = text

def Re.Lawful (re : Re) : Prop := ∀ pattern ignoreCase, ∀ c ∈ re.compile pattern ignoreCase, c.Lawful

/-- What a search or a replacement is asked to look for. -/
structure Pattern where
  text : Text
  regex : Bool
  caseSensitive : Bool

/-- `str.replace`, also of the empty text. -/
def replaceText (old new s : Text) : Text :=
  if old = [] then new ++ s.flatMap (fun c => c :: new) else PyReplace.replaceAll old new s

section Matching
variable (re : Re) (p : Pattern)

/-- `_matcher`; an invalid regular expression has none. -/
def matcher : Option (Text → Bool) :=
  if p.regex then (re.compile p.text !p.caseSensitive).map Compiled.search
  else if p.caseSensitive then some fun line => p.text <:+: line
  else (re.compile (re.escape p.text) true).map Compiled.search

/-- `apply_grep_replacement`. -/
def applyGrepReplacement (replacement text : Text) : Option Text :=
  if p.regex then (re.compile p.text !p.caseSensitive).bind fun c => c.sub replacement text
  else if p.caseSensitive then some (replaceText p.text replacement text)
  else (re.compile (re.escape p.text) true).map fun c => c.subWith replacement text

/-- The lines of a body with the replacement applied, each with its own end. -/
def replaceLines (replacement : Text) (lines : List (Text × Text)) : Option (List Text) :=
  lines.mapM (fun l => (applyGrepReplacement re p replacement l.1).map (· ++ l.2))

def replaceBody (replacement searchText : Text) : Option Text :=
  (replaceLines re p replacement (logicalLines searchText)).map List.flatten

/-- `_replace_bodies_sync`. -/
def replaceBodies (parseMarkdown : Text → Markdown) (replacement : Text) (bodies : List HeadBody) : Option (List Text) :=
  bodies.mapM (fun b => replaceBody re p replacement (b.searchText parseMarkdown))

end Matching

variable {re : Re} {p : Pattern}

theorem replaceText_unmatched {pattern text : Text} (h : ¬ pattern <:+: text) (replacement : Text) :
    replaceText pattern replacement text = text := by
  have hpattern : pattern ≠ [] := fun hnil => h (hnil ▸ List.nil_infix)
  rw [replaceText, if_neg hpattern, PyReplace.replaceAll_eq_self_of_notMem _ h]

theorem applyGrepReplacement_unmatched (hre : re.Lawful) {m : Text → Bool} (hm : matcher re p = some m) {replacement line out : Text}
    (hline : m line = false) (hout : applyGrepReplacement re p replacement line = some out) : out = line := by
  rw [matcher] at hm
  rw [applyGrepReplacement] at hout
  split at hm
  · rename_i hregex
    rw [if_pos hregex] at hout
    obtain ⟨c, hc, rfl⟩ := Option.map_eq_some_iff.mp hm
    obtain ⟨c', hc', hsub⟩ := Option.bind_eq_some_iff.mp hout
    rw [hc] at hc'
    cases hc'
    exact (hre _ _ c hc).sub line hline replacement out hsub
  · rename_i hregex
    rw [if_neg hregex] at hout
    split at hm
    · rename_i hcase
      rw [if_pos hcase] at hout
      cases hm
      rw [replaceText_unmatched (of_decide_eq_false hline)] at hout
      exact (Option.some.inj hout).symm
    · rename_i hcase
      rw [if_neg hcase] at hout
      obtain ⟨c, hc, rfl⟩ := Option.map_eq_some_iff.mp hm
      obtain ⟨c', hc', hsub⟩ := Option.map_eq_some_iff.mp hout
      rw [hc] at hc'
      cases hc'
      exact hsub ▸ (hre _ _ c hc).subWith line hline replacement

/-! ### The ends of the lines -/

/-- The ends of the lines of a text. -/
def endings (s : Text) : List Text := ((logicalLines s).map Prod.snd).filter (· ≠ [])

/-- The lines as they are written back. -/
def written (lines : List (Text × Text)) (news : List Text) : Text := (List.zipWith (fun l new => new ++ l.2) lines news).flatten

/-- No new line brings a line end, and none that is emptied joins a carriage return with a newline. -/
structure KeepsEnds (lines : List (Text × Text)) (news : List Text) : Prop where
  oneLine : ∀ new ∈ news, OneLine new
  apart : (lines.zip news).IsChain (fun a b => a.1.2 = ['\r'] → ¬ (b.2 = [] ∧ b.1.2 = ['\n']))

theorem KeepsEnds.tail {l : Text × Text} {new : Text} {lines : List (Text × Text)} {news : List Text}
    (h : KeepsEnds (l :: lines) (new :: news)) : KeepsEnds lines news :=
  ⟨fun n hn => h.oneLine n (List.mem_cons_of_mem _ hn), h.apart.tail⟩

theorem head_oneLine {new : Text} (h : OneLine new) (hne : new ≠ []) (s : Text) : (new ++ s).head? ≠ some '\n' := by
  obtain ⟨c, new, rfl⟩ := List.exists_cons_of_ne_nil hne
  rw [List.cons_append, List.head?_cons]
  exact fun heq => (h c List.mem_cons_self).1 (Option.some.inj heq)

/-- Behind a carriage return that stays, no newline is written. -/
theorem KeepsEnds.head {l : Text × Text} {new : Text} {lines : List (Text × Text)} {news : List Text}
    (h : KeepsEnds (l :: lines) (new :: news)) {s : Text} (hcut : Cut s lines) (hl : l.2 = ['\r']) :
    (written lines news).head? ≠ some '\n' := by
  cases news with
  | nil =>
    rw [written, List.zipWith_nil_right]
    exact Option.some_ne_none '\n' ∘ Eq.symm
  | cons new' news =>
    have hnew : OneLine new' := h.oneLine new' (List.mem_cons_of_mem _ List.mem_cons_self)
    cases hcut with
    | nil => exact Option.some_ne_none '\n' ∘ Eq.symm
    | last line hline hne =>
      rw [written, List.zipWith_cons_cons, List.zipWith_nil_left, List.flatten_singleton]
      by_cases hnil : new' = []
      · rw [hnil]
        exact Option.some_ne_none '\n' ∘ Eq.symm
      · exact head_oneLine hnew hnil []
    | ended line stop s rest hline hstop hnext hcut =>
      have happart := (List.isChain_cons_cons.mp h.apart).1 hl
      rw [written, List.zipWith_cons_cons, List.flatten_cons, List.append_assoc]
      by_cases hnil : new' = []
      · rw [hnil, List.nil_append]
        cases hstop with
        | newline => exact absurd ⟨hnil, rfl⟩ happart
        | carriageReturn => exact fun heq => absurd (Option.some.inj heq) (by decide)
        | both => exact fun heq => absurd (Option.some.inj heq) (by decide)
      · exact head_oneLine hnew hnil _

/-- The lines that are written back have the ends of the lines that were read. -/
theorem cut_written {s : Text} {lines : List (Text × Text)} (hcut : Cut s lines) {news : List Text}
    (hlength : news.length = lines.length) (h : KeepsEnds lines news) :
    ∃ lines', Cut (written lines news) lines' ∧ (lines'.map Prod.snd).filter (· ≠ []) = (lines.map Prod.snd).filter (· ≠ []) := by
  induction hcut generalizing news with
  | nil =>
    rw [List.length_eq_zero_iff.mp hlength]
    exact ⟨[], .nil, rfl⟩
  | last line hline hne =>
    obtain ⟨new, rfl⟩ := List.length_eq_one_iff.mp hlength
    have hnew := h.oneLine new List.mem_cons_self
    have hwritten : written [(line, [])] [new] = new := by
      rw [written, List.zipWith_cons_cons, List.zipWith_nil_left, List.flatten_singleton, List.append_nil]
    rw [hwritten]
    by_cases hnil : new = []
    · exact ⟨[], hnil ▸ .nil, rfl⟩
    · exact ⟨[(new, [])], .last new hnew hnil, rfl⟩
  | ended line stop s rest hline hstop hnext hcut ih =>
    obtain ⟨new, news, rfl⟩ := List.exists_cons_of_length_eq_add_one hlength
    obtain ⟨lines', hlines', hends⟩ := ih (Nat.succ.inj hlength) h.tail
    have hwritten : written ((line, stop) :: rest) (new :: news) = new ++ (stop ++ written rest news) := by
      rw [written, List.zipWith_cons_cons, List.flatten_cons, List.append_assoc]
      rfl
    rw [hwritten]
    refine ⟨(new, stop) :: lines', .ended new stop _ lines' (h.oneLine new List.mem_cons_self) hstop ?_ hlines', ?_⟩
    · exact fun hcr => h.head hcut hcr
    · rw [List.map_cons, List.map_cons, List.filter_cons, List.filter_cons, hends]

/-! ### The replaced body -/

/-- One line of the replaced body. -/
structure Rewritten (re : Re) (p : Pattern) (m : Text → Bool) (replacement : Text) (l : Text × Text) (new : Text) : Prop where
  applied : applyGrepReplacement re p replacement l.1 = some new
  kept : m l.1 = false → new = l.1

/-- A body and its replacement: the lines of the scan, each rewritten and with its own end. -/
structure LineByLine (re : Re) (p : Pattern) (r : Request) (replacement : Text) (b : HeadBody) (out : Text) (news : List Text) : Prop where
  scanned : (b.numberedLines r.parseMarkdown).map Prod.fst = (logicalLines (b.searchText r.parseMarkdown)).map Prod.fst
  rewritten : List.Forall₂ (Rewritten re p r.matcher replacement) (logicalLines (b.searchText r.parseMarkdown)) news
  out_eq : out = written (logicalLines (b.searchText r.parseMarkdown)) news
  untouched : matchCount r b = 0 → out = b.searchText r.parseMarkdown
  ends : KeepsEnds (logicalLines (b.searchText r.parseMarkdown)) news → endings out = endings (b.searchText r.parseMarkdown)

theorem written_unmatched {m : Text → Bool} {replacement : Text} {lines : List (Text × Text)} {news : List Text}
    (h : List.Forall₂ (Rewritten re p m replacement) lines news) (hno : ∀ l ∈ lines, m l.1 = false) :
    written lines news = (lines.map (fun l => l.1 ++ l.2)).flatten := by
  induction h with
  | nil => rfl
  | cons hfirst hrest ih =>
    rw [List.forall_mem_cons] at hno
    rw [written, List.zipWith_cons_cons, List.flatten_cons, List.map_cons, List.flatten_cons, hfirst.kept hno.1]
    exact congrArg _ (ih hno.2)

theorem replaceLines_spec (hre : re.Lawful) {m : Text → Bool} (hm : matcher re p = some m) {replacement : Text}
    {lines : List (Text × Text)} {pieces : List Text} (h : replaceLines re p replacement lines = some pieces) :
    ∃ news, List.Forall₂ (Rewritten re p m replacement) lines news ∧ pieces.flatten = written lines news := by
  induction lines generalizing pieces with
  | nil =>
    cases h
    exact ⟨[], .nil, rfl⟩
  | cons l lines ih =>
    rw [replaceLines, List.mapM_cons] at h
    obtain ⟨piece, hpiece, h⟩ := Option.bind_eq_some_iff.mp h
    obtain ⟨rest, hrest, h⟩ := Option.bind_eq_some_iff.mp h
    obtain ⟨new, hnew, rfl⟩ := Option.map_eq_some_iff.mp hpiece
    obtain ⟨news, hnews, hwritten⟩ := ih hrest
    cases h
    refine ⟨new :: news, .cons ⟨hnew, fun hline => applyGrepReplacement_unmatched hre hm hline hnew⟩ hnews, ?_⟩
    rw [List.flatten_cons, hwritten, written, written, List.zipWith_cons_cons, List.flatten_cons]

theorem numberedLines_eq (r : Request) (b : HeadBody) :
    (b.numberedLines r.parseMarkdown).map Prod.fst = (logicalLines (b.searchText r.parseMarkdown)).map Prod.fst := by
  rw [HeadBody.numberedLines, List.zipIdx_map_fst, (cut_logicalLines (b.searchText r.parseMarkdown)).textLines]

theorem unmatched_lines {r : Request} {b : HeadBody} (h : matchCount r b = 0) :
    ∀ l ∈ logicalLines (b.searchText r.parseMarkdown), r.matcher l.1 = false := by
  intro l hl
  have hmem : l.1 ∈ (b.numberedLines r.parseMarkdown).map Prod.fst := numberedLines_eq r b ▸ List.mem_map_of_mem hl
  obtain ⟨e, he, heq⟩ := List.mem_map.mp hmem
  have hno := List.filter_eq_nil_iff.mp (List.length_eq_zero_iff.mp h) e he
  rw [← heq]
  exact (Bool.not_eq_true _).mp hno

theorem replaceBody_lineByLine {re : Re} (hre : re.Lawful) {p : Pattern} {r : Request} (hm : matcher re p = some r.matcher)
    {replacement : Text} {b : HeadBody} {out : Text} (h : replaceBody re p replacement (b.searchText r.parseMarkdown) = some out) :
    ∃ news, LineByLine re p r replacement b out news := by
  obtain ⟨pieces, hpieces, rfl⟩ := Option.map_eq_some_iff.mp h
  obtain ⟨news, hnews, hout⟩ := replaceLines_spec hre hm hpieces
  have hcut := cut_logicalLines (b.searchText r.parseMarkdown)
  refine ⟨news, numberedLines_eq r b, hnews, hout, fun hno => ?_, fun hkeeps => ?_⟩
  · rw [hout, written_unmatched hnews (unmatched_lines hno), hcut.flatten]
  · obtain ⟨lines', hlines', hends⟩ := cut_written hcut hnews.length_eq.symm hkeeps
    rw [endings, endings, hout, hlines'.logicalLines, hends]

/-- A replacement rewrites the lines that the scan matches, each for itself, and nothing else. -/
theorem replace_line_by_line (re : Re) (hre : re.Lawful) (p : Pattern) (r : Request) (hm : matcher re p = some r.matcher)
    (replacement : Text) (bodies : List HeadBody) {outs : List Text}
    (h : replaceBodies re p r.parseMarkdown replacement bodies = some outs) :
    List.Forall₂ (fun b out => ∃ news, LineByLine re p r replacement b out news) bodies outs := by
  induction bodies generalizing outs with
  | nil =>
    cases h
    exact .nil
  | cons b bodies ih =>
    rw [replaceBodies, List.mapM_cons] at h
    obtain ⟨out, hout, h⟩ := Option.bind_eq_some_iff.mp h
    obtain ⟨rest, hrest, h⟩ := Option.bind_eq_some_iff.mp h
    cases h
    exact .cons (replaceBody_lineByLine hre hm hout) (ih hrest)

/-! ### Two replacements -/

/-- What `re` does with a pattern that has no special character, and with templates that have none. -/
def plainRe : Re where
  compile := fun pattern _ => some ⟨fun text => pattern <:+: text, fun replacement text => some (replaceText pattern replacement text),
    replaceText pattern⟩
  escape := id

theorem plainRe_lawful : plainRe.Lawful := by
  intro pattern ignoreCase c hc
  cases hc
  refine ⟨fun text hno replacement out hout => ?_, fun text hno replacement => replaceText_unmatched (of_decide_eq_false hno) _⟩
  cases hout
  exact replaceText_unmatched (of_decide_eq_false hno) _

def oldPattern : Pattern := ⟨"old".toList, true, true⟩

def oldRequest : Request where
  parseMarkdown := fun text => ⟨none, text⟩
  matcher := fun line => "old".toList <:+: line
  mode := .default
  resourceLimit := 20
  collectMatchedBodyIndexes := true
  limits := ⟨1000, 5000, 4096, 262144, 1048576⟩

def oldBody : HeadBody :=
  ⟨"eng".toList, "r1".toList, .document, "notes.md".toList, "v1".toList, "d1".toList, "an old line\r\nanother\n".toList, "m1".toList⟩

theorem old_line_replaced :
    List.Forall₂ (fun b out => ∃ news, LineByLine plainRe oldPattern oldRequest "new".toList b out news) [oldBody]
      ["an new line\r\nanother\n".toList] :=
  replace_line_by_line plainRe plainRe_lawful oldPattern oldRequest rfl "new".toList [oldBody] (by decide)

/-- A replacement that brings a newline brings an end of a line. -/
theorem newline_replacement_adds_end :
    ¬ ∀ (re : Re) (p : Pattern) (replacement body out : Text), re.Lawful → replaceBody re p replacement body = some out →
      endings out = endings body := by
  intro h
  have hends := h plainRe ⟨"old".toList, false, true⟩ "a\nb".toList "old\r\n".toList "a\nb\r\n".toList plainRe_lawful
    (by decide +kernel)
  revert hends
  decide

end Akb.Grep
