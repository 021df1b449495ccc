import Akb.Library.PyLines

/-! The lines of a text stream, as `io.StringIO` reads them. -/
namespace Akb.Library.UniversalNewlines
open PyLines

/-- The line ends behind `c`; a carriage return and its newline are one end. -/
def endsHere (c : Char) (rest : List Char) : Bool := c = '\n' || (c = '\r' && rest.head? ≠ some '\n')

/-- The lines of `StringIO(s, newline="")`, with their ends as they stand. -/
def rawLines : List Char → List (List Char)
  | [] => []
  | c :: s => if endsHere c s then [c] :: rawLines s else push c (rawLines s)

/-- Each end of a line as one newline. -/
def translate : List Char → List Char
  | [] => []
  | c :: s =>
    if c = '\r' then if s.head? = some '\n' then translate s else '\n' :: translate s
    else c :: translate s

/-- The lines of `StringIO(s, newline=None)`. -/
def textLines (s : List Char) : List (List Char) := rawLines (translate s)

/-- `s.removesuffix(suffix)` -/
def removeSuffix (suffix s : List Char) : List Char := if suffix <:+ s then s.take (s.length - suffix.length) else s

/-- `line.removesuffix("\n").removesuffix("\r")` -/
def chomp (line : List Char) : List Char := removeSuffix ['\r'] (removeSuffix ['\n'] line)

theorem flatten_rawLines (s : List Char) : (rawLines s).flatten = s := by
  induction s with
  | nil => rfl
  | cons c s ih =>
    rw [rawLines]
    split
    · rw [List.flatten_cons, ih]
      rfl
    · rw [flatten_push, ih]

/-- The lines of a text, each with its end. -/
def logicalLines (s : List Char) : List (List Char × List Char) :=
  (rawLines s).map (fun raw => (chomp raw, raw.drop (chomp raw).length))

/-! ### A text as its lines -/

/-- No line ends within the text. -/
def OneLine (line : List Char) : Prop := ∀ c ∈ line, c ≠ '\n' ∧ c ≠ '\r'

/-- The ends of lines. -/
inductive IsEnd : List Char → Prop where
  | newline : IsEnd ['\n']
  | carriageReturn : IsEnd ['\r']
  | both : IsEnd ['\r', '\n']

/-- A text as its lines with their ends. -/
inductive Cut : List Char → List (List Char × List Char) → Prop where
  | nil : Cut [] []
  | last (line : List Char) (hline : OneLine line) (hne : line ≠ []) : Cut line [(line, [])]
  | ended (line stop s : List Char) (rest : List (List Char × List Char)) (hline : OneLine line) (hstop : IsEnd stop)
      (hnext : stop = ['\r'] → s.head? ≠ some '\n') (h : Cut s rest) : Cut (line ++ (stop ++ s)) ((line, stop) :: rest)

theorem exists_cut (s : List Char) : ∃ lines, Cut s lines := by
  induction hlength : s.length using Nat.strongRecOn generalizing s with
  | ind n ih =>
    have hsplit := List.takeWhile_append_dropWhile (p := fun c => c ≠ '\n' ∧ c ≠ '\r') (l := s)
    have hline : OneLine (s.takeWhile fun c => c ≠ '\n' ∧ c ≠ '\r') := fun c hc =>
      of_decide_eq_true (List.all_eq_true.mp List.all_takeWhile c hc)
    have hlength' := congrArg List.length hsplit
    rw [List.length_append] at hlength'
    cases hrest : s.dropWhile (fun c => c ≠ '\n' ∧ c ≠ '\r') with
    | nil =>
      rw [hrest, List.append_nil] at hsplit
      rw [hsplit] at hline
      by_cases hs : s = []
      · exact ⟨[], hs ▸ .nil⟩
      · exact ⟨[(s, [])], .last s hline hs⟩
    | cons c rest =>
      rw [hrest, List.length_cons] at hlength'
      have hc : c = '\n' ∨ c = '\r' := by
        have hhead := List.head?_dropWhile_not (fun c => decide (c ≠ '\n' ∧ c ≠ '\r')) s
        rw [hrest] at hhead
        have hnot := of_decide_eq_false hhead
        by_contra hno
        exact hnot ⟨fun h => hno (Or.inl h), fun h => hno (Or.inr h)⟩
      rw [← hsplit, hrest]
      rcases hc with rfl | rfl
      · obtain ⟨lines, hlines⟩ := ih rest.length (by omega) rest rfl
        exact ⟨_, .ended _ ['\n'] rest lines hline .newline (fun h => absurd h (by decide)) hlines⟩
      · by_cases hnext : rest.head? = some '\n'
        · obtain ⟨rest, rfl⟩ := List.head?_eq_some_iff.mp hnext
          rw [List.length_cons] at hlength'
          obtain ⟨lines, hlines⟩ := ih rest.length (by omega) rest rfl
          exact ⟨_, .ended _ ['\r', '\n'] rest lines hline .both (fun h => absurd h (by decide)) hlines⟩
        · obtain ⟨lines, hlines⟩ := ih rest.length (by omega) rest rfl
          exact ⟨_, .ended _ ['\r'] rest lines hline .carriageReturn (fun _ => hnext) hlines⟩

/-! ### Reading the lines back -/

theorem endsHere_of_oneLine {c : Char} {line : List Char} (h : OneLine (c :: line)) (rest : List Char) : endsHere c rest = false := by
  have hc := h c List.mem_cons_self
  simp [endsHere, hc.1, hc.2]

theorem OneLine.tail {c : Char} {line : List Char} (h : OneLine (c :: line)) : OneLine line :=
  fun d hd => h d (List.mem_cons_of_mem c hd)

theorem rawLines_last {line : List Char} (h : OneLine line) (hne : line ≠ []) : rawLines line = [line] := by
  induction line with
  | nil => exact absurd rfl hne
  | cons c line ih =>
    rw [rawLines, endsHere_of_oneLine h, if_neg Bool.false_ne_true]
    cases line with
    | nil => rfl
    | cons d line =>
      rw [ih h.tail (List.cons_ne_nil d line)]
      rfl

theorem rawLines_end {stop s : List Char} (hstop : IsEnd stop) (hnext : stop = ['\r'] → s.head? ≠ some '\n') :
    rawLines (stop ++ s) = stop :: rawLines s := by
  cases hstop with
  | newline => rfl
  | carriageReturn =>
    have hends : endsHere '\r' s = true := by simp [endsHere, hnext rfl]
    rw [List.cons_append, List.nil_append, rawLines, hends]
    rfl
  | both => rfl

theorem rawLines_ended {line stop s : List Char} (hline : OneLine line) (hstop : IsEnd stop)
    (hnext : stop = ['\r'] → s.head? ≠ some '\n') : rawLines (line ++ (stop ++ s)) = (line ++ stop) :: rawLines s := by
  induction line with
  | nil => exact rawLines_end hstop hnext
  | cons c line ih =>
    rw [List.cons_append, rawLines, endsHere_of_oneLine hline, if_neg Bool.false_ne_true, ih hline.tail]
    rfl

theorem removeSuffix_append (suffix s : List Char) : removeSuffix suffix (s ++ suffix) = s := by
  rw [removeSuffix, if_pos (List.suffix_append s suffix), List.length_append, Nat.add_sub_cancel, List.take_left]

theorem removeSuffix_of_notMem {s : List Char} {c : Char} (h : c ∉ s) : removeSuffix [c] s = s := by
  rw [removeSuffix, if_neg]
  exact fun hsuffix => h (hsuffix.subset List.mem_cons_self)

theorem chomp_line {line : List Char} (h : OneLine line) : chomp line = line := by
  rw [chomp, removeSuffix_of_notMem fun hmem => (h _ hmem).1 rfl, removeSuffix_of_notMem fun hmem => (h _ hmem).2 rfl]

theorem chomp_ended {line stop : List Char} (hline : OneLine line) (hstop : IsEnd stop) : chomp (line ++ stop) = line := by
  have hcr : '\r' ∉ line := fun hmem => (hline _ hmem).2 rfl
  cases hstop with
  | newline => rw [chomp, removeSuffix_append, removeSuffix_of_notMem hcr]
  | carriageReturn =>
    have hno : '\n' ∉ line ++ ['\r'] := by
      intro hmem
      rcases List.mem_append.mp hmem with hmem | hmem
      · exact (hline _ hmem).1 rfl
      · exact absurd (List.mem_singleton.mp hmem) (by decide)
    rw [chomp, removeSuffix_of_notMem hno, removeSuffix_append]
  | both =>
    rw [chomp, show line ++ ['\r', '\n'] = (line ++ ['\r']) ++ ['\n'] by rw [List.append_assoc]; rfl, removeSuffix_append,
      removeSuffix_append]

/-- The lines that are read are those that the text consists of. -/
theorem Cut.logicalLines {s : List Char} {lines : List (List Char × List Char)} (h : Cut s lines) : logicalLines s = lines := by
  induction h with
  | nil => rfl
  | last line hline hne =>
    rw [UniversalNewlines.logicalLines, rawLines_last hline hne, List.map_singleton, chomp_line hline, List.drop_length]
  | ended line stop s rest hline hstop hnext h ih =>
    rw [UniversalNewlines.logicalLines, rawLines_ended hline hstop hnext, List.map_cons, chomp_ended hline hstop, List.drop_left]
    exact congrArg _ ih

theorem cut_logicalLines (s : List Char) : Cut s (logicalLines s) := by
  obtain ⟨lines, h⟩ := exists_cut s
  rw [h.logicalLines]
  exact h

theorem Cut.flatten {s : List Char} {lines : List (List Char × List Char)} (h : Cut s lines) :
    (lines.map (fun l => l.1 ++ l.2)).flatten = s := by
  induction h with
  | nil => rfl
  | last line hline hne => simp
  | ended line stop s rest hline hstop hnext h ih => rw [List.map_cons, List.flatten_cons, ih, List.append_assoc]

/-! ### Translated newlines -/

theorem translate_line {line : List Char} (h : OneLine line) (s : List Char) : translate (line ++ s) = line ++ translate s := by
  induction line with
  | nil => rfl
  | cons c line ih =>
    rw [List.cons_append, translate, if_neg (h c List.mem_cons_self).2, ih h.tail]
    rfl

theorem translate_end {stop s : List Char} (hstop : IsEnd stop) (hnext : stop = ['\r'] → s.head? ≠ some '\n') :
    translate (stop ++ s) = '\n' :: translate s := by
  cases hstop with
  | newline => rfl
  | carriageReturn => rw [List.cons_append, List.nil_append, translate, if_pos rfl, if_neg (hnext rfl)]
  | both => rfl

/-- With translated newlines the same lines are read. -/
theorem Cut.textLines {s : List Char} {lines : List (List Char × List Char)} (h : Cut s lines) :
    (textLines s).map chomp = lines.map Prod.fst := by
  induction h with
  | nil => rfl
  | last line hline hne =>
    have htranslate : translate line = line := by
      have h := translate_line hline []
      rwa [List.append_nil, translate, List.append_nil] at h
    rw [UniversalNewlines.textLines, htranslate, rawLines_last hline hne, List.map_singleton, chomp_line hline]
    rfl
  | ended line stop s rest hline hstop hnext h ih =>
    rw [UniversalNewlines.textLines, translate_line hline, translate_end hstop hnext, ← List.singleton_append,
      rawLines_ended hline .newline (fun h => absurd h (by decide)), List.map_cons, chomp_ended hline .newline]
    exact congrArg _ ih

end Akb.Library.UniversalNewlines
