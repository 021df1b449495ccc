import Akb.Library.PyText

/-! The lines of a text, as `str.splitlines` finds them. -/
namespace Akb.Library.PyLines
open PyText

/-- The characters at which `str.splitlines` ends a line. -/
def isBreak (c : Char) : Bool :=
  let n := c.toNat
  (10 ≤ n && n ≤ 13) || (28 ≤ n && n ≤ 30) || n == 0x85 || n == 0x2028 || n == 0x2029

/-- The line ends behind `c`; a carriage return and its newline are one end. -/
def endsLine (c : Char) (rest : List Char) : Bool := isBreak c && !(c = '\r' && rest.head? = some '\n')

def push (c : Char) : List (List Char) → List (List Char)
  | [] => [[c]]
  | line :: lines => (c :: line) :: lines

/-- `s.splitlines(keepends=True)`. -/
def keepLines : List Char → List (List Char)
  | [] => []
  | c :: s => if endsLine c s then [c] :: keepLines s else push c (keepLines s)

/-- A line without its end. -/
def chop (line : List Char) : List Char := (line.reverse.dropWhile isBreak).reverse

/-- `s.splitlines()`. -/
def lines (s : List Char) : List (List Char) := (keepLines s).map chop

theorem push_append {c : Char} {a : List (List Char)} (h : a ≠ []) (b : List (List Char)) :
    push c (a ++ b) = push c a ++ b := by
  cases a with
  | nil => exact absurd rfl h
  | cons line a => rfl

theorem flatten_push (c : Char) (a : List (List Char)) : (push c a).flatten = c :: a.flatten := by
  cases a <;> rfl

theorem flatten_keepLines (s : List Char) : (keepLines s).flatten = s := by
  induction s with
  | nil => rfl
  | cons c s ih =>
    rw [keepLines]
    split
    · rw [List.flatten_cons, ih]
      rfl
    · rw [flatten_push, ih]

theorem keepLines_ne_nil {s : List Char} (h : s ≠ []) : keepLines s ≠ [] := by
  intro hn
  have hflat := flatten_keepLines s
  rw [hn] at hflat
  exact h hflat.symm

theorem isSpace_of_isBreak {c : Char} (h : isBreak c = true) : isSpace c = true := by
  simp only [isBreak, Bool.or_eq_true, Bool.and_eq_true, decide_eq_true_eq, beq_iff_eq] at h
  simp only [isSpace, Bool.or_eq_true, Bool.and_eq_true, decide_eq_true_eq, beq_iff_eq]
  omega

/-- A newline ends a line whatever follows it. -/
theorem keepLines_append_newline (s t : List Char) :
    keepLines (s ++ '\n' :: t) = keepLines (s ++ ['\n']) ++ keepLines t := by
  induction s with
  | nil => rfl
  | cons c s ih =>
    have hhead : (s ++ '\n' :: t).head? = (s ++ ['\n']).head? := by cases s <;> rfl
    have hends : endsLine c (s ++ '\n' :: t) = endsLine c (s ++ ['\n']) := by rw [endsLine, endsLine, hhead]
    rw [List.cons_append, List.cons_append, keepLines, keepLines, hends, ih]
    split
    · rfl
    · exact push_append (keepLines_ne_nil (by simp)) _

/-- The text is empty or ends with a newline. -/
def Closed (s : List Char) : Prop := s = [] ∨ ∃ u, s = u ++ ['\n']

theorem keepLines_append {s : List Char} (h : Closed s) (t : List Char) :
    keepLines (s ++ t) = keepLines s ++ keepLines t := by
  rcases h with rfl | ⟨u, rfl⟩
  · rfl
  · rw [List.append_assoc, List.singleton_append, keepLines_append_newline]

theorem lines_append {s : List Char} (h : Closed s) (t : List Char) : lines (s ++ t) = lines s ++ lines t := by
  rw [lines, keepLines_append h, List.map_append]
  rfl

theorem Closed.append {s t : List Char} (hs : Closed s) (ht : Closed t) : Closed (s ++ t) := by
  rcases ht with rfl | ⟨u, rfl⟩
  · rwa [List.append_nil]
  · exact Or.inr ⟨s ++ u, (List.append_assoc s u ['\n']).symm⟩

theorem closed_newline (s : List Char) : Closed (s ++ ['\n']) := Or.inr ⟨s, rfl⟩

/-- A text without a line end before its newline is one line. -/
theorem keepLines_single {s : List Char} (h : ∀ c ∈ s, isBreak c = false) : keepLines (s ++ ['\n']) = [s ++ ['\n']] := by
  induction s with
  | nil => rfl
  | cons c s ih =>
    have hc : endsLine c (s ++ ['\n']) = false := by rw [endsLine, h c List.mem_cons_self, Bool.false_and]
    rw [List.cons_append, keepLines, hc, ih fun d hd => h d (List.mem_cons_of_mem _ hd)]
    rfl

/-- The first line takes in a beginning without line ends. -/
theorem keepLines_prefix {p : List Char} (h : ∀ c ∈ p, isBreak c = false) {s : List Char} (hs : s ≠ []) :
    ∃ line rest, keepLines s = line :: rest ∧ keepLines (p ++ s) = (p ++ line) :: rest := by
  obtain ⟨line, rest, hls⟩ := List.exists_cons_of_ne_nil (keepLines_ne_nil hs)
  refine ⟨line, rest, hls, ?_⟩
  induction p with
  | nil => exact hls
  | cons c p ih =>
    have hc : endsLine c (p ++ s) = false := by rw [endsLine, h c List.mem_cons_self, Bool.false_and]
    rw [List.cons_append, keepLines, hc, ih fun d hd => h d (List.mem_cons_of_mem _ hd)]
    rfl

theorem chop_newline {s : List Char} (h : ∀ c ∈ s, isBreak c = false) : chop (s ++ ['\n']) = s := by
  have hnewline : isBreak '\n' = true := by decide
  have hstay : s.reverse.dropWhile isBreak = s.reverse := by
    cases hr : s.reverse with
    | nil => rfl
    | cons c r =>
      have hc : isBreak c = false := h c (List.mem_reverse.mp (hr ▸ List.mem_cons_self))
      rw [List.dropWhile_cons_of_neg (by simp [hc])]
  rw [chop, List.reverse_append, List.reverse_singleton, List.singleton_append,
    List.dropWhile_cons_of_pos hnewline, hstay, List.reverse_reverse]

theorem lines_single {s : List Char} (h : ∀ c ∈ s, isBreak c = false) : lines (s ++ ['\n']) = [s] := by
  rw [lines, keepLines_single h, List.map_singleton, chop_newline h]

/-- The first line end of a text, other than a carriage return, ends its first line. -/
theorem keepLines_break {a b : List Char} {c : Char} (ha : ∀ d ∈ a, isBreak d = false) (hc : isBreak c) (hcr : c ≠ '\r') :
    keepLines (a ++ c :: b) = (a ++ [c]) :: keepLines b := by
  induction a with
  | nil =>
    have hends : endsLine c b = true := by simp [endsLine, hc, hcr]
    rw [List.nil_append, keepLines, if_pos hends]
    rfl
  | cons d a ih =>
    have hd : endsLine d (a ++ c :: b) = false := by rw [endsLine, ha d List.mem_cons_self, Bool.false_and]
    rw [List.cons_append, keepLines, hd, ih fun e he => ha e (List.mem_cons_of_mem _ he)]
    rfl

theorem mem_chop {line : List Char} {c : Char} (hc : c ∈ line) (hbreak : isBreak c = false) : c ∈ chop line := by
  have hsplit := List.takeWhile_append_dropWhile (p := isBreak) (l := line.reverse)
  rw [chop, List.mem_reverse]
  rcases List.mem_append.mp (hsplit ▸ List.mem_reverse.mpr hc) with htaken | hkept
  · exact absurd (List.all_eq_true.mp List.all_takeWhile c htaken) (by simp [hbreak])
  · exact hkept

theorem mem_strip {s : List Char} {c : Char} (hc : c ∈ s) (hspace : isSpace c = false) : c ∈ strip s := by
  obtain ⟨lead, trail, hs, hlead, htrail⟩ := strip_spec s
  rw [hs] at hc
  rcases List.mem_append.mp hc with hc | hc
  · rcases List.mem_append.mp hc with hc | hc
    · exact absurd (hlead c hc) (by simp [hspace])
    · exact hc
  · exact absurd (htrail c hc) (by simp [hspace])

/-- Wherever the lines end, what is not blank stands in one of them. -/
theorem exists_line {s : List Char} {c : Char} (hc : c ∈ s) (hspace : isSpace c = false) :
    ∃ line ∈ lines s, c ∈ strip line := by
  rw [← flatten_keepLines s] at hc
  obtain ⟨line, hline, hc⟩ := List.mem_flatten.mp hc
  have hbreak : isBreak c = false := by
    rw [Bool.eq_false_iff]
    intro h
    rw [isSpace_of_isBreak h] at hspace
    cases hspace
  exact ⟨chop line, List.mem_map_of_mem hline, mem_strip (mem_chop hc hbreak) hspace⟩

end Akb.Library.PyLines
