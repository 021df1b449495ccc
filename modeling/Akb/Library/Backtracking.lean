import Mathlib.Data.List.Infix

/-! Regular expressions by backtracking: what is left behind each way to match, the preferred first. -/
namespace Akb.Library.Backtracking

abbrev Matcher := List Char → List (List Char)

def lit (text : List Char) : Matcher := fun s => if text <+: s then [s.drop text.length] else []

def seq (m n : Matcher) : Matcher := fun s => (m s).flatMap n

/-- `(?:m)?` -/
def opt (m : Matcher) : Matcher := fun s => m s ++ [s]

/-- `(?:m|n)` -/
def alt (m n : Matcher) : Matcher := fun s => m s ++ n s

/-- A character class, as often as possible first. -/
def greedy (p : Char → Bool) : Matcher
  | [] => [[]]
  | c :: s => if p c then greedy p s ++ [c :: s] else [c :: s]

/-- `.*?` with `re.DOTALL` -/
def lazyAny : Matcher := List.tails

/-- `\A...`: the text behind the first match at its beginning, if there is one. -/
def matchStart (m : Matcher) (s : List Char) : Option (List Char) := (m s).head?

/-- `key[^\n]*\n` -/
def keyLine (key : List Char) : Matcher := seq (lit key) (seq (greedy (· ≠ '\n')) (lit ['\n']))

theorem seq_assoc (m n k : Matcher) : seq (seq m n) k = seq m (seq n k) := by
  funext s
  exact List.flatMap_assoc

theorem seq_alt (m n k : Matcher) : seq (alt m n) k = alt (seq m k) (seq n k) := by
  funext s
  exact List.flatMap_append

/-! ### What is left behind -/

/-- The matcher takes off a beginning of the text. -/
def Consumes (m : Matcher) : Prop := ∀ s, ∀ rest ∈ m s, rest <:+ s

theorem consumes_lit (text : List Char) : Consumes (lit text) := by
  intro s rest h
  rw [lit] at h
  split at h
  · rw [List.mem_singleton.mp h]
    exact List.drop_suffix _ _
  · cases h

theorem Consumes.seq {m n : Matcher} (hm : Consumes m) (hn : Consumes n) : Consumes (seq m n) := by
  intro s rest h
  obtain ⟨middle, hmiddle, hrest⟩ := List.mem_flatMap.mp h
  exact (hn middle rest hrest).trans (hm s middle hmiddle)

theorem Consumes.opt {m : Matcher} (hm : Consumes m) : Consumes (opt m) := by
  intro s rest h
  rcases List.mem_append.mp h with h | h
  · exact hm s rest h
  · rw [List.mem_singleton.mp h]

theorem Consumes.alt {m n : Matcher} (hm : Consumes m) (hn : Consumes n) : Consumes (alt m n) := by
  intro s rest h
  rcases List.mem_append.mp h with h | h
  · exact hm s rest h
  · exact hn s rest h

theorem consumes_greedy (p : Char → Bool) : Consumes (greedy p) := by
  intro s
  induction s with
  | nil =>
    intro rest h
    rw [List.mem_singleton.mp h]
  | cons c s ih =>
    intro rest h
    rw [greedy] at h
    split at h
    · rcases List.mem_append.mp h with h | h
      · exact (ih rest h).trans (List.suffix_cons c s)
      · rw [List.mem_singleton.mp h]
    · rw [List.mem_singleton.mp h]

theorem consumes_keyLine (key : List Char) : Consumes (keyLine key) :=
  (consumes_lit key).seq ((consumes_greedy _).seq (consumes_lit _))

/-- A line that is matched is not empty. -/
theorem length_keyLine {key s rest : List Char} (hkey : key ≠ []) (h : rest ∈ keyLine key s) : rest.length < s.length := by
  obtain ⟨middle, hmiddle, hrest⟩ := List.mem_flatMap.mp h
  have hle := ((consumes_greedy _).seq (consumes_lit _) middle rest hrest).length_le
  rw [lit] at hmiddle
  split at hmiddle
  · rename_i hprefix
    have hlength := hprefix.length_le
    have hpos := List.length_pos_of_ne_nil hkey
    rw [List.mem_singleton.mp hmiddle, List.length_drop] at hle
    omega
  · cases hmiddle

/-! ### Lines -/

theorem greedy_line {line : List Char} (h : '\n' ∉ line) (s : List Char) :
    seq (greedy (· ≠ '\n')) (lit ['\n']) (line ++ '\n' :: s) = [s] := by
  induction line with
  | nil => simp [seq, greedy, lit]
  | cons c line ih =>
    have hc : c ≠ '\n' := fun heq => h (heq ▸ List.mem_cons_self)
    have hrest := ih fun hmem => h (List.mem_cons_of_mem c hmem)
    rw [seq] at hrest ⊢
    rw [List.cons_append, greedy, if_pos (decide_eq_true hc), List.flatMap_append, hrest, List.flatMap_cons, lit, if_neg]
    · rfl
    · exact fun hprefix => hc (List.cons_prefix_cons.mp hprefix).1.symm

theorem prefix_line {key line : List Char} (hkey : '\n' ∉ key) (s : List Char) : key <+: line ++ '\n' :: s ↔ key <+: line := by
  constructor
  · intro h
    rcases List.prefix_or_prefix_of_prefix h (List.prefix_append line ('\n' :: s)) with hin | hout
    · exact hin
    · obtain ⟨more, rfl⟩ := hout
      rw [List.prefix_append_right_inj] at h
      cases more with
      | nil =>
        rw [List.append_nil]
      | cons c more =>
        have hc := (List.cons_prefix_cons.mp h).1
        exact absurd (List.mem_append_right line (hc ▸ List.mem_cons_self)) hkey
  · exact fun h => h.trans (List.prefix_append _ _)

/-- A line matches a key that it begins with, and is left behind as a whole. -/
theorem keyLine_line {key line : List Char} (hkey : '\n' ∉ key) (hline : '\n' ∉ line) (s : List Char) :
    keyLine key (line ++ '\n' :: s) = if key <+: line then [s] else [] := by
  rw [keyLine, seq, lit]
  by_cases h : key <+: line
  · obtain ⟨value, rfl⟩ := h
    have hvalue : '\n' ∉ value := fun hmem => hline (List.mem_append_right key hmem)
    rw [if_pos ((prefix_line hkey s).mpr (List.prefix_append _ _)), if_pos (List.prefix_append _ _), List.append_assoc,
      List.drop_left, List.flatMap_singleton, greedy_line hvalue]
  · rw [if_neg (fun hprefix => h ((prefix_line hkey s).mp hprefix)), if_neg h, List.flatMap_nil]

/-- `.*?\n` with `re.DOTALL`: what stands behind each newline, in order. -/
def newlineRests : Matcher := seq lazyAny (lit ['\n'])

theorem consumes_newlineRests : Consumes newlineRests := by
  refine Consumes.seq (fun s rest h => ?_) (consumes_lit _)
  exact (List.mem_tails rest s).mp h

theorem newlineRests_line {line : List Char} (h : '\n' ∉ line) (s : List Char) :
    newlineRests (line ++ '\n' :: s) = s :: newlineRests s := by
  induction line with
  | nil => simp [newlineRests, seq, lazyAny, lit]
  | cons c line ih =>
    have hc : c ≠ '\n' := fun heq => h (heq ▸ List.mem_cons_self)
    have hrest := ih fun hmem => h (List.mem_cons_of_mem c hmem)
    rw [newlineRests, seq, lazyAny] at hrest ⊢
    rw [List.cons_append, List.tails, List.flatMap_cons, hrest, lit, if_neg, List.nil_append]
    exact fun hprefix => hc (List.cons_prefix_cons.mp hprefix).1.symm

end Akb.Library.Backtracking
