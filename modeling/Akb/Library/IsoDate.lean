import Akb.Library.PyLines

/-! The dates of `date.fromisoformat`. -/
namespace Akb.Library.IsoDate
open PyText PyLines

def isDigit (c : Char) : Bool := '0' ≤ c && c ≤ '9'

/-- Read `n` digits. -/
def number : Nat → List Char → Nat → Option (Nat × List Char)
  | 0, s, value => some (value, s)
  | _ + 1, [], _ => none
  | n + 1, c :: s, value => if isDigit c then number n s (10 * value + (c.toNat - '0'.toNat)) else none

def leap (year : Nat) : Bool := year % 4 = 0 && (year % 100 ≠ 0 || year % 400 = 0)

def monthDays (year month : Nat) : Nat :=
  if month = 2 then (if leap year then 29 else 28)
  else if month = 4 || month = 6 || month = 9 || month = 11 then 30
  else 31

def isDay (year month day : Nat) : Bool :=
  1 ≤ year && 1 ≤ month && month ≤ 12 && 1 ≤ day && day ≤ monthDays year month

/-- The weekday of the first of January, Monday being 0. -/
def firstWeekday (year : Nat) : Nat :=
  let before := year - 1
  (before * 365 + before / 4 - before / 100 + before / 400) % 7

def weeks (year : Nat) : Nat :=
  if firstWeekday year = 3 || (firstWeekday year = 2 && leap year) then 53 else 52

/-- The last week of the year 9999 runs beyond the last date. -/
def isWeekDay (year week day : Nat) : Bool :=
  1 ≤ year && 1 ≤ week && week ≤ weeks year && 1 ≤ day && day ≤ 7 && !(year = 9999 && week = 52 && 5 < day)

/-- Read the separator, where the date has separators. -/
def separator (separated : Bool) (s : List Char) : Option (List Char) :=
  if separated then (if s.head? = some '-' then some s.tail else none) else some s

/-- `date.fromisoformat` accepts the text: `YYYY-MM-DD`, `YYYY-Www-D` and `YYYY-Www`, with or without dashes. -/
def accepts (s : List Char) : Bool :=
  ((number 4 s 0).bind fun (year, rest) =>
    let separated := rest.head? = some '-'
    (separator separated rest).bind fun rest =>
      if rest.head? = some 'W' then
        (number 2 rest.tail 0).bind fun (week, rest) =>
          if rest = [] then some (isWeekDay year week 1)
          else (separator separated rest).bind fun rest =>
            (number 1 rest 0).bind fun (day, rest) => some (rest = [] && isWeekDay year week day)
      else
        (number 2 rest 0).bind fun (month, rest) =>
          (separator separated rest).bind fun rest =>
            (number 2 rest 0).bind fun (day, rest) => some (rest = [] && isDay year month day)).getD false

/-- The characters of a date. -/
def dateChar (c : Char) : Bool := isDigit c || c = '-' || c = 'W'

theorem number_some {n value result : Nat} {s rest : List Char} (h : number n s value = some (result, rest)) :
    ∃ u, s = u ++ rest ∧ u.all dateChar = true := by
  induction n generalizing s value with
  | zero =>
    cases h
    exact ⟨[], rfl, rfl⟩
  | succ n ih =>
    cases s with
    | nil => cases h
    | cons c s =>
      rw [number] at h
      split at h
      · rename_i hc
        obtain ⟨u, rfl, hu⟩ := ih h
        exact ⟨c :: u, rfl, by rw [List.all_cons, hu, dateChar, hc]; rfl⟩
      · cases h

theorem separator_some {separated : Bool} {s rest : List Char} (h : separator separated s = some rest) :
    ∃ u, s = u ++ rest ∧ u.all dateChar = true := by
  unfold separator at h
  split at h
  · split at h
    · rename_i hhead
      cases h
      cases s with
      | nil => cases hhead
      | cons c s =>
        cases hhead
        exact ⟨['-'], rfl, by decide⟩
    · cases h
  · cases h
    exact ⟨[], rfl, rfl⟩

theorem all_dateChar {s u rest : List Char} (hs : s = u ++ rest) (hu : u.all dateChar = true)
    (hrest : rest.all dateChar = true) : s.all dateChar = true := by
  rw [hs, List.all_append, hu, hrest]
  rfl

theorem chars_of_accepts {s : List Char} (h : accepts s = true) : s.all dateChar = true := by
  rw [accepts, Option.getD_eq_iff] at h
  rcases h with h | ⟨_, h⟩
  · obtain ⟨⟨year, r₁⟩, h₁, h⟩ := Option.bind_eq_some_iff.mp h
    obtain ⟨r₂, h₂, h⟩ := Option.bind_eq_some_iff.mp h
    obtain ⟨u₁, hs, hu₁⟩ := number_some h₁
    obtain ⟨u₂, hr₁, hu₂⟩ := separator_some h₂
    refine all_dateChar hs hu₁ (all_dateChar hr₁ hu₂ ?_)
    dsimp only at h
    split at h
    · rename_i hweek
      obtain ⟨⟨week, r₃⟩, h₃, h⟩ := Option.bind_eq_some_iff.mp h
      obtain ⟨u₃, hr₂, hu₃⟩ := number_some h₃
      have hw : r₂ = 'W' :: r₂.tail := by
        cases r₂ with
        | nil => cases hweek
        | cons c r₂ =>
          cases hweek
          rfl
      refine all_dateChar (u := ['W']) hw (by decide) (all_dateChar hr₂ hu₃ ?_)
      dsimp only at h
      split at h
      · rename_i hnil
        rw [hnil]
        rfl
      · obtain ⟨r₄, h₄, h⟩ := Option.bind_eq_some_iff.mp h
        obtain ⟨⟨day, r₅⟩, h₅, h⟩ := Option.bind_eq_some_iff.mp h
        obtain ⟨u₄, hr₃, hu₄⟩ := separator_some h₄
        obtain ⟨u₅, hr₄, hu₅⟩ := number_some h₅
        have hend : r₅ = [] := by simpa using (Bool.and_eq_true_iff.mp (Option.some.inj h)).1
        exact all_dateChar hr₃ hu₄ (all_dateChar hr₄ hu₅ (by rw [hend]; rfl))
    · obtain ⟨⟨month, r₃⟩, h₃, h⟩ := Option.bind_eq_some_iff.mp h
      obtain ⟨r₄, h₄, h⟩ := Option.bind_eq_some_iff.mp h
      obtain ⟨⟨day, r₅⟩, h₅, h⟩ := Option.bind_eq_some_iff.mp h
      obtain ⟨u₃, hr₂, hu₃⟩ := number_some h₃
      obtain ⟨u₄, hr₃, hu₄⟩ := separator_some h₄
      obtain ⟨u₅, hr₄, hu₅⟩ := number_some h₅
      have hend : r₅ = [] := by simpa using (Bool.and_eq_true_iff.mp (Option.some.inj h)).1
      exact all_dateChar hr₂ hu₃ (all_dateChar hr₃ hu₄ (all_dateChar hr₄ hu₅ (by rw [hend]; rfl)))
  · cases h

theorem not_isSpace_of_dateChar {c : Char} (h : dateChar c = true) : isSpace c = false := by
  have hrange : c = '-' ∨ c = 'W' ∨ (48 ≤ c.toNat ∧ c.toNat ≤ 57) := by
    simp only [dateChar, isDigit, Bool.or_eq_true, Bool.and_eq_true, decide_eq_true_eq] at h
    rcases h with (h | h) | h
    · exact Or.inr (Or.inr h)
    · exact Or.inl h
    · exact Or.inr (Or.inl h)
  rcases hrange with rfl | rfl | ⟨hlo, hhi⟩
  · decide
  · decide
  · simp only [isSpace, Bool.or_eq_false_iff, Bool.and_eq_false_iff, decide_eq_false_iff_not, beq_eq_false_iff_ne]
    omega

/-- A date is one line without blanks. -/
theorem not_isSpace_of_accepts {s : List Char} (h : accepts s = true) {c : Char} (hc : c ∈ s) : isSpace c = false :=
  not_isSpace_of_dateChar (List.all_eq_true.mp (chars_of_accepts h) c hc)

end Akb.Library.IsoDate
