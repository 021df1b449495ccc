import Mathlib.Data.List.Infix

/-! Reading ahead in a text: to the first occurrence of a delimiter, and through a
quoted body whose quotes are doubled. -/
namespace Akb.Library.Scan
variable {α : Type*} [DecidableEq α]

/-- What follows the first occurrence of a delimiter. -/
def after (delimiter : List α) : List α → Option (List α)
  | [] => if delimiter = [] then some [] else none
  | c :: s => if delimiter <+: c :: s then some ((c :: s).drop delimiter.length) else after delimiter s

theorem after_isSome {delimiter s : List α} : (after delimiter s).isSome ↔ delimiter <:+: s := by
  induction s with
  | nil => by_cases h : delimiter = [] <;> simp [after, h]
  | cons c s ih =>
    rw [after, List.infix_cons_iff]
    by_cases h : delimiter <+: c :: s
    · simp [h]
    · rw [if_neg h, ih]
      exact (or_iff_right h).symm

theorem length_after {delimiter s rest : List α} (h : after delimiter s = some rest) :
    delimiter.length + rest.length ≤ s.length := by
  induction s with
  | nil =>
    rw [after] at h
    split at h
    · cases h
      simp_all
    · cases h
  | cons c s ih =>
    rw [after] at h
    split at h
    · rename_i hp
      cases h
      rw [List.length_drop]
      have := hp.length_le
      omega
    · have := ih h
      simp only [List.length_cons]
      omega

/-- A longer text changes nothing before its first occurrence. -/
theorem after_append {delimiter s rest : List α} (h : after delimiter s = some rest) (t : List α) :
    after delimiter (s ++ t) = some (rest ++ t) := by
  induction s with
  | nil =>
    rw [after] at h
    split at h
    · cases h
      subst delimiter
      cases t <;> simp [after]
    · cases h
  | cons c s ih =>
    rw [after] at h
    rw [List.cons_append, after]
    by_cases hp : delimiter <+: c :: s
    · rw [if_pos hp] at h
      cases h
      rw [← List.cons_append, if_pos (hp.trans (List.prefix_append (c :: s) t)),
        List.drop_append_of_le_length hp.length_le]
    · rw [if_neg hp] at h
      have hlength := length_after h
      have hp' : ¬ delimiter <+: c :: (s ++ t) := fun h' =>
        hp (List.prefix_of_prefix_length_le h' (List.prefix_append (c :: s) t) (by simp only [List.length_cons]; omega))
      rw [if_neg hp', ih h]

/-- A body in which each quote is doubled. -/
inductive Paired (quote : α) : List α → Prop
  | nil : Paired quote []
  | char {c : α} {body : List α} (hc : c ≠ quote) (h : Paired quote body) : Paired quote (c :: body)
  | pair {body : List α} (h : Paired quote body) : Paired quote (quote :: quote :: body)

/-- What follows the closing quote. A doubled quote closes only when nothing later does. -/
def closeQuote (quote : α) : List α → Option (List α)
  | [] => none
  | [c] => if c = quote then some [] else none
  | c :: d :: s =>
    if c = quote then if d = quote then (closeQuote quote s).or (some (d :: s)) else some (d :: s)
    else closeQuote quote (d :: s)

theorem closeQuote_cons {quote c : α} {s : List α} (h : c ≠ quote) :
    closeQuote quote (c :: s) = closeQuote quote s := by
  cases s <;> simp [closeQuote, h]

theorem closeQuote_close {quote : α} {rest : List α} (h : rest.head? ≠ some quote) :
    closeQuote quote (quote :: rest) = some rest := by
  cases rest with
  | nil => simp [closeQuote]
  | cons c rest =>
    have hc : c ≠ quote := fun he => h (congrArg some he)
    simp [closeQuote, hc]

theorem closeQuote_paired {quote : α} {body rest : List α} (h : Paired quote body)
    (hrest : rest.head? ≠ some quote) : closeQuote quote (body ++ quote :: rest) = some rest := by
  induction h with
  | nil => exact closeQuote_close hrest
  | char hc _ ih => rw [List.cons_append, closeQuote_cons hc, ih]
  | pair _ ih => simp only [List.cons_append, closeQuote, if_true, ih, Option.some_or]

omit [DecidableEq α] in
theorem dropWhile_eq_self {p : α → Bool} {s : List α} (h : ∀ c, s.head? = some c → p c = false) :
    s.dropWhile p = s := by
  cases s with
  | nil => rfl
  | cons c s => rw [List.dropWhile_cons, h c rfl]; rfl

end Akb.Library.Scan
