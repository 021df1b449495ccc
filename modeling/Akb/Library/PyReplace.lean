import Mathlib.Data.List.Infix
import Mathlib.Data.List.Intervals

/-! Counting and replacing the occurrences of a text, left to right and without overlap. -/
namespace Akb.Library.PyReplace
variable {α : Type*} [DecidableEq α]

/-- The text in front of the first occurrence of `old`, and the text behind it. -/
def partition (old : List α) : List α → Option (List α × List α)
  | [] => if old = [] then some ([], []) else none
  | c :: s =>
    if old <+: c :: s then some ([], (c :: s).drop old.length)
    else (partition old s).map (fun p => (c :: p.1, p.2))

theorem partition_eq {old s a b : List α} (h : partition old s = some (a, b)) : s = a ++ old ++ b := by
  induction s generalizing a with
  | nil =>
    rw [partition] at h
    split at h
    · rename_i hold
      cases h
      simp [hold]
    · cases h
  | cons c s ih =>
    rw [partition] at h
    split at h
    · rename_i hpre
      cases h
      obtain ⟨t, ht⟩ := hpre
      rw [← ht, List.drop_left, List.nil_append]
    · obtain ⟨p, hp, heq⟩ := Option.map_eq_some_iff.mp h
      cases heq
      rw [ih hp]
      rfl

theorem partition_isSome {old s : List α} : (partition old s).isSome ↔ old <:+: s := by
  induction s with
  | nil =>
    rw [partition]
    split <;> simp_all
  | cons c s ih =>
    rw [partition]
    split
    · rename_i hpre
      exact iff_of_true rfl hpre.isInfix
    · rename_i hpre
      rw [Option.isSome_map, ih, List.infix_cons_iff]
      exact ⟨Or.inr, fun h => h.resolve_left hpre⟩

/-- The text cut at each occurrence; `fuel` bounds the number of cuts. -/
def cuts (old : List α) : Nat → List α → List (List α)
  | 0, s => [s]
  | n + 1, s =>
    match partition old s with
    | none => [s]
    | some (a, b) => a :: cuts old n b

/-- `s.split(old)`: a non-empty `old` occurs at most once for each character. -/
def split (old s : List α) : List (List α) := cuts old s.length s

/-- `s.count(old)` -/
def count (old s : List α) : Nat := (split old s).length - 1

/-- `s.replace(old, new)` -/
def replaceAll (old new s : List α) : List α := new.intercalate (split old s)

/-- `s.replace(old, new, 1)` -/
def replaceOne (old new s : List α) : List α :=
  match partition old s with
  | none => s
  | some (a, b) => a ++ new ++ b

theorem cuts_ne_nil (old : List α) (n : Nat) (s : List α) : cuts old n s ≠ [] := by
  cases n with
  | zero => exact List.cons_ne_nil _ _
  | succ n =>
    rw [cuts]
    split <;> exact List.cons_ne_nil _ _

omit [DecidableEq α] in
theorem intercalate_cons (sep a : List α) {pieces : List (List α)} (h : pieces ≠ []) :
    sep.intercalate (a :: pieces) = a ++ sep ++ sep.intercalate pieces := by
  obtain ⟨b, rest, rfl⟩ := List.exists_cons_of_ne_nil h
  simp [List.intercalate, List.intersperse]

theorem intercalate_cuts (old : List α) (n : Nat) (s : List α) : old.intercalate (cuts old n s) = s := by
  induction n generalizing s with
  | zero => simp [cuts, List.intercalate]
  | succ n ih =>
    rw [cuts]
    split
    · simp [List.intercalate]
    · rename_i a b h
      rw [intercalate_cons old a (cuts_ne_nil old n b), ih, ← partition_eq h]

/-- Replacing a text by itself changes nothing. -/
theorem replaceAll_self (old s : List α) : replaceAll old old s = s := intercalate_cuts old s.length s

theorem replaceAll_eq_self_of_notMem {old s : List α} (new : List α) (h : ¬ old <:+: s) : replaceAll old new s = s := by
  have hnone : partition old s = none := by
    rw [← Option.not_isSome_iff_eq_none, partition_isSome]
    exact h
  rw [replaceAll, split]
  cases hs : s.length with
  | zero => simp [cuts, List.intercalate]
  | succ n => simp [cuts, hnone, List.intercalate]

end Akb.Library.PyReplace
