import Mathlib.Data.Finset.Card

/-! How many members of a population are in some condition, and how the number
moves when one member changes. -/
namespace Akb.Library
variable {τ : Type*}

/-- Exactly `n` members satisfy `f`. -/
def Tally (f : τ → Bool) (n : Nat) : Prop := ∃ s : Finset τ, (∀ t, t ∈ s ↔ f t = true) ∧ s.card = n

namespace Tally
variable {f g : τ → Bool} {n m : Nat}

theorem none (h : ∀ t, f t = false) : Tally f 0 := ⟨∅, by simp [h], rfl⟩

theorem eq_zero (h : Tally f n) (hnone : ∀ t, f t = false) : n = 0 := by
  obtain ⟨s, hs, rfl⟩ := h
  refine Finset.card_eq_zero.mpr (Finset.eq_empty_of_forall_notMem fun t ht => ?_)
  rw [hs, hnone] at ht
  cases ht

theorem unique (h : Tally f n) (h' : Tally g m) (hfg : ∀ t, f t = g t) : n = m := by
  obtain ⟨s, hs, rfl⟩ := h
  obtain ⟨s', hs', rfl⟩ := h'
  congr 1
  ext t
  rw [hs, hs', hfg]

theorem pos (h : Tally f n) {t : τ} (ht : f t = true) : 0 < n := by
  obtain ⟨s, hs, rfl⟩ := h
  exact Finset.card_pos.mpr ⟨t, (hs t).mpr ht⟩

/-- One member changes from `f t` to `g t`. -/
theorem move [DecidableEq τ] (h : Tally f n) (t : τ) (hrest : ∀ u, u ≠ t → g u = f u)
    (hcount : m + (f t).toNat = n + (g t).toNat) : Tally g m := by
  obtain ⟨s, hs, rfl⟩ := h
  cases hf : f t with
  | false =>
    have ht : t ∉ s := by rw [hs, hf]; exact Bool.false_ne_true
    cases hg : g t with
    | false =>
      refine ⟨s, fun u => ?_, by simpa [hf, hg] using hcount.symm⟩
      by_cases hu : u = t
      · rw [hu, hs, hf, hg]
      · rw [hs, hrest u hu]
    | true =>
      refine ⟨insert t s, fun u => ?_, ?_⟩
      · by_cases hu : u = t
        · simp [hu, hg]
        · rw [Finset.mem_insert, hrest u hu, hs]
          simp [hu]
      · rw [Finset.card_insert_of_notMem ht]
        simpa [hf, hg] using hcount.symm
  | true =>
    have ht : t ∈ s := (hs t).mpr hf
    cases hg : g t with
    | false =>
      refine ⟨s.erase t, fun u => ?_, ?_⟩
      · by_cases hu : u = t
        · simp [hu, hg]
        · rw [Finset.mem_erase, hrest u hu, hs]
          simp [hu]
      · rw [Finset.card_erase_of_mem ht]
        simp only [hf, hg, Bool.toNat_true, Bool.toNat_false] at hcount
        omega
    | true =>
      refine ⟨s, fun u => ?_, by simpa [hf, hg] using hcount.symm⟩
      by_cases hu : u = t
      · rw [hu, hs, hf, hg]
      · rw [hs, hrest u hu]

end Tally
end Akb.Library
