import Mathlib.Data.List.Intervals

/-! A list cut at the separators that an automaton lets through, and how its pieces join up again. -/
namespace Akb.Library.TopLevel

variable {σ α : Type} {step : σ → α → σ} {cut : σ → α → Bool}

/-- Put in front of the first piece. -/
def onFirst (p : List α) : List (List α) → List (List α)
  | [] => [p]
  | q :: pieces => (p ++ q) :: pieces

/-- The pieces between the elements at which the automaton, having read them, cuts. -/
def pieces (step : σ → α → σ) (cut : σ → α → Bool) : σ → List α → List (List α)
  | _, [] => [[]]
  | s, c :: rest =>
    if cut (step s c) c then [] :: pieces step cut (step s c) rest else onFirst [c] (pieces step cut (step s c) rest)

/-- Reading the list leads from `s` to `t` without a cut. -/
def Leads (step : σ → α → σ) (cut : σ → α → Bool) : σ → List α → σ → Prop
  | s, [], t => s = t
  | s, c :: rest, t => cut (step s c) c = false ∧ Leads step cut (step s c) rest t

theorem onFirst_onFirst (p q : List α) {rest : List (List α)} (h : rest ≠ []) :
    onFirst p (onFirst q rest) = onFirst (p ++ q) rest := by
  cases rest with
  | nil => exact absurd rfl h
  | cons r rest => simp only [onFirst, List.append_assoc]

theorem pieces_ne_nil (step : σ → α → σ) (cut : σ → α → Bool) (s : σ) (l : List α) : pieces step cut s l ≠ [] := by
  cases l with
  | nil => exact List.cons_ne_nil _ _
  | cons c l =>
    rw [pieces]
    split
    · exact List.cons_ne_nil _ _
    · cases pieces step cut (step s c) l <;> exact List.cons_ne_nil _ _

theorem Leads.append {s t u : σ} {p q : List α} (hp : Leads step cut s p t) (hq : Leads step cut t q u) :
    Leads step cut s (p ++ q) u := by
  induction p generalizing s with
  | nil =>
    cases hp
    exact hq
  | cons c p ih => exact ⟨hp.1, ih hp.2⟩

theorem Leads.cons {s t : σ} {c : α} {p : List α} (hc : cut (step s c) c = false) (hp : Leads step cut (step s c) p t) :
    Leads step cut s (c :: p) t := ⟨hc, hp⟩

/-- Elements that leave the automaton where it is. -/
theorem leads_still {s : σ} {p : List α} (h : ∀ c ∈ p, step s c = s ∧ cut s c = false) : Leads step cut s p s := by
  induction p with
  | nil => rfl
  | cons c p ih =>
    obtain ⟨hstep, hcut⟩ := h c List.mem_cons_self
    refine .cons ?_ ?_
    · rw [hstep, hcut]
    · rw [hstep]
      exact ih fun d hd => h d (List.mem_cons_of_mem _ hd)

/-- What is read without a cut belongs to the first piece. -/
theorem pieces_leads {s t : σ} {p : List α} (h : Leads step cut s p t) (rest : List α) :
    pieces step cut s (p ++ rest) = onFirst p (pieces step cut t rest) := by
  induction p generalizing s with
  | nil =>
    cases h
    obtain ⟨q, more, hq⟩ := List.exists_cons_of_ne_nil (pieces_ne_nil step cut t rest)
    rw [List.nil_append, hq]
    rfl
  | cons c p ih =>
    rw [List.cons_append, pieces, if_neg (by simp [h.1]), ih h.2, onFirst_onFirst _ _ (pieces_ne_nil _ _ _ _)]
    rfl

/-- Pieces that lead back to where they begin come apart as they were joined. -/
theorem pieces_joined {s : σ} {sep : α} (hstep : step s sep = s) (hcut : cut s sep = true) {ps : List (List α)}
    (hne : ps ≠ []) (h : ∀ p ∈ ps, Leads step cut s p s) : pieces step cut s ([sep].intercalate ps) = ps := by
  induction ps with
  | nil => exact absurd rfl hne
  | cons p ps ih =>
    have hp := h p List.mem_cons_self
    cases ps with
    | nil =>
      rw [List.intercalate_singleton, ← List.append_nil p, pieces_leads hp]
      simp [pieces, onFirst]
    | cons q ps =>
      rw [List.intercalate_cons_cons, List.append_assoc, pieces_leads hp, List.singleton_append,
        pieces, if_pos (by rw [hstep, hcut]), hstep, ih (List.cons_ne_nil _ _) fun r hr => h r (List.mem_cons_of_mem _ hr)]
      simp [onFirst]

/-- Read from a place where the separator does not cut either, the joined list leads back as a whole. -/
theorem leads_joined {s : σ} {sep : α} (hstep : step s sep = s) (hcut : cut s sep = false) {ps : List (List α)}
    (h : ∀ p ∈ ps, Leads step cut s p s) : Leads step cut s ([sep].intercalate ps) s := by
  induction ps with
  | nil => rfl
  | cons p ps ih =>
    have hp := h p List.mem_cons_self
    cases ps with
    | nil => rwa [List.intercalate_singleton]
    | cons q ps =>
      rw [List.intercalate_cons_cons, List.append_assoc]
      refine hp.append (.cons ?_ ?_)
      · rw [hstep, hcut]
      · rw [hstep]
        exact ih fun r hr => h r (List.mem_cons_of_mem _ hr)

end Akb.Library.TopLevel
