import Mathlib.Logic.Relation

/-! Finite runs of a labelled transition system, and the invariant rule. -/
namespace Akb.Library
variable {σ α : Type*}

/-- `Run step s as t`: performing the actions `as` in order leads from `s` to `t`. -/
inductive Run (step : σ → α → σ → Prop) : σ → List α → σ → Prop where
  | nil (s : σ) : Run step s [] s
  | cons {s t u : σ} {a : α} {as : List α} : step s a t → Run step t as u → Run step s (a :: as) u

namespace Run
variable {step : σ → α → σ → Prop}

/-- What holds at the start and survives each step holds wherever a run ends. -/
theorem invariant {I : σ → Prop} (hstep : ∀ s a t, I s → step s a t → I t)
    {s t : σ} {as : List α} (hr : Run step s as t) (hs : I s) : I t := by
  induction hr with
  | nil s => exact hs
  | cons ha _ ih => exact ih (hstep _ _ _ hs ha)

theorem mono {step' : σ → α → σ → Prop} (h : ∀ s a t, step s a t → step' s a t) {s t : σ} {as : List α}
    (hr : Run step s as t) : Run step' s as t := by
  induction hr with
  | nil s => exact .nil s
  | cons ha _ ih => exact .cons (h _ _ _ ha) ih

theorem append {s t u : σ} {as bs : List α} (h : Run step s as t) (h' : Run step t bs u) :
    Run step s (as ++ bs) u := by
  induction h with
  | nil s => exact h'
  | cons ha _ ih => exact .cons ha (ih h')

/-- The invariant rule with the actions so far. -/
theorem history {I : σ → List α → Prop} (hstep : ∀ s as a t, I s as → step s a t → I t (as ++ [a])) {s t : σ}
    {as pre : List α} (hr : Run step s as t) (hs : I s pre) : I t (pre ++ as) := by
  induction hr generalizing pre with
  | nil s => rwa [List.append_nil]
  | cons ha _ ih =>
    rw [List.append_cons]
    exact ih (hstep _ _ _ _ hs ha)

theorem single {s t : σ} {a : α} (h : step s a t) : Run step s [a] t := .cons h (.nil t)

/-- The step at which a property that does not hold at the start comes to hold. -/
theorem changes {P : σ → Prop} {s t : σ} {as : List α} (hr : Run step s as t) (hs : ¬ P s) (ht : P t) :
    ∃ as₁ a as₂ u v, as = as₁ ++ a :: as₂ ∧ Run step s as₁ u ∧ step u a v ∧ Run step v as₂ t ∧ ¬ P u ∧ P v := by
  induction hr with
  | nil s => exact absurd ht hs
  | @cons s v t a as ha hrest ih =>
    by_cases hv : P v
    · exact ⟨[], a, as, s, v, rfl, .nil s, ha, hrest, hs, hv⟩
    · obtain ⟨as₁, b, as₂, u, v', rfl, hpre, hstep, hpost, hu, hv'⟩ := ih hv ht
      exact ⟨a :: as₁, b, as₂, u, v', rfl, .cons ha hpre, hstep, hpost, hu, hv'⟩

/-- Where an action of a run is performed. -/
theorem split {s t : σ} {as : List α} (hr : Run step s as t) {a : α} (ha : a ∈ as) :
    ∃ as₁ as₂ u v, Run step s as₁ u ∧ step u a v ∧ Run step v as₂ t := by
  induction hr with
  | nil s => cases ha
  | @cons s v t b as hb hrest ih =>
    rcases List.mem_cons.mp ha with rfl | ha
    · exact ⟨[], as, s, v, .nil s, hb, hrest⟩
    · obtain ⟨as₁, as₂, u, v', hpre, hstep, hpost⟩ := ih ha
      exact ⟨b :: as₁, as₂, u, v', .cons hb hpre, hstep, hpost⟩

end Run

/-- The same system with a side condition on each step. -/
def Guarded (step : σ → α → σ → Prop) (guard : σ → α → Prop) : σ → α → σ → Prop :=
  fun s a t => step s a t ∧ guard s a

/-- The run of a partial function that performs each action, if there is one. -/
def execute (next : σ → α → Option σ) (s : σ) : List α → Option σ
  | [] => some s
  | a :: as => (next s a).bind (fun t => execute next t as)

theorem run_of_execute {next : σ → α → Option σ} {s t : σ} {as : List α} (h : execute next s as = some t) :
    Run (fun s a t => next s a = some t) s as t := by
  induction as generalizing s with
  | nil =>
    cases h
    exact .nil _
  | cons a as ih =>
    obtain ⟨u, hu, hrest⟩ := Option.bind_eq_some_iff.mp h
    exact .cons hu (ih hrest)

theorem guarded_run_of_execute {next : σ → α → Option σ} {guard : σ → α → Prop} [∀ s a, Decidable (guard s a)]
    {s t : σ} {as : List α} (h : execute (fun s a => if guard s a then next s a else none) s as = some t) :
    Run (Guarded (fun s a t => next s a = some t) guard) s as t := by
  induction as generalizing s with
  | nil =>
    cases h
    exact .nil _
  | cons a as ih =>
    obtain ⟨u, hu, hrest⟩ := Option.bind_eq_some_iff.mp h
    obtain ⟨hg, hn⟩ := Option.ite_none_right_eq_some.mp hu
    exact .cons ⟨hn, hg⟩ (ih hrest)

theorem run_of_foldl (next : σ → α → σ) (s : σ) (as : List α) :
    Run (fun s a t => next s a = t) s as (as.foldl next s) := by
  induction as generalizing s with
  | nil => exact .nil s
  | cons a as ih => exact .cons rfl (ih (next s a))

/-- The guard holds of each action of a run of a total function. -/
def Meets (next : σ → α → σ) (guard : σ → α → Prop) (s : σ) : List α → Prop
  | [] => True
  | a :: as => guard s a ∧ Meets next guard (next s a) as

instance decidableMeets (next : σ → α → σ) (guard : σ → α → Prop) [∀ s a, Decidable (guard s a)] (s : σ) :
    (as : List α) → Decidable (Meets next guard s as)
  | [] => inferInstanceAs (Decidable True)
  | a :: as => @instDecidableAnd _ _ _ (decidableMeets next guard (next s a) as)

theorem Meets.run {next : σ → α → σ} {guard : σ → α → Prop} {s : σ} {as : List α} (h : Meets next guard s as) :
    Run (Guarded (fun s a t => next s a = t) guard) s as (as.foldl next s) := by
  induction as generalizing s with
  | nil => exact .nil s
  | cons a as ih => exact .cons ⟨rfl, h.1⟩ (ih h.2)

/-- A property holds all along a run exactly when each step meets the guard, if in the states that
the run can reach the guard is what the step needs to keep it. -/
theorem prefixes_iff_meets {next : σ → α → σ} {guard : σ → α → Prop} (allowed : α → Prop) (I P : σ → Prop)
    (hI : ∀ s a, allowed a → I s → I (next s a)) (hP : ∀ s a, allowed a → I s → P s → (P (next s a) ↔ guard s a))
    {s : σ} {as : List α} (hall : ∀ a ∈ as, allowed a) (hs : I s) (hp : P s) :
    (∀ pre, pre <+: as → P (pre.foldl next s)) ↔ Meets next guard s as := by
  induction as generalizing s with
  | nil => exact iff_of_true (fun pre hpre => List.prefix_nil.mp hpre ▸ hp) trivial
  | cons a as ih =>
    obtain ⟨ha, hrest⟩ := List.forall_mem_cons.mp hall
    constructor
    · intro h
      have hnext : P (next s a) := h [a] (List.prefix_append [a] as)
      refine ⟨(hP s a ha hs hp).mp hnext, (ih hrest (hI s a ha hs) hnext).mp fun pre hpre => ?_⟩
      exact h (a :: pre) (List.cons_prefix_cons.mpr ⟨rfl, hpre⟩)
    · rintro ⟨hguard, hmeets⟩ pre hpre
      cases pre with
      | nil => exact hp
      | cons b pre =>
        obtain ⟨rfl, hpre'⟩ := List.cons_prefix_cons.mp hpre
        exact (ih hrest (hI s b ha hs) ((hP s b ha hs hp).mpr hguard)).mpr hmeets pre hpre'

end Akb.Library
