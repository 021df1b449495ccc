import Mathlib.Data.List.Count
import Mathlib.Data.List.Nodup

/-! What became of each claim on a queue's rows. A batch of claims is opened
under a number of its own; a claim is settled at most once. -/
namespace Akb.Library
variable {κ : Type*} [DecidableEq κ]

inductive Outcome where
  | unsettled
  | failed
  | terminal
  | succeeded
  | handedBack
  deriving DecidableEq

structure Claim (κ : Type*) where
  batch : Nat
  row : κ
  outcome : Outcome
  deriving DecidableEq

abbrev ClaimLedger (κ : Type*) := List (Claim κ)

namespace ClaimLedger

def enter (l : ClaimLedger κ) (batch : Nat) (rows : List κ) : ClaimLedger κ :=
  l ++ rows.map (fun row => ⟨batch, row, .unsettled⟩)

def settle (l : ClaimLedger κ) (batch : Nat) (rows : List κ) (o : Outcome) : ClaimLedger κ :=
  l.map (fun c => if c.batch = batch ∧ c.row ∈ rows ∧ c.outcome = .unsettled then { c with outcome := o } else c)

/-- How many claims of the row came to this outcome. -/
def tally (l : ClaimLedger κ) (row : κ) (o : Outcome) : Nat := l.countP (fun c => c.row = row ∧ c.outcome = o)

/-- The claims of the row that ended badly or have not ended. -/
def spent (l : ClaimLedger κ) (row : κ) : Nat := l.tally row .failed + l.tally row .terminal + l.tally row .unsettled

/-- A batch claims a row once. -/
def Keyed (l : ClaimLedger κ) : Prop := (l.map (fun c => (c.batch, c.row))).Nodup

def Claim.Spends (row : κ) (c : Claim κ) : Prop :=
  c.row = row ∧ (c.outcome = .failed ∨ c.outcome = .terminal ∨ c.outcome = .unsettled)

instance (row : κ) (c : Claim κ) : Decidable (Claim.Spends row c) :=
  inferInstanceAs (Decidable (c.row = row ∧ _))

private theorem spent_eq (l : ClaimLedger κ) (row : κ) :
    l.spent row = l.countP (fun c => decide (Claim.Spends row c)) := by
  induction l with
  | nil => rfl
  | cons c l ih =>
    simp only [spent, tally, List.countP_cons] at ih ⊢
    rw [← ih]
    by_cases hr : c.row = row
    · cases ho : c.outcome <;> simp [Claim.Spends, hr, ho] <;> omega
    · simp [Claim.Spends, hr]

theorem keyed_settle {l : ClaimLedger κ} (h : l.Keyed) (batch : Nat) (rows : List κ) (o : Outcome) :
    (l.settle batch rows o).Keyed := by
  have hmap : (l.settle batch rows o).map (fun c => (c.batch, c.row)) = l.map (fun c => (c.batch, c.row)) := by
    rw [settle, List.map_map]
    apply List.map_congr_left
    intro c _
    rw [Function.comp_apply]
    split <;> rfl
  rw [Keyed, hmap]
  exact h

omit [DecidableEq κ] in
theorem keyed_enter {l : ClaimLedger κ} (h : l.Keyed) {batch : Nat} {rows : List κ} (hrows : rows.Nodup)
    (hnew : ∀ c ∈ l, c.batch < batch) : (l.enter batch rows).Keyed := by
  rw [Keyed, enter, List.map_append, List.nodup_append]
  refine ⟨h, ?_, ?_⟩
  · rw [List.map_map]
    exact hrows.map (fun a b hab => (Prod.ext_iff.mp hab).2)
  · intro p hp q hq hpq
    obtain ⟨c, hc, rfl⟩ := List.mem_map.mp hp
    obtain ⟨d, hd, rfl⟩ := List.mem_map.mp hq
    obtain ⟨row, _, rfl⟩ := List.mem_map.mp hd
    exact Nat.ne_of_lt (hnew c hc) (Prod.ext_iff.mp hpq).1

theorem spent_enter (l : ClaimLedger κ) (batch : Nat) (rows : List κ) (row : κ) :
    (l.enter batch rows).spent row = l.spent row + rows.count row := by
  rw [spent_eq, spent_eq, enter, List.countP_append, List.countP_map, List.count_eq_countP]
  congr 1
  apply List.countP_congr
  intro r _
  simp [Claim.Spends]

/-- A failure spends the claim it settles. -/
theorem spent_settle_eq (l : ClaimLedger κ) (batch : Nat) (rows : List κ) (row : κ) {o : Outcome}
    (h : o = .failed ∨ o = .terminal ∨ row ∉ rows) : (l.settle batch rows o).spent row = l.spent row := by
  rw [spent_eq, spent_eq, settle, List.countP_map]
  apply List.countP_congr
  intro c _
  simp only [Function.comp_apply, decide_eq_true_eq]
  split
  case isFalse => exact Iff.rfl
  case isTrue hc =>
    obtain ⟨_, hrow, hopen⟩ := hc
    constructor
    · exact fun hs => ⟨hs.1, .inr (.inr hopen)⟩
    · rintro ⟨rfl, _⟩
      refine ⟨rfl, ?_⟩
      rcases h with rfl | rfl | h
      · exact .inl rfl
      · exact .inr (.inl rfl)
      · exact absurd hrow h

/-- Any settlement takes at most one claim off a row's account. -/
theorem spent_le_settle {l : ClaimLedger κ} (hk : l.Keyed) (batch : Nat) (rows : List κ) (row : κ) (o : Outcome) :
    l.spent row ≤ (l.settle batch rows o).spent row + 1 := by
  rw [spent_eq, spent_eq]
  induction l with
  | nil => exact Nat.zero_le _
  | cons c l ih =>
    rw [Keyed, List.map_cons, List.nodup_cons] at hk
    by_cases hc : c.batch = batch ∧ c.row = row
    · have hrest : (settle l batch rows o).countP (fun c => decide (Claim.Spends row c)) =
          l.countP (fun c => decide (Claim.Spends row c)) := by
        rw [settle, List.countP_map]
        apply List.countP_congr
        intro d hd
        simp only [Function.comp_apply, decide_eq_true_eq]
        split
        case isFalse => exact Iff.rfl
        case isTrue hopen =>
          have hne : d.row ≠ row := by
            rintro rfl
            refine hk.1 (List.mem_map.mpr ⟨d, hd, ?_⟩)
            rw [hopen.1, hc.1, hc.2]
          exact iff_of_false (fun hs => hne hs.1) (fun hs => hne hs.1)
      have hle : (if decide (Claim.Spends row c) then 1 else 0) ≤ 1 := by split <;> omega
      rw [settle, List.map_cons, List.countP_cons, List.countP_cons, ← settle, hrest]
      omega
    · have hsame : decide (Claim.Spends row (if c.batch = batch ∧ c.row ∈ rows ∧ c.outcome = .unsettled then
          { c with outcome := o } else c)) = decide (Claim.Spends row c) := by
        split
        case isFalse => rfl
        case isTrue hopen =>
          have hne : c.row ≠ row := fun hrow => hc ⟨hopen.1, hrow⟩
          simp [Claim.Spends, hne]
      have hrest := ih hk.2
      rw [settle, List.map_cons, List.countP_cons, List.countP_cons, ← settle, hsame]
      omega

/-- A claim that has an outcome keeps it. -/
theorem tally_le_settle (l : ClaimLedger κ) (batch : Nat) (rows : List κ) (row : κ) (o : Outcome) {p : Outcome}
    (hp : p ≠ .unsettled) : l.tally row p ≤ (l.settle batch rows o).tally row p := by
  rw [tally, tally, settle, List.countP_map]
  apply List.countP_mono_left
  intro c _ hc
  rw [decide_eq_true_eq] at hc
  have hsettled : ¬(c.batch = batch ∧ c.row ∈ rows ∧ c.outcome = .unsettled) := by
    rintro ⟨_, _, hopen⟩
    exact hp (hc.2.symm.trans hopen)
  rw [Function.comp_apply, if_neg hsettled, decide_eq_true_eq]
  exact hc

theorem tally_settle_of_ne (l : ClaimLedger κ) (batch : Nat) (rows : List κ) (row : κ) {o p : Outcome}
    (hp : p ≠ .unsettled) (ho : p ≠ o) : (l.settle batch rows o).tally row p = l.tally row p := by
  refine Nat.le_antisymm ?_ (tally_le_settle l batch rows row o hp)
  rw [tally, tally, settle, List.countP_map]
  apply List.countP_mono_left
  intro c _ hc
  rw [Function.comp_apply, decide_eq_true_eq] at hc
  split at hc
  · exact absurd hc.2.symm ho
  · rw [decide_eq_true_eq]
    exact hc

theorem tally_enter_of_ne (l : ClaimLedger κ) (batch : Nat) (rows : List κ) (row : κ) {p : Outcome}
    (hp : p ≠ .unsettled) : (l.enter batch rows).tally row p = l.tally row p := by
  have hnone : (rows.map (fun r => (⟨batch, r, .unsettled⟩ : Claim κ))).countP
      (fun c => c.row = row ∧ c.outcome = p) = 0 := by
    rw [List.countP_eq_zero]
    intro c hc
    obtain ⟨r, _, rfl⟩ := List.mem_map.mp hc
    rw [decide_eq_true_eq]
    exact fun h => hp h.2.symm
  rw [tally, tally, enter, List.countP_append, hnone, Nat.add_zero]

theorem mem_settle_of_other {l : ClaimLedger κ} {c : Claim κ} (h : c ∈ l) {batch : Nat} {rows : List κ} (o : Outcome)
    (hother : c.batch ≠ batch ∨ c.row ∉ rows) : c ∈ l.settle batch rows o := by
  refine List.mem_map.mpr ⟨c, h, if_neg ?_⟩
  rintro ⟨hb, hr, _⟩
  rcases hother with hother | hother
  · exact hother hb
  · exact hother hr

theorem tally_settle_pos {l : ClaimLedger κ} {batch : Nat} {rows : List κ} {row : κ} (o : Outcome)
    (h : ⟨batch, row, .unsettled⟩ ∈ l) (hr : row ∈ rows) : 0 < (l.settle batch rows o).tally row o := by
  rw [tally, List.countP_pos_iff]
  refine ⟨⟨batch, row, o⟩, List.mem_map.mpr ⟨_, h, if_pos ⟨rfl, hr, rfl⟩⟩, ?_⟩
  simp

end ClaimLedger
end Akb.Library
