import Akb.Publications.Budget
import Mathlib.Tactic.IntervalCases

/-! The attempts one hour admits. Each attempt beyond the free ones waits for the lock of the one before, and
the locks of six of them are longer than the hour. -/
namespace Akb.Publications
open Akb.Library

/-- The time the attempt after the one numbered `failures` waits at least. -/
def gap (failures : Nat) : ℚ := if freeSlug < failures then lockSpan failures freeSlug else 0

/-- The time from the first attempt to the one after the attempt numbered `n`. -/
def elapsed : Nat → ℚ
  | 0 => 0
  | n + 1 => elapsed n + gap (n + 1)

theorem backoff_mono : ∀ i j, i ≤ j → j < backoff.length → backoff.getD i 0 ≤ backoff.getD j 0 := by
  intro i j hij hj
  have hlen : backoff.length = 6 := rfl
  rw [hlen] at hj
  interval_cases j <;> interval_cases i <;> norm_num [backoff]

theorem lockSpan_mono {m n : Nat} (h : m ≤ n) : lockSpan m freeSlug ≤ lockSpan n freeSlug := by
  have hlen : backoff.length = 6 := rfl
  exact backoff_mono _ _ (by omega) (by omega)

theorem lockSpan_nonneg (n : Nat) : 0 ≤ lockSpan n freeSlug := by
  have hlen : backoff.length = 6 := rfl
  have hfirst : (0 : ℚ) ≤ backoff.getD 0 0 := by norm_num [backoff]
  exact hfirst.trans (backoff_mono _ _ (Nat.zero_le _) (by omega))

theorem gap_nonneg (n : Nat) : 0 ≤ gap n := by
  unfold gap
  split
  · exact lockSpan_nonneg n
  · exact le_refl 0

theorem gap_mono {m n : Nat} (h : m ≤ n) : gap m ≤ gap n := by
  unfold gap
  split
  · rw [if_pos (by omega)]
    exact lockSpan_mono h
  · split
    · exact lockSpan_nonneg n
    · exact le_refl 0

theorem elapsed_mono {m n : Nat} (h : m ≤ n) : elapsed m ≤ elapsed n := by
  induction n, h using Nat.le_induction with
  | base => exact le_refl _
  | succ n _ ih => exact ih.trans (by rw [elapsed]; linarith [gap_nonneg (n + 1)])

theorem elapsed_nonneg (n : Nat) : 0 ≤ elapsed n := elapsed_mono (Nat.zero_le n)

/-- The attempt after the sixth lock lies beyond the hour. -/
theorem hour_lt_elapsed : decaySecs < elapsed (freeSlug + 6) := by
  have hfree : 0 ≤ elapsed freeSlug := elapsed_nonneg freeSlug
  have hlast : elapsed (freeSlug + 6) = elapsed freeSlug + gap 31 + gap 32 + gap 33 + gap 34 + gap 35 + gap 36 := rfl
  rw [hlast]
  norm_num [gap, lockSpan, backoff, freeSlug, decaySecs] at hfree ⊢
  linarith

theorem lockedUntil_bump {total : Counter} {now : ℚ} (h : freeSlug < (bump total freeSlug now).failures) :
    (bump total freeSlug now).lockedUntil = now + gap (bump total freeSlug now).failures := by
  rw [gap, if_pos h]
  exact if_pos h

section Window
variable {κ : Type} [LinearOrder κ] {α : Type} {ipKey : α → κ}

/-- The counter of a publication after `k` attempts of an hour that begins at `start`; no call is earlier than
`clock`. -/
def InHour (start : ℚ) (k : Nat) (clock : ℚ) (total : Counter) : Prop :=
  0 < k → k ≤ total.failures ∧ start + elapsed (k - 1) ≤ total.last ∧ total.last ≤ start + decaySecs ∧
    total.last ≤ clock ∧ (freeSlug < total.failures → total.lockedUntil = total.last + gap total.failures)

theorem InHour.few {start clock : ℚ} {k : Nat} {total : Counter} (h : InHour start k clock total) : k ≤ freeSlug + 6 := by
  by_contra hk
  obtain ⟨_, hlast, hend, _, _⟩ := h (by omega)
  have hle : elapsed (freeSlug + 6) ≤ elapsed (k - 1) := elapsed_mono (by omega)
  linarith [hour_lt_elapsed]

theorem InHour.later {start clock clock' : ℚ} {k : Nat} {total : Counter} (h : InHour start k clock total)
    (hle : clock ≤ clock') : InHour start k clock' total := by
  intro hk
  obtain ⟨hfail, hlast, hend, hclock, hlock⟩ := h hk
  exact ⟨hfail, hlast, hend, hclock.trans hle, hlock⟩

/-- One more attempt of the hour. -/
theorem InHour.bump {start clock now : ℚ} {k : Nat} {total : Counter} (h : InHour start k clock total)
    (hclock : clock ≤ now) (hlock : total.lockedUntil ≤ now) (hstart : start ≤ now) (hend : now ≤ start + decaySecs) :
    InHour start (k + 1) now (bump total freeSlug now) := by
  intro _
  rcases Nat.eq_zero_or_pos k with rfl | hk
  · refine ⟨Nat.le_add_left 1 _, ?_, hend, le_refl now, fun hover => ?_⟩
    · rw [elapsed, add_zero]
      exact hstart
    · exact lockedUntil_bump hover
  · obtain ⟨hfail, hlast, _, hle, hspan⟩ := h hk
    have hbegin : start ≤ total.last := by linarith [elapsed_nonneg (k - 1)]
    have hquiet : ¬ now - total.last > decaySecs := by linarith
    -- the attempt waits for the lock of the one before
    have hwait : total.last + gap k ≤ now := by
      by_cases hover : freeSlug < total.failures
      · have hgap := gap_mono hfail
        rw [hspan hover] at hlock
        linarith
      · rw [gap, if_neg (by omega)]
        linarith
    have hstep : elapsed (k + 1 - 1) = elapsed (k - 1) + gap k := by
      obtain ⟨j, rfl⟩ := Nat.exists_eq_succ_of_ne_zero hk.ne'
      rfl
    refine ⟨?_, ?_, hend, le_refl now, fun hover => ?_⟩
    · simp only [Publications.bump, if_neg hquiet]
      omega
    · rw [hstep]
      change _ ≤ now
      linarith
    · exact lockedUntil_bump hover

end Window

section Calls
variable {κ : Type} [LinearOrder κ] {α : Type} (ipKey : α → κ)

/-- The budget of a publication; the row is made by the first attempt. -/
def budgetOf (row : Option (Budget κ)) : Budget κ := row.getD Budget.empty

theorem perform_reserve (row : Option (Budget κ)) (address : α) (now : ℚ) :
    (Refused (budgetOf row).load now (reserve (budgetOf row).load (ipKey address) now) ∨
      Admitted (budgetOf row).load (ipKey address) now (reserve (budgetOf row).load (ipKey address) now)) ∧
    perform ipKey row (.reserve address now) = ((reserve (budgetOf row).load (ipKey address) now).1,
      some (reserve (budgetOf row).load (ipKey address) now).2) :=
  ⟨reserve_cases _ _ _, rfl⟩

theorem mem_load {b : Budget κ} {e : κ × Counter} : e ∈ b.load.ips ↔ e ∈ b.ips :=
  (List.perm_insertionSort _ b.ips.rows).mem_iff

theorem entry_load (b : Budget κ) (key : κ) : b.load.entry key = b.entry key := by
  apply Option.ext
  intro e
  rw [entry_eq_some, entry_eq_some, mem_load]

theorem length_load (b : Budget κ) : b.load.ips.rows.length = b.ips.rows.length :=
  (List.perm_insertionSort _ b.ips.rows).length_eq

theorem clock_of_admitted {row : Option (Budget κ)} {calls : List (Call α)} {t : ℚ} (h : t ∈ admitted ipKey row calls) :
    t ∈ calls.map Call.clock := by
  induction calls generalizing row with
  | nil => cases h
  | cons call calls ih =>
    rw [List.map_cons, List.mem_cons]
    cases call with
    | release address now => exact Or.inr (ih h)
    | reserve address now =>
      rw [admitted] at h
      dsimp only at h
      split at h
      · rcases List.mem_cons.mp h with rfl | h
        · exact Or.inl rfl
        · exact Or.inr (ih h)
      · exact Or.inr (ih h)

/-- What is left of an hour admits the attempts that are left of it. -/
theorem admitted_in_hour {start clock : ℚ} {k : Nat} {row : Option (Budget κ)} {calls : List (Call α)}
    (hclock : (clock :: calls.map Call.clock).Pairwise (· ≤ ·)) (hkeep : ∀ c ∈ calls, c.isRelease = false)
    (h : InHour start k clock (budgetOf row).total) :
    ((admitted ipKey row calls).filter fun t => start ≤ t ∧ t ≤ start + decaySecs).length + k ≤ freeSlug + 6 := by
  induction calls generalizing row clock k with
  | nil => simpa [admitted] using h.few
  | cons call calls ih =>
    obtain ⟨hle, hrest⟩ := List.pairwise_cons.mp hclock
    have hnow : clock ≤ call.clock := hle _ List.mem_cons_self
    have hkeep' : ∀ c ∈ calls, c.isRelease = false := fun c hc => hkeep c (List.mem_cons_of_mem _ hc)
    cases call with
    | release address now => cases hkeep _ List.mem_cons_self
    | reserve address now =>
      change clock ≤ now at hnow
      obtain ⟨hcases, hperform⟩ := perform_reserve ipKey row address now
      rw [admitted, hperform]
      dsimp only
      rcases hcases with ⟨hrefused, hsame⟩ | hadm
      · rw [if_neg hrefused]
        refine ih hrest hkeep' ?_
        rw [budgetOf, Option.getD_some, hsame]
        exact h.later hnow
      · rw [if_pos hadm.zero]
        have htotal : (budgetOf (some (reserve (budgetOf row).load (ipKey address) now).2)).total =
            bump (budgetOf row).total freeSlug now := hadm.counted
        by_cases hstart : start ≤ now
        · by_cases hend : now ≤ start + decaySecs
          · rw [List.filter_cons_of_pos (by simpa using ⟨hstart, hend⟩), List.length_cons]
            have hnext : InHour start (k + 1) now
                (budgetOf (some (reserve (budgetOf row).load (ipKey address) now).2)).total := by
              rw [htotal]
              exact h.bump hnow hadm.total hstart hend
            have hcount := ih hrest hkeep' hnext
            omega
          · -- the hour is over, and so it is for the calls that follow
            rw [List.filter_cons_of_neg (by simpa using fun _ => not_le.mp hend)]
            have hnone : (admitted ipKey (some (reserve (budgetOf row).load (ipKey address) now).2) calls).filter
                (fun t => start ≤ t ∧ t ≤ start + decaySecs) = [] := by
              rw [List.filter_eq_nil_iff]
              intro t ht
              obtain ⟨c, hc, rfl⟩ := List.mem_map.mp (clock_of_admitted ipKey ht)
              have hlate : now ≤ c.clock := (List.pairwise_cons.mp hrest).1 _ (List.mem_map_of_mem hc)
              simp only [decide_eq_true_eq, not_and, not_le]
              intro _
              linarith
            rw [hnone, List.length_nil, Nat.zero_add]
            exact h.few
        · -- the hour has not begun, so nothing of it is counted yet
          rw [List.filter_cons_of_neg (by simpa using fun hs => absurd hs hstart)]
          have hk : k = 0 := by
            by_contra hne
            obtain ⟨_, hlast, _, hbefore, _⟩ := h (Nat.pos_of_ne_zero hne)
            exact hstart (by linarith [elapsed_nonneg (k - 1)])
          subst hk
          exact ih hrest hkeep' fun hk => absurd hk (lt_irrefl 0)

theorem after_append (row : Option (Budget κ)) (calls calls' : List (Call α)) :
    after ipKey row (calls ++ calls') = after ipKey (after ipKey row calls) calls' := List.foldl_append

theorem few_perform {row : Option (Budget κ)} (h : (budgetOf row).ips.rows.length ≤ maxIpEntries) (call : Call α) :
    (budgetOf (perform ipKey row call).2).ips.rows.length ≤ maxIpEntries := by
  cases call with
  | reserve address now =>
    obtain ⟨hcases, hperform⟩ := perform_reserve ipKey row address now
    have hload : (budgetOf row).load.ips.rows.length ≤ maxIpEntries := (length_load _).trans_le h
    rw [hperform]
    rcases hcases with ⟨_, hsame⟩ | hadm
    · change (reserve (budgetOf row).load (ipKey address) now).2.ips.rows.length ≤ _
      rw [hsame]
      exact (List.length_filter_le _ _).trans hload
    · exact hadm.few hload
  | release address now =>
    cases row with
    | none => exact h
    | some b => exact (List.length_filter_le _ _).trans ((length_load b).trans_le h)

theorem few_after {row : Option (Budget κ)} (h : (budgetOf row).ips.rows.length ≤ maxIpEntries) (calls : List (Call α)) :
    (budgetOf (after ipKey row calls)).ips.rows.length ≤ maxIpEntries := by
  induction calls generalizing row with
  | nil => exact h
  | cons call calls ih => exact ih (few_perform ipKey h call)

/-- Every lock in force at `now` is still there, to the same end. -/
structure LocksKept (b b' : Budget κ) (now : ℚ) : Prop where
  total : now < b.total.lockedUntil → b'.total = b.total
  entries : ∀ e ∈ b.ips, now < e.2.lockedUntil → e ∈ b'.ips

theorem locksKept_reserve (row : Option (Budget κ)) (address : α) (now : ℚ) :
    LocksKept (budgetOf row) (budgetOf (perform ipKey row (.reserve address now)).2) now := by
  obtain ⟨hcases, hperform⟩ := perform_reserve ipKey row address now
  rw [hperform]
  change LocksKept (budgetOf row) (reserve (budgetOf row).load (ipKey address) now).2 now
  rcases hcases with ⟨_, hsame⟩ | hadm
  · rw [hsame]
    exact ⟨fun _ => rfl, fun e he hlock => mem_prune (mem_load.mpr he) hlock⟩
  · exact ⟨fun hlock => absurd hadm.total (not_le.mpr hlock), fun e he hlock => hadm.kept e (mem_load.mpr he) hlock⟩

/-- On one publication an attempt is admitted under no lock; an attempt shortens no lock and puts out no entry
under a lock; a release touches the lock of the publication and the entry of its own address alone; at most 128
entries are kept; and an hour without a release admits at most 36 attempts. -/
theorem guessing_bounded (ipKey : α → κ) (calls : List (Call α)) (hclock : (calls.map Call.clock).Pairwise (· ≤ ·)) :
    (∀ before address now rest, calls = before ++ .reserve address now :: rest →
      ((perform ipKey (after ipKey none before) (.reserve address now)).1 = 0 →
        (budgetOf (after ipKey none before)).total.lockedUntil ≤ now ∧
          Unlocked ((budgetOf (after ipKey none before)).entry (ipKey address)) now) ∧
      LocksKept (budgetOf (after ipKey none before))
        (budgetOf (perform ipKey (after ipKey none before) (.reserve address now)).2) now) ∧
    (∀ before address now rest, calls = before ++ .release address now :: rest →
      ∀ e ∈ (budgetOf (after ipKey none before)).ips, e.1 ≠ ipKey address →
        e ∈ (budgetOf (perform ipKey (after ipKey none before) (.release address now)).2).ips) ∧
    (∀ before rest, calls = before ++ rest → (budgetOf (after ipKey none before)).ips.rows.length ≤ maxIpEntries) ∧
    ∀ before hour rest, calls = before ++ hour ++ rest → (∀ c ∈ hour, c.isRelease = false) → ∀ start,
      ((admitted ipKey (after ipKey none before) hour).filter fun t => start ≤ t ∧ t ≤ start + decaySecs).length ≤
        freeSlug + 6 := by
  refine ⟨fun before address now _ _ => ⟨fun hzero => ?_, locksKept_reserve ipKey _ address now⟩, ?_, ?_, ?_⟩
  · obtain ⟨hcases, hperform⟩ := perform_reserve ipKey (after ipKey none before) address now
    rw [hperform] at hzero
    rcases hcases with ⟨hrefused, _⟩ | hadm
    · exact absurd hzero hrefused
    · exact ⟨hadm.total, entry_load _ (ipKey address) ▸ hadm.entry⟩
  · intro before address now _ _ e he hne
    cases hrow : after ipKey none before with
    | none =>
      rw [hrow] at he
      cases he
    | some b =>
      rw [hrow] at he
      exact Table.mem_deleteWhere.mpr ⟨mem_load.mpr he, decide_eq_false hne⟩
  · exact fun before _ _ => few_after ipKey (Nat.zero_le _) before
  · rintro before hour rest rfl hkeep start
    have hpairs : (hour.map Call.clock).Pairwise (· ≤ ·) := by
      rw [List.map_append, List.map_append, List.append_assoc] at hclock
      exact ((List.pairwise_append.mp hclock).2.1.sublist (List.sublist_append_left _ _))
    cases hour with
    | nil => exact Nat.zero_le _
    | cons call hour =>
      have hbegun : InHour start 0 call.clock (budgetOf (after ipKey none before)).total := fun hk => absurd hk (lt_irrefl 0)
      refine admitted_in_hour ipKey (List.pairwise_cons.mpr ⟨fun t ht => ?_, hpairs⟩) hkeep hbegun
      rcases List.mem_cons.mp ht with rfl | ht
      · exact le_refl _
      · exact (List.pairwise_cons.mp hpairs).1 t ht

section Sample

/-- Two guesses from one address and a verified password. -/
def sampleCalls : List (Call Nat) := [.reserve 1 10000, .reserve 1 10000, .release 1 10001]

theorem sample_guesses_bounded :
    (budgetOf (after id none [Call.reserve 1 10000])).ips.rows.length ≤ maxIpEntries :=
  (guessing_bounded id sampleCalls (by decide)).2.2.1 [.reserve 1 10000] [.reserve 1 10000, .release 1 10001] rfl

end Sample

end Calls
end Akb.Publications
