import Mathlib.Data.List.Sort
import Mathlib.Data.List.Nodup
import Mathlib.Order.WithBot

/-! A bounded read of the rows above a position, in key order, as a keyset-paged
query returns them. -/
namespace Akb.Library
variable {ρ κ : Type*} [LinearOrder κ]

def nextBatch (key : ρ → κ) (rows : List ρ) (position : κ) (limit : Nat) : List ρ :=
  ((rows.filter (fun r => position < key r)).insertionSort (fun a b => key a ≤ key b)).take limit

section
variable {key : ρ → κ} {rows : List ρ} {position : κ} {limit : Nat}

private theorem mem_ordered {r : ρ} :
    r ∈ (rows.filter (fun r => position < key r)).insertionSort (fun a b => key a ≤ key b) ↔
      r ∈ rows ∧ position < key r := by
  rw [(List.perm_insertionSort _ _).mem_iff, List.mem_filter, decide_eq_true_iff]

private theorem ordered_strict (position : κ) (hn : (rows.map key).Nodup) :
    ((rows.filter (fun r => position < key r)).insertionSort (fun a b => key a ≤ key b)).Pairwise
      (fun a b => key a < key b) := by
  have : Std.Total (fun a b : ρ => key a ≤ key b) := ⟨fun a b => le_total (key a) (key b)⟩
  have : IsTrans ρ (fun a b => key a ≤ key b) := ⟨fun _ _ _ => le_trans⟩
  have hle := List.pairwise_insertionSort (fun a b : ρ => key a ≤ key b) (rows.filter (fun r => position < key r))
  have hne : ((rows.filter (fun r => position < key r)).insertionSort (fun a b => key a ≤ key b)).Pairwise
      (fun a b => key a ≠ key b) := by
    have hp := (List.perm_insertionSort (fun a b : ρ => key a ≤ key b)
      (rows.filter (fun r => position < key r))).map key
    rw [← List.pairwise_map, ← List.nodup_iff_pairwise_ne, hp.nodup_iff]
    exact hn.sublist (List.filter_sublist.map key)
  exact hle.imp₂ (fun _ _ h h' => lt_of_le_of_ne h h') hne

theorem mem_nextBatch {r : ρ} (h : r ∈ nextBatch key rows position limit) : r ∈ rows ∧ position < key r :=
  mem_ordered.mp (List.mem_of_mem_take h)

theorem nextBatch_strict (hn : (rows.map key).Nodup) :
    (nextBatch key rows position limit).Pairwise (fun a b => key a < key b) :=
  (ordered_strict position hn).sublist (List.take_sublist _ _)

/-- A row that the batch leaves out lies above every row in it. -/
theorem nextBatch_lt_of_not_mem (hn : (rows.map key).Nodup) {b r : ρ}
    (hb : b ∈ nextBatch key rows position limit) (hr : r ∈ rows) (hp : position < key r)
    (hout : r ∉ nextBatch key rows position limit) : key b < key r := by
  have hs := ordered_strict position hn
  rw [← List.take_append_drop limit (List.insertionSort _ _), List.pairwise_append] at hs
  have hm := mem_ordered.mpr ⟨hr, hp⟩
  rw [← List.take_append_drop limit (List.insertionSort _ _), List.mem_append] at hm
  exact hs.2.2 b hb r (hm.resolve_left hout)

/-- A batch passes a value exactly when some row lies above it and the rows up
to the value leave room in the batch. -/
theorem nextBatch_passes_iff (hn : (rows.map key).Nodup) (x : κ) :
    (∃ b ∈ nextBatch key rows position limit, x < key b) ↔
      (∃ r ∈ rows, position < key r ∧ x < key r) ∧
        (rows.filter (fun r => position < key r ∧ key r ≤ x)).length < limit := by
  set ordered := (rows.filter (fun r => position < key r)).insertionSort (fun a b => key a ≤ key b) with hord
  have hs : ordered.Pairwise (fun a b => key a < key b) := ordered_strict position hn
  have hcount : (rows.filter (fun r => position < key r ∧ key r ≤ x)).length =
      (ordered.filter (fun r => key r ≤ x)).length := by
    have hp := (List.perm_insertionSort (fun a b : ρ => key a ≤ key b)
      (rows.filter (fun r => position < key r))).filter (fun r => decide (key r ≤ x))
    rw [hord, hp.length_eq, List.filter_filter]
    congr 2
    ext r
    simp [and_comm]
  rw [hcount]
  have hsplit := List.take_append_drop limit ordered
  rw [← hsplit, List.pairwise_append] at hs
  have hfilter : (ordered.filter (fun r => key r ≤ x)).length =
      ((ordered.take limit).filter (fun r => key r ≤ x)).length +
        ((ordered.drop limit).filter (fun r => key r ≤ x)).length := by
    rw [← List.length_append, ← List.filter_append, hsplit]
  constructor
  · rintro ⟨b, hb, hx⟩
    have hmem := mem_nextBatch hb
    refine ⟨⟨b, hmem.1, hmem.2, hx⟩, ?_⟩
    have hdrop : (ordered.drop limit).filter (fun r => key r ≤ x) = [] := by
      rw [List.filter_eq_nil_iff]
      intro r hr
      simpa using hx.trans (hs.2.2 b hb r hr)
    have htake : ((ordered.take limit).filter (fun r => key r ≤ x)).length < (ordered.take limit).length := by
      rw [List.length_filter_lt_length_iff_exists]
      exact ⟨b, hb, by simpa using hx⟩
    rw [hfilter, hdrop, List.length_nil, Nat.add_zero]
    exact htake.trans_le (List.length_take_le _ _)
  · rintro ⟨⟨r, hr, hp, hx⟩, hlt⟩
    have hm : r ∈ ordered := mem_ordered.mpr ⟨hr, hp⟩
    rw [← hsplit, List.mem_append] at hm
    rcases hm with hm | hm
    · exact ⟨r, hm, hx⟩
    · -- The batch is full here, so it cannot consist of rows up to `x` only.
      have hfull : (ordered.take limit).length = limit := by
        have hpos : 0 < (ordered.drop limit).length := List.length_pos_of_mem hm
        rw [List.length_drop] at hpos
        exact List.length_take_of_le (by omega)
      have hshort : ((ordered.take limit).filter (fun r => key r ≤ x)).length < (ordered.take limit).length := by
        omega
      obtain ⟨b, hb, hbx⟩ := List.length_filter_lt_length_iff_exists.mp hshort
      exact ⟨b, hb, by simpa using hbx⟩

end

end Akb.Library

/-! Rows read page by page. A page is the longest start of the rows left that stays within a
number of rows and a total weight, and a cursor names the last row of the page before. -/
namespace Akb.Library
variable {ρ κ γ : Type*}

section
variable [LinearOrder κ] {key : ρ → κ} {rows : List ρ}

/-- All rows in key order. -/
def ordered (key : ρ → κ) (rows : List ρ) : List ρ := rows.insertionSort (fun a b => key a ≤ key b)

/-- The rows behind a position; without one, all of them. -/
def batchBehind (key : ρ → κ) (rows : List ρ) (position : Option κ) (limit : Nat) : List ρ :=
  nextBatch (fun r => (key r : WithBot κ)) rows position limit

theorem mem_ordered_iff {r : ρ} : r ∈ ordered key rows ↔ r ∈ rows := (List.perm_insertionSort _ _).mem_iff

theorem batchBehind_none (limit : Nat) : batchBehind key rows none limit = (ordered key rows).take limit := by
  have hall : rows.filter (fun r => (⊥ : WithBot κ) < key r) = rows :=
    List.filter_eq_self.mpr fun r _ => decide_eq_true (WithBot.bot_lt_coe (key r))
  have hsort := List.map_insertionSort (fun a b => (key a : WithBot κ) ≤ key b) (fun a b => key a ≤ key b) id rows
    fun a _ b _ => WithBot.coe_le_coe
  rw [List.map_id, List.map_id] at hsort
  exact congrArg (List.take limit) ((congrArg _ hall).trans hsort)

omit [LinearOrder κ] in
private theorem coe_nodup (hn : (rows.map key).Nodup) : (rows.map fun r => (key r : WithBot κ)).Nodup := by
  rw [← Function.comp_def, ← List.map_map]
  exact hn.map WithBot.coe_injective

theorem pairwise_ordered (hn : (rows.map key).Nodup) : (ordered key rows).Pairwise (fun a b => key a < key b) := by
  have hstrict := @nextBatch_strict _ _ _ _ _ (⊥ : WithBot κ) (ordered key rows).length (coe_nodup hn)
  have hall : nextBatch (fun r => (key r : WithBot κ)) rows ⊥ _ = _ := batchBehind_none (ordered key rows).length
  rw [hall, List.take_length] at hstrict
  exact hstrict.imp fun h => WithBot.coe_lt_coe.mp h

theorem batchBehind_some (hn : (rows.map key).Nodup) {seen rest : List ρ} {r : ρ}
    (h : ordered key rows = seen ++ r :: rest) (limit : Nat) :
    batchBehind key rows (some (key r)) limit = rest.take limit := by
  have hs := pairwise_ordered hn
  rw [h, List.pairwise_append, List.pairwise_cons] at hs
  obtain ⟨-, ⟨hrest, hstrict⟩, hseen⟩ := hs
  have hfilter : (ordered key rows).filter (fun s => (key r : WithBot κ) < key s) = rest := by
    rw [h, List.filter_append, List.filter_cons_of_neg (by simp), List.filter_eq_nil_iff.mpr, List.nil_append,
      List.filter_eq_self]
    · exact fun s hs => decide_eq_true (WithBot.coe_lt_coe.mpr (hrest s hs))
    · intro s hs
      simpa using (hseen s hs r List.mem_cons_self).le
  have hperm := ((List.perm_insertionSort (fun a b => key a ≤ key b) rows).symm.filter
    (fun s => (key r : WithBot κ) < key s)).trans (.of_eq hfilter)
  set batch := (rows.filter (fun s => (key r : WithBot κ) < key s)).insertionSort
    (fun a b => (key a : WithBot κ) ≤ key b) with hbatch
  have hsorted := @nextBatch_strict _ _ _ _ _ (key r : WithBot κ) batch.length (coe_nodup hn)
  rw [nextBatch, ← hbatch, List.take_length] at hsorted
  have heq : batch = rest := List.Perm.eq_of_pairwise (fun a b _ _ hab hba => absurd hab hba.asymm)
    (hsorted.imp fun h => WithBot.coe_lt_coe.mp h) hstrict ((List.perm_insertionSort _ _).trans hperm)
  exact congrArg (List.take limit) heq
end

/-- The longest start whose weights fit. -/
def takeWithin (weight : ρ → Nat) : Nat → List ρ → List ρ
  | _, [] => []
  | room, r :: rows => if weight r ≤ room then r :: takeWithin weight (room - weight r) rows else []

theorem takeWithin_initial (weight : ρ → Nat) (room : Nat) (rows : List ρ) : takeWithin weight room rows <+: rows := by
  induction rows generalizing room with
  | nil => exact List.prefix_refl []
  | cons r rows ih =>
    rw [takeWithin]
    split
    · exact List.prefix_cons_inj r |>.mpr (ih _)
    · exact List.nil_prefix

structure Paging (ρ : Type*) where
  limit : Nat
  budget : Nat
  weight : ρ → Nat

namespace Paging

def page (p : Paging ρ) (rows : List ρ) : List ρ := takeWithin p.weight p.budget (rows.take p.limit)

/-- All pages; the fuel is a bound on their number. -/
def pagesWith (p : Paging ρ) : Nat → List ρ → List (List ρ)
  | 0, _ => []
  | fuel + 1, rows =>
    if (p.page rows).length = rows.length then [p.page rows]
    else p.page rows :: p.pagesWith fuel (rows.drop (p.page rows).length)

def pages (p : Paging ρ) (rows : List ρ) : List (List ρ) := p.pagesWith (rows.length + 1) rows

/-- No row is too heavy for a page of its own. -/
structure Admits (p : Paging ρ) (rows : List ρ) : Prop where
  limit : 0 < p.limit
  weight : ∀ r ∈ rows, p.weight r ≤ p.budget

/-- What a request gets that has these rows left: a page, and the cursor behind it if there is more. -/
def served (p : Paging ρ) (cursorOf : ρ → γ) (rows : List ρ) : List ρ × Option γ :=
  (p.page rows, if (p.page rows).length = rows.length then none else (p.page rows).getLast?.map cursorOf)

variable {p : Paging ρ} {rows : List ρ}

theorem Admits.drop (h : p.Admits rows) (n : Nat) : p.Admits (rows.drop n) :=
  ⟨h.limit, fun r hr => h.weight r (List.mem_of_mem_drop hr)⟩

theorem Admits.page_ne_nil (h : p.Admits rows) (hne : rows ≠ []) : p.page rows ≠ [] := by
  cases rows with
  | nil => exact absurd rfl hne
  | cons r rows =>
    obtain ⟨n, hn⟩ := Nat.exists_eq_succ_of_ne_zero h.limit.ne'
    rw [page, hn, List.take_succ_cons, takeWithin, if_pos (h.weight r List.mem_cons_self)]
    exact List.cons_ne_nil _ _

theorem ne_nil_of_more (hmore : (p.page rows).length ≠ rows.length) : rows ≠ [] := by
  rintro rfl
  exact hmore (by simp [page, takeWithin])

theorem Admits.length_drop_lt (h : p.Admits rows) (hmore : (p.page rows).length ≠ rows.length) :
    (rows.drop (p.page rows).length).length < rows.length := by
  have hne := ne_nil_of_more hmore
  have hpage := List.length_pos_iff.mpr (h.page_ne_nil hne)
  have hrows := List.length_pos_iff.mpr hne
  rw [List.length_drop]
  omega

/-- Induction on the pages. -/
@[elab_as_elim]
theorem Admits.induction {motive : ∀ rows, p.Admits rows → Prop}
    (last : ∀ rows (h : p.Admits rows), (p.page rows).length = rows.length → motive rows h)
    (more : ∀ rows (h : p.Admits rows), (p.page rows).length ≠ rows.length →
      motive (rows.drop (p.page rows).length) (h.drop _) → motive rows h)
    {rows : List ρ} (h : p.Admits rows) : motive rows h := by
  induction hn : rows.length using Nat.strong_induction_on generalizing rows with
  | _ n ih =>
    by_cases hlast : (p.page rows).length = rows.length
    · exact last rows h hlast
    · exact more rows h hlast (ih _ (hn ▸ h.length_drop_lt hlast) (h.drop _) rfl)

end Paging

/-- A server that goes on behind the row a cursor names, when it takes the cursor at all. -/
structure Serves (fetch : Option γ → Option (List ρ × Option γ)) (p : Paging ρ) (cursorOf : ρ → γ) (ok : ρ → Prop)
    (rows : List ρ) : Prop where
  first : fetch none = some (p.served cursorOf rows)
  next : ∀ seen r rest, rows = seen ++ r :: rest → ok r → fetch (some (cursorOf r)) = some (p.served cursorOf rest)
  refused : ∀ r ∈ rows, ¬ ok r → fetch (some (cursorOf r)) = none

namespace Serves
variable {fetch : Option γ → Option (List ρ × Option γ)} {p : Paging ρ} {cursorOf : ρ → γ} {ok : ρ → Prop}
  {rows : List ρ}

end Serves
end Akb.Library
