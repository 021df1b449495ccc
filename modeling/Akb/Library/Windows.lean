import Mathlib.Data.List.Infix
import Mathlib.Data.List.Forall2

/-! Lists matched into others in their order, several elements possibly to one. -/
namespace Akb.Library.Matching
variable {α β γ : Type}

/-- Each of the first list has its match in the second, and the matches never go back. -/
inductive Within (R : α → β → Prop) : List α → List β → Prop where
  | nil (ys : List β) : Within R [] ys
  | here {x : α} {xs : List α} {y : β} {ys : List β} : R x y → Within R xs (y :: ys) → Within R (x :: xs) (y :: ys)
  | skip {xs : List α} {y : β} {ys : List β} : Within R xs ys → Within R xs (y :: ys)

variable {R : α → β → Prop} {S : β → γ → Prop} {T : α → γ → Prop} {xs xs' : List α} {ys ys' : List β} {zs : List γ}

theorem Within.skips (h : Within R xs ys) (before : List β) : Within R xs (before ++ ys) := by
  induction before with
  | nil => exact h
  | cons y before ih => exact ih.skip

theorem Within.append (h : Within R xs ys) (h' : Within R xs' ys') : Within R (xs ++ xs') (ys ++ ys') := by
  induction h with
  | nil ys => exact h'.skips ys
  | here hr _ ih => exact ih.here hr
  | skip _ ih => exact ih.skip

theorem Within.all_to_one {y : β} (h : ∀ x ∈ xs, R x y) (ys : List β) : Within R xs (y :: ys) := by
  induction xs with
  | nil => exact .nil _
  | cons x xs ih =>
    rw [List.forall_mem_cons] at h
    exact (ih h.2).here h.1

/-- What matches everything may follow as long as there is something to match. -/
theorem Within.append_free (h : Within R xs ys) (hne : ys ≠ []) (hfree : ∀ x ∈ xs', ∀ y, R x y) :
    Within R (xs ++ xs') ys := by
  induction h with
  | nil ys =>
    obtain ⟨y, ys, rfl⟩ := List.exists_cons_of_ne_nil hne
    exact .all_to_one (fun x hx => hfree x hx y) ys
  | here hr _ ih => exact (ih hne).here hr
  | @skip xs y ys h ih =>
    by_cases hys : ys = []
    · subst hys
      cases h
      exact .all_to_one (fun x hx => hfree x hx y) []
    · exact (ih hys).skip

/-- Two matchings compose. -/
theorem Within.trans (h : Within R xs ys) (h' : Within S ys zs) (hT : ∀ x y z, R x y → S y z → T x z) :
    Within T xs zs := by
  induction h' generalizing xs with
  | nil zs =>
    cases h
    exact .nil zs
  | @here y ys z zs hs _ ih =>
    induction xs with
    | nil => exact .nil _
    | cons x xs ihx =>
      cases h with
      | here hr hrest => exact (ihx hrest).here (hT x y z hr hs)
      | skip hrest => exact ih hrest
  | skip _ ih => exact (ih h).skip

theorem Within.mono {R' : α → β → Prop} (h : Within R xs ys) (hR : ∀ x ∈ xs, ∀ y, R x y → R' x y) : Within R' xs ys := by
  induction h with
  | nil ys => exact .nil ys
  | here hr _ ih =>
    rw [List.forall_mem_cons] at hR
    exact (ih hR.2).here (hR.1 _ hr)
  | skip _ ih => exact (ih hR).skip

theorem Within.map_right {f : β → γ} (h : Within R xs ys) (hf : ∀ x y, R x y → T x (f y)) : Within T xs (ys.map f) := by
  induction h with
  | nil ys => exact .nil _
  | here hr _ ih => exact ih.here (hf _ _ hr)
  | skip _ ih => exact ih.skip

theorem Within.exists_match (h : Within R xs ys) : ∀ x ∈ xs, ∃ y ∈ ys, R x y := by
  induction h with
  | nil ys => simp
  | here hr _ ih => exact List.forall_mem_cons.mpr ⟨⟨_, List.mem_cons_self, hr⟩, ih⟩
  | skip _ ih => exact fun x hx => (ih x hx).imp fun y hy => ⟨List.mem_cons_of_mem _ hy.1, hy.2⟩

/-- The matches by their places in the second list. -/
theorem Within.places (h : Within R xs ys) :
    ∃ places : List Nat, places.Pairwise (· ≤ ·) ∧
      List.Forall₂ (fun x place => ∃ y, ys[place]? = some y ∧ R x y) xs places := by
  induction h with
  | nil ys => exact ⟨[], List.Pairwise.nil, .nil⟩
  | @here x xs y ys hr _ ih =>
    obtain ⟨places, hsorted, hmatch⟩ := ih
    exact ⟨0 :: places, List.pairwise_cons.mpr ⟨fun _ _ => Nat.zero_le _, hsorted⟩, .cons ⟨y, rfl, hr⟩ hmatch⟩
  | skip _ ih =>
    obtain ⟨places, hsorted, hmatch⟩ := ih
    refine ⟨places.map (· + 1), hsorted.map _ fun a b hab => Nat.succ_le_succ hab, ?_⟩
    rw [List.forall₂_map_right_iff]
    exact hmatch

end Akb.Library.Matching

/-! A list in overlapping windows, and what stands in it in one piece. -/
namespace Akb.Library.Windows
open Matching
variable {α : Type}

/-- Windows of `limit` elements, each `step` behind the one before, up to the one that reaches the end. -/
def windows (limit step : Nat) : Nat → List α → List (List α)
  | 0, _ => []
  | fuel + 1, rest =>
    if rest = [] then []
    else rest.take limit :: if rest.length ≤ limit then [] else windows limit step fuel (rest.drop step)

/-- The lists stand in the last one, each beginning where the one before begins or later. -/
inductive Placed : List (List α) → List α → Prop where
  | nil (s : List α) : Placed [] s
  | here {l : List α} {ls : List (List α)} {s : List α} : l <+: s → Placed ls s → Placed (l :: ls) s
  | later {ls : List (List α)} {c : α} {s : List α} : Placed ls s → Placed ls (c :: s)

theorem Placed.filter {ls : List (List α)} {s : List α} (h : Placed ls s) (p : List α → Bool) : Placed (ls.filter p) s := by
  induction h with
  | nil s => exact .nil s
  | @here l ls s hl _ ih =>
    rw [List.filter_cons]
    split
    · exact ih.here hl
    · exact ih
  | later _ ih => exact ih.later

theorem Placed.within {ls : List (List α)} {s : List α} (h : Placed ls s) : Within (· <:+: ·) ls [s] := by
  induction h with
  | nil s => exact .nil _
  | here hl _ ih => exact ih.here hl.isInfix
  | @later ls c s _ ih => exact .all_to_one (fun l hl => by
      obtain ⟨y, hy, hly⟩ := ih.exists_match l hl
      rw [List.mem_singleton.mp hy] at hly
      exact hly.trans (List.suffix_cons c s).isInfix) []

theorem placed_infix_text {t s : List α} (h : t <:+: s) : Placed [t] s := by
  obtain ⟨u, v, rfl⟩ := h
  rw [List.append_assoc]
  induction u with
  | nil => exact (Placed.nil _).here (List.prefix_append t v)
  | cons c u ih => exact ih.later

/-- What does not contain an element stands on one side of it. -/
theorem infix_append_cons {c : α} {t a b : List α} (hc : c ∉ t) (h : t <:+: a ++ c :: b) : t <:+: a ∨ t <:+: b := by
  obtain ⟨u, v, huv⟩ := h
  rcases List.append_eq_append_iff.mp huv with ⟨a', ha, -⟩ | ⟨c', hut, hcb⟩
  · exact Or.inl ⟨u, a', ha.symm⟩
  rcases List.append_eq_append_iff.mp hut with ⟨a'', ha, ht⟩ | ⟨c₃, -, hc'⟩
  · cases c' with
    | nil => exact Or.inl ⟨u, [], by rw [List.append_nil, ha, ht, List.append_nil]⟩
    | cons d c' =>
      obtain ⟨rfl, -⟩ := List.cons.inj hcb
      exact absurd (ht ▸ List.mem_append_right a'' List.mem_cons_self) hc
  · rw [hc'] at hcb
    cases c₃ with
    | nil =>
      cases t with
      | nil => exact Or.inl List.nil_infix
      | cons d t =>
        obtain ⟨rfl, -⟩ := List.cons.inj hcb
        exact absurd List.mem_cons_self hc
    | cons d c₃ =>
      obtain ⟨-, hb⟩ := List.cons.inj hcb
      exact Or.inr ⟨c₃, v, hb.symm⟩

variable {limit step overlap fuel : Nat}

theorem infix_of_mem_windows {s w : List α} (h : w ∈ windows limit step fuel s) : w <:+: s := by
  induction fuel generalizing s with
  | zero => cases h
  | succ fuel ih =>
    rw [windows] at h
    split at h
    · cases h
    rcases List.mem_cons.mp h with rfl | h
    · exact (List.take_prefix limit s).isInfix
    · split at h
      · cases h
      · exact (ih h).trans (List.drop_suffix step s).isInfix

/-- Windows that do not overlap are the list cut into pieces. -/
theorem flatten_windows (hlimit : 0 < limit) (s : List α) (hfuel : s.length ≤ fuel) :
    (windows limit limit fuel s).flatten = s := by
  induction fuel generalizing s with
  | zero => rw [List.length_eq_zero_iff.mp (Nat.le_zero.mp hfuel), windows, List.flatten_nil]
  | succ fuel ih =>
    rw [windows]
    by_cases hnil : s = []
    · rw [if_pos hnil, hnil, List.flatten_nil]
    rw [if_neg hnil, List.flatten_cons]
    by_cases hlast : s.length ≤ limit
    · rw [if_pos hlast, List.take_of_length_le hlast, List.flatten_nil, List.append_nil]
    · rw [if_neg hlast, ih _ (by rw [List.length_drop]; omega), List.take_append_drop]

/-- What is no longer than the overlap of two windows stands whole in one of them, in order. -/
theorem windows_within (hstep : 0 < step) (hlimit : step + overlap ≤ limit) {ls : List (List α)} {rest : List α}
    {s : List α} (place : Nat) (h : Placed ls s) (hs : rest.drop place = s) (hfuel : rest.length ≤ fuel) (hne : rest ≠ [])
    (hplace : place < step ∨ rest.length ≤ limit) (hls : ∀ l ∈ ls, l.length ≤ overlap) :
    Within (· <:+: ·) ls (windows limit step fuel rest) := by
  induction h generalizing rest place fuel with
  | nil s => exact .nil _
  | @here l ls s hl _ ih =>
    rw [List.forall_mem_cons] at hls
    have hrest := ih place hs hfuel hne hplace hls.2
    cases fuel with
    | zero => exact absurd (List.length_eq_zero_iff.mp (Nat.le_zero.mp hfuel)) hne
    | succ fuel =>
      rw [windows, if_neg hne] at hrest ⊢
      refine hrest.here ?_
      rcases hplace with hplace | hshort
      · have hprefix : l <+: (rest.take limit).drop place := by
          rw [List.drop_take, hs]
          exact List.prefix_take_iff.mpr ⟨hl, by omega⟩
        exact hprefix.isInfix.trans (List.drop_suffix place _).isInfix
      · rw [List.take_of_length_le hshort]
        exact hl.isInfix.trans (hs ▸ (List.drop_suffix place rest).isInfix)
  | @later ls c s hplaced ih =>
    have hnext : rest.drop (place + 1) = s := by
      rw [← List.tail_drop, hs, List.tail_cons]
    by_cases hsame : place + 1 < step ∨ rest.length ≤ limit
    · exact ih _ hnext hfuel hne hsame hls
    · obtain ⟨hpast, hlong⟩ := not_or.mp hsame
      have hat : place + 1 = step := by omega
      cases fuel with
      | zero => exact absurd (List.length_eq_zero_iff.mp (Nat.le_zero.mp hfuel)) hne
      | succ fuel =>
        rw [windows, if_neg hne, if_neg hlong]
        refine Within.skip (ih 0 ?_ ?_ ?_ (Or.inl hstep) hls)
        · rw [List.drop_drop, ← hat, Nat.add_zero]
          exact hnext
        · rw [List.length_drop]
          omega
        · refine List.ne_nil_of_length_pos ?_
          rw [List.length_drop]
          omega

/-- Every element stands in a window, and the windows of a longer list are longer than the overlap. -/
theorem exists_window (hstep : 0 < step) (hlimit : step + overlap ≤ limit) (rest : List α) (hfuel : rest.length ≤ fuel)
    (hlong : overlap < rest.length) (x : Nat) (hx : x < rest.length) :
    ∃ before w after, rest = before ++ w ++ after ∧ w ∈ windows limit step fuel rest ∧ before.length ≤ x ∧
      x < before.length + w.length ∧ overlap < w.length := by
  induction fuel generalizing rest x with
  | zero => omega
  | succ fuel ih =>
    have hne : rest ≠ [] := List.ne_nil_of_length_pos (by omega)
    rw [windows, if_neg hne]
    by_cases hfirst : x < limit
    · refine ⟨[], rest.take limit, rest.drop limit, (List.take_append_drop limit rest).symm, List.mem_cons_self,
        Nat.zero_le _, ?_, ?_⟩
      · rw [List.length_nil, List.length_take]
        omega
      · rw [List.length_take]
        omega
    · have hmore : ¬ rest.length ≤ limit := by omega
      have hdrop := List.length_drop (l := rest) (i := step)
      obtain ⟨before, w, after, hrest, hw, hle, hlt, hover⟩ :=
        ih (rest.drop step) (by omega) (by omega) (x - step) (by omega)
      refine ⟨rest.take step ++ before, w, after, ?_, ?_, ?_, ?_, hover⟩
      · rw [List.append_assoc, List.append_assoc, ← List.append_assoc before, ← hrest, List.take_append_drop]
      · rw [if_neg hmore]
        exact List.mem_cons_of_mem _ hw
      · rw [List.length_append, List.length_take]
        omega
      · rw [List.length_append, List.length_take]
        omega

end Akb.Library.Windows
