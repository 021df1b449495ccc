import Mathlib.Data.List.Nodup
import Mathlib.Data.List.Basic
import Mathlib.Tactic.Tauto

/-! Tables with a unique key, as a relational store keeps them. The uniqueness
proof travels with the rows, so no operation can build a duplicate key. -/
namespace Akb.Library
variable {ρ κ : Type*} {key : ρ → κ}

/-- Rows in storage order, no two of them with one key. -/
structure Table (ρ : Type*) {κ : Type*} (key : ρ → κ) where
  rows : List ρ
  unique : (rows.map key).Nodup

namespace Table

def empty : Table ρ key := ⟨[], List.nodup_nil⟩

instance : Membership ρ (Table ρ key) := ⟨fun t r => r ∈ t.rows⟩

theorem mem_def {t : Table ρ key} {r : ρ} : r ∈ t ↔ r ∈ t.rows := Iff.rfl

@[simp] theorem not_mem_empty (r : ρ) : r ∉ (empty : Table ρ key) := List.not_mem_nil

theorem eq_of_rows {t u : Table ρ key} (h : t.rows = u.rows) : t = u := by
  cases t
  cases u
  cases h
  rfl

theorem eq_of_key {t : Table ρ key} {r s : ρ} (hr : r ∈ t) (hs : s ∈ t) (h : key r = key s) : r = s :=
  List.inj_on_of_nodup_map t.unique hr hs h

/-- Delete the rows a condition selects. -/
def deleteWhere (t : Table ρ key) (p : ρ → Bool) : Table ρ key :=
  ⟨t.rows.filter (fun r => !p r), t.unique.sublist (List.filter_sublist.map key)⟩

theorem mem_deleteWhere {t : Table ρ key} {p : ρ → Bool} {r : ρ} :
    r ∈ t.deleteWhere p ↔ r ∈ t ∧ p r = false := by
  simp [mem_def, deleteWhere]

/-- Update the selected rows in place; an update never touches the key. -/
def updateWhere (t : Table ρ key) (p : ρ → Bool) (f : ρ → ρ) (hf : ∀ r, key (f r) = key r) : Table ρ key where
  rows := t.rows.map (fun r => if p r then f r else r)
  unique := by
    have hk : key ∘ (fun r => if p r then f r else r) = key := by
      funext r
      by_cases hp : p r <;> simp [hp, hf]
    rw [List.map_map, hk]
    exact t.unique

theorem mem_updateWhere {t : Table ρ key} {p : ρ → Bool} {f : ρ → ρ} {hf : ∀ r, key (f r) = key r} {r : ρ} :
    r ∈ t.updateWhere p f hf ↔ (∃ s ∈ t, p s ∧ r = f s) ∨ (r ∈ t ∧ p r = false) := by
  simp only [mem_def, updateWhere, List.mem_map]
  constructor
  · rintro ⟨s, hs, rfl⟩
    by_cases hp : p s
    · exact Or.inl ⟨s, hs, hp, by simp [hp]⟩
    · have hn : p s = false := by simpa using hp
      exact Or.inr ⟨by simpa [hn] using hs, by simp [hn]⟩
  · rintro (⟨s, hs, hp, rfl⟩ | ⟨hr, hp⟩)
    · exact ⟨s, hs, by simp [hp]⟩
    · exact ⟨r, hr, by simp [hp]⟩

theorem updateWhere_of_none {t : Table ρ key} {p : ρ → Bool} {f : ρ → ρ} (hf : ∀ r, key (f r) = key r)
    (h : ∀ r ∈ t, p r = false) : t.updateWhere p f hf = t := by
  apply eq_of_rows
  rw [updateWhere]
  exact (List.map_congr_left fun r hr => by rw [h r hr]; rfl).trans (List.map_id _)

/-- Insert a row under a key the table does not hold yet. -/
def insertNew (t : Table ρ key) (r : ρ) (h : ∀ s ∈ t, key s ≠ key r) : Table ρ key where
  rows := t.rows ++ [r]
  unique := by
    rw [List.map_append, List.map_singleton]
    refine t.unique.append (List.nodup_singleton _) ?_
    intro k hk hr
    obtain ⟨s, hs, rfl⟩ := List.mem_map.mp hk
    exact h s hs (List.mem_singleton.mp hr)

theorem mem_insertNew {t : Table ρ key} {r s : ρ} {h : ∀ s ∈ t, key s ≠ key r} :
    s ∈ t.insertNew r h ↔ s = r ∨ s ∈ t := by
  simp [mem_def, insertNew, or_comm]

section Lookup
variable [DecidableEq κ]

def get? (t : Table ρ key) (k : κ) : Option ρ := t.rows.find? (fun r => key r = k)

theorem mem_of_get? {t : Table ρ key} {k : κ} {r : ρ} (h : t.get? k = some r) : r ∈ t ∧ key r = k :=
  ⟨List.mem_of_find?_eq_some h, by simpa using List.find?_some h⟩

theorem get?_eq_none {t : Table ρ key} {k : κ} : t.get? k = none ↔ ∀ r ∈ t, key r ≠ k := by
  simp [get?, mem_def]

theorem get?_eq_some {t : Table ρ key} {k : κ} {r : ρ} : t.get? k = some r ↔ r ∈ t ∧ key r = k := by
  constructor
  · exact mem_of_get?
  · rintro ⟨hr, rfl⟩
    cases hg : t.get? (key r) with
    | none => exact absurd rfl (get?_eq_none.mp hg r hr)
    | some s => rw [eq_of_key (mem_of_get? hg).1 hr (mem_of_get? hg).2]

/-- `INSERT`: refuse a row whose key is taken. -/
def insert? (t : Table ρ key) (r : ρ) : Option (Table ρ key) :=
  if h : t.get? (key r) = none then some (t.insertNew r (get?_eq_none.mp h)) else none

theorem insert?_eq_some {t u : Table ρ key} {r : ρ} (h : t.insert? r = some u) :
    (∀ s ∈ t, key s ≠ key r) ∧ ∀ s, s ∈ u ↔ s = r ∨ s ∈ t := by
  unfold insert? at h
  split at h
  · rename_i hn
    cases h
    exact ⟨get?_eq_none.mp hn, fun s => mem_insertNew⟩
  · cases h

/-- `INSERT` of several rows in order; all of them or none. -/
def insertAll? (t : Table ρ key) : List ρ → Option (Table ρ key)
  | [] => some t
  | r :: rs => (t.insert? r).bind (fun u => u.insertAll? rs)

theorem mem_of_insertAll? {t u : Table ρ key} {rs : List ρ} (h : t.insertAll? rs = some u) (s : ρ) :
    s ∈ u ↔ s ∈ rs ∨ s ∈ t := by
  induction rs generalizing t with
  | nil =>
    cases h
    simp
  | cons r rs ih =>
    obtain ⟨v, hv, hu⟩ := Option.bind_eq_some_iff.mp h
    rw [ih hu, (insert?_eq_some hv).2 s, List.mem_cons]
    tauto

/-- `INSERT ... ON CONFLICT (key) DO UPDATE`: the row of that key becomes `r`. -/
def upsert (t : Table ρ key) (r : ρ) : Table ρ key :=
  (t.deleteWhere (fun s => key s = key r)).insertNew r (by
    intro s hs
    simpa using (mem_deleteWhere.mp hs).2)

theorem mem_upsert {t : Table ρ key} {r s : ρ} : s ∈ t.upsert r ↔ s = r ∨ (s ∈ t ∧ key s ≠ key r) := by
  simp [upsert, mem_insertNew, mem_deleteWhere]

/-- `INSERT ... ON CONFLICT (key) DO UPDATE SET`: a row that holds the key is changed by `f` instead. -/
def insertOr (t : Table ρ key) (r : ρ) (f : ρ → ρ) : Table ρ key :=
  t.upsert (match t.get? (key r) with
    | some old => f old
    | none => r)

theorem mem_insertOr {t : Table ρ key} {r s : ρ} {f : ρ → ρ} (hf : ∀ r, key (f r) = key r) :
    s ∈ t.insertOr r f ↔ (∃ old ∈ t, key old = key r ∧ s = f old) ∨
      ((∀ old ∈ t, key old ≠ key r) ∧ s = r) ∨ (s ∈ t ∧ key s ≠ key r) := by
  rw [insertOr, mem_upsert]
  cases hget : t.get? (key r) with
  | none =>
    have hnone := get?_eq_none.mp hget
    constructor
    · rintro (rfl | hs)
      · exact .inr (.inl ⟨hnone, rfl⟩)
      · exact .inr (.inr hs)
    · rintro (⟨old, hold, hkey, -⟩ | ⟨-, rfl⟩ | hs)
      · exact absurd hkey (hnone old hold)
      · exact .inl rfl
      · exact .inr hs
  | some old =>
    obtain ⟨hold, hkey⟩ := mem_of_get? hget
    simp only [hf, hkey]
    constructor
    · rintro (rfl | hs)
      · exact .inl ⟨old, hold, hkey, rfl⟩
      · exact .inr (.inr hs)
    · rintro (⟨old', hold', hkey', rfl⟩ | ⟨hnone, -⟩ | hs)
      · exact .inl (by rw [eq_of_key hold' hold (hkey'.trans hkey.symm)])
      · exact absurd hkey (hnone old hold)
      · exact .inr hs

theorem get?_upsert_self (t : Table ρ key) (r : ρ) : (t.upsert r).get? (key r) = some r :=
  get?_eq_some.mpr ⟨mem_upsert.mpr (Or.inl rfl), rfl⟩

theorem get?_upsert_of_ne {t : Table ρ key} {r : ρ} {k : κ} (h : k ≠ key r) :
    (t.upsert r).get? k = t.get? k := by
  apply Option.ext
  intro s
  rw [get?_eq_some, get?_eq_some, mem_upsert]
  constructor
  · rintro ⟨rfl | ⟨hs, _⟩, hk⟩
    · exact absurd hk.symm h
    · exact ⟨hs, hk⟩
  · rintro ⟨hs, rfl⟩
    exact ⟨Or.inr ⟨hs, h⟩, rfl⟩

theorem get?_deleteWhere {t : Table ρ key} {p : ρ → Bool} {k : κ} :
    (t.deleteWhere p).get? k = (t.get? k).filter (fun r => !p r) := by
  apply Option.ext
  intro s
  rw [get?_eq_some, mem_deleteWhere, Option.filter_eq_some_iff, get?_eq_some, Bool.not_eq_true']
  tauto

theorem get?_updateWhere {t : Table ρ key} {p : ρ → Bool} {f : ρ → ρ} {hf : ∀ r, key (f r) = key r} {k : κ} :
    (t.updateWhere p f hf).get? k = (t.get? k).map (fun r => if p r then f r else r) := by
  have hkey (r : ρ) : key (if p r then f r else r) = key r := by
    split
    · exact hf r
    · rfl
  rw [get?, updateWhere, List.find?_map]
  congr 1
  exact congrArg (fun q => t.rows.find? q) (funext fun r => by simp [hkey])

end Lookup
end Table
end Akb.Library

/-! Counts by key: a `Counter` in memory, or a table whose rows are added to. -/
namespace Akb.Library
variable {τ : Type*} [DecidableEq τ]

abbrev Counts (τ : Type*) := Table (τ × Nat) (Prod.fst : τ × Nat → τ)

namespace Counts

def count (c : Counts τ) (t : τ) : Nat := (c.get? t).elim 0 Prod.snd

/-- `counts[t] += n`, or an insert that adds to the row it collides with. -/
def add (c : Counts τ) (t : τ) (n : Nat) : Counts τ := c.upsert (t, c.count t + n)

def addAll (c : Counts τ) (d : List (τ × Nat)) : Counts τ := d.foldl (fun c p => c.add p.1 p.2) c

theorem count_empty (t : τ) : count (Table.empty : Counts τ) t = 0 := rfl

theorem count_of_mem {c : Counts τ} {p : τ × Nat} (h : p ∈ c) : c.count p.1 = p.2 := by
  rw [count, Table.get?_eq_some.mpr ⟨h, rfl⟩]
  rfl

theorem count_add (c : Counts τ) (t u : τ) (n : Nat) : (c.add t n).count u = c.count u + if u = t then n else 0 := by
  by_cases h : u = t
  · subst h
    have hself : (c.add u n).get? u = some (u, c.count u + n) := Table.get?_upsert_self c _
    rw [if_pos rfl, count, hself, Option.elim_some]
  · rw [if_neg h, Nat.add_zero, add, count, Table.get?_upsert_of_ne h]
    rfl

/-- Counting each key of a list once more. -/
theorem count_addEach (c : Counts τ) {ts : List τ} (hn : ts.Nodup) (u : τ) :
    (ts.foldl (fun c t => c.add t 1) c).count u = c.count u + if u ∈ ts then 1 else 0 := by
  induction ts generalizing c with
  | nil => simp
  | cons t ts ih =>
    obtain ⟨ht, hn⟩ := List.nodup_cons.mp hn
    rw [List.foldl_cons, ih _ hn, count_add]
    by_cases h : u = t
    · subst h
      simp [ht]
    · simp [h]

private theorem count_addAll_of_notMem (c : Counts τ) {d : List (τ × Nat)} {u : τ} (h : u ∉ d.map Prod.fst) :
    (c.addAll d).count u = c.count u := by
  induction d generalizing c with
  | nil => rfl
  | cons p d ih =>
    rw [List.map_cons, List.mem_cons, not_or] at h
    have hrest : ((c.add p.1 p.2).addAll d).count u = (c.add p.1 p.2).count u := ih _ h.2
    rw [addAll, List.foldl_cons, ← addAll, hrest, count_add, if_neg h.1, Nat.add_zero]

private theorem count_addAll (c : Counts τ) {d : List (τ × Nat)} (hn : (d.map Prod.fst).Nodup) {p : τ × Nat} (hp : p ∈ d) :
    (c.addAll d).count p.1 = c.count p.1 + p.2 := by
  induction d generalizing c with
  | nil => cases hp
  | cons q d ih =>
    rw [List.map_cons, List.nodup_cons] at hn
    rw [addAll, List.foldl_cons, ← addAll]
    rcases List.mem_cons.mp hp with rfl | hp
    · rw [count_addAll_of_notMem _ hn.1, count_add, if_pos rfl]
    · have hne : p.1 ≠ q.1 := fun h => hn.1 (h ▸ List.mem_map_of_mem hp)
      rw [ih _ hn.2 hp, count_add, if_neg hne, Nat.add_zero]

/-- Adding one table of counts to another. -/
theorem count_merge (c d : Counts τ) (u : τ) : (c.addAll d.rows).count u = c.count u + d.count u := by
  by_cases h : u ∈ d.rows.map Prod.fst
  · obtain ⟨p, hp, rfl⟩ := List.mem_map.mp h
    rw [count_addAll c d.unique hp, count_of_mem hp]
  · have hnone : d.get? u = none := Table.get?_eq_none.mpr fun p hp hu => h (hu ▸ List.mem_map_of_mem hp)
    rw [count_addAll_of_notMem c h, count, count, hnone, Option.elim_none, Nat.add_zero]

end Counts
end Akb.Library

/-! Rows that name their parent by key: the walk from a row up to a root. -/
namespace Akb.Library
variable {ρ κ : Type*} {key : ρ → κ}

/-- `Lineage t parent r chain`: following parents from `r` visits `chain` and ends at a root. -/
inductive Lineage (t : Table ρ key) (parent : ρ → Option κ) : ρ → List ρ → Prop where
  | root {r : ρ} (hr : r ∈ t) (hp : parent r = none) : Lineage t parent r [r]
  | child {r p : ρ} {chain : List ρ} (hr : r ∈ t) (hp : parent r = some (key p)) (h : Lineage t parent p chain) :
      Lineage t parent r (r :: chain)

namespace Lineage
variable {t u : Table ρ key} {parent : ρ → Option κ} {r : ρ} {chain : List ρ}

theorem mem_table (h : Lineage t parent r chain) : ∀ x ∈ chain, x ∈ t := by
  induction h with
  | root hr _ => exact fun x hx => List.mem_singleton.mp hx ▸ hr
  | child hr _ _ ih =>
    intro x hx
    rcases List.mem_cons.mp hx with rfl | hx
    · exact hr
    · exact ih x hx

theorem start_mem (h : Lineage t parent r chain) : r ∈ chain := by
  cases h with
  | root => exact List.mem_cons_self
  | child => exact List.mem_cons_self

/-- A walk stays a walk when rows are added. -/
theorem mono (htu : ∀ x ∈ t, x ∈ u) (h : Lineage t parent r chain) : Lineage u parent r chain := by
  induction h with
  | root hr hp => exact .root (htu _ hr) hp
  | child hr hp _ ih => exact .child (htu _ hr) hp ih

/-- The walk ends at its only row without a parent. -/
theorem last (h : Lineage t parent r chain) :
    ∃ first, chain.getLast? = some first ∧ parent first = none ∧ ∀ x ∈ chain, parent x = none → x = first := by
  induction h with
  | root hr hp => exact ⟨_, rfl, hp, fun x hx _ => List.mem_singleton.mp hx⟩
  | @child r p chain hr hp h ih =>
    obtain ⟨first, hlast, hnone, honly⟩ := ih
    refine ⟨first, ?_, hnone, ?_⟩
    · rw [List.getLast?_cons, hlast]
      rfl
    · intro x hx hx0
      rcases List.mem_cons.mp hx with rfl | hx
      · rw [hp] at hx0
        cases hx0
      · exact honly x hx hx0

/-- The parents of a row lead one way only. -/
theorem unique {chain' : List ρ} (h : Lineage t parent r chain) (h' : Lineage t parent r chain') : chain = chain' := by
  induction h generalizing chain' with
  | root _ hp =>
    cases h' with
    | root => rfl
    | child _ hp' _ =>
      rw [hp] at hp'
      cases hp'
  | child _ hp h ih =>
    cases h' with
    | root _ hp' =>
      rw [hp] at hp'
      cases hp'
    | @child _ p' _ _ hp' h' =>
      rw [hp, Option.some.injEq] at hp'
      obtain rfl := Table.eq_of_key (h.mem_table _ h.start_mem) (h'.mem_table _ h'.start_mem) hp'
      rw [ih h']

end Lineage
end Akb.Library
