import Mathlib.Data.List.Basic

/-! The schema of one table and what the statements of a data definition language do to it,
over any type of identifiers. Only the rules between the names are kept: a statement may be
refused for other reasons, such as the rows of the table. -/
namespace Akb.Library.Ddl

inductive Order where
  | asc
  | desc
  deriving DecidableEq

/-- A key over columns, with something said of each: nothing by a unique key, an order by
an index. -/
structure Key (ι κ : Type) where
  name : ι
  columns : List (ι × κ)
  deriving DecidableEq

inductive ConstraintKind where
  | check
  | foreignKey
  deriving DecidableEq

structure Constraint (ι : Type) where
  name : ι
  kind : ConstraintKind
  columns : List ι
  deriving DecidableEq

structure Table (ι : Type) where
  columns : List ι
  uniqueKeys : List (Key ι Unit)
  indexes : List (Key ι Order)
  constraints : List (Constraint ι)
  deriving DecidableEq

/-- `ADD COLUMN IF NOT EXISTS`, `DROP COLUMN IF EXISTS`, `RENAME COLUMN`, `ALTER COLUMN`,
`ADD CONSTRAINT`, `DROP CONSTRAINT IF EXISTS`, `CREATE INDEX` and `DROP INDEX IF EXISTS`. -/
inductive Statement (ι : Type) where
  | addColumn (column : ι)
  | dropColumn (column : ι)
  | renameColumn (column column' : ι)
  | alterColumn (column : ι)
  | addUnique (key : Key ι Unit)
  | addConstraint (constraint : Constraint ι)
  | dropConstraint (name : ι)
  | createIndex (index : Key ι Order)
  | dropIndex (name : ι)
  deriving DecidableEq

section Keys
variable {ι κ : Type}

def Key.names (k : Key ι κ) : List ι := k.columns.map Prod.fst

def Key.rename (f : ι → ι) (k : Key ι κ) : Key ι κ := { k with columns := k.columns.map (Prod.map f id) }

@[simp] theorem Key.name_rename (f : ι → ι) (k : Key ι κ) : (k.rename f).name = k.name := rfl

@[simp] theorem Key.names_rename (f : ι → ι) (k : Key ι κ) : (k.rename f).names = k.names.map f := by
  simp [Key.names, Key.rename]

theorem Key.rename_congr {f g : ι → ι} {k : Key ι κ} (h : ∀ c ∈ k.names, f c = g c) :
    k.rename f = k.rename g := by
  unfold Key.rename
  congr 1
  refine List.map_congr_left (fun p hp => Prod.ext (h p.1 (List.mem_map_of_mem hp)) rfl)

theorem Key.rename_id : (Key.rename id : Key ι κ → Key ι κ) = id := by
  funext k
  rw [Key.rename, Prod.map_id, List.map_id]
  rfl

theorem Key.rename_rename (f g : ι → ι) (k : Key ι κ) : (k.rename f).rename g = k.rename (g ∘ f) := by
  simp [Key.rename, Prod.map_comp_map]

/-- A name belongs to one key. -/
def Named (ks : List (Key ι κ)) : Prop := ∀ k ∈ ks, ∀ k' ∈ ks, k.name = k'.name → k = k'

/-- The keys are over columns that exist. -/
def Over (columns : List ι) (ks : List (Key ι κ)) : Prop := ∀ k ∈ ks, ∀ c ∈ k.names, c ∈ columns

theorem Named.subset {ks ks' : List (Key ι κ)} (h : Named ks) (hsub : ks' ⊆ ks) : Named ks' :=
  fun k hk k' hk' => h k (hsub hk) k' (hsub hk')

theorem Named.rename {ks : List (Key ι κ)} (h : Named ks) (f : ι → ι) : Named (ks.map (Key.rename f)) := by
  intro k hk k' hk' hname
  obtain ⟨a, ha, rfl⟩ := List.mem_map.mp hk
  obtain ⟨b, hb, rfl⟩ := List.mem_map.mp hk'
  rw [h a ha b hb hname]

theorem Named.concat {ks : List (Key ι κ)} {k : Key ι κ} (h : Named ks) (hk : k.name ∉ ks.map Key.name) :
    Named (ks ++ [k]) := by
  have hne : ∀ a ∈ ks, a.name ≠ k.name := fun a ha he => hk (he ▸ List.mem_map_of_mem ha)
  intro a ha b hb hname
  rcases List.mem_append.mp ha with ha | ha <;> rcases List.mem_append.mp hb with hb | hb
  · exact h a ha b hb hname
  · exact absurd (hname.trans (congrArg Key.name (List.mem_singleton.mp hb))) (hne a ha)
  · exact absurd (hname.symm.trans (congrArg Key.name (List.mem_singleton.mp ha))) (hne b hb)
  · rw [List.mem_singleton.mp ha, List.mem_singleton.mp hb]

theorem Over.rename {columns : List ι} {ks : List (Key ι κ)} (h : Over columns ks) (f : ι → ι) :
    Over (columns.map f) (ks.map (Key.rename f)) := by
  intro k hk c hc
  obtain ⟨a, ha, rfl⟩ := List.mem_map.mp hk
  rw [Key.names_rename] at hc
  obtain ⟨d, hd, rfl⟩ := List.mem_map.mp hc
  exact List.mem_map_of_mem (h a ha d hd)

theorem Over.mono {columns columns' : List ι} {ks ks' : List (Key ι κ)} (h : Over columns ks)
    (hcolumns : columns ⊆ columns') (hks : ks' ⊆ ks) : Over columns' ks' :=
  fun k hk c hc => hcolumns (h k (hks hk) c hc)

theorem Over.concat {columns : List ι} {ks : List (Key ι κ)} {k : Key ι κ} (h : Over columns ks)
    (hk : ∀ c ∈ k.names, c ∈ columns) : Over columns (ks ++ [k]) := by
  intro a ha
  rcases List.mem_append.mp ha with ha | ha
  · exact h a ha
  · exact List.mem_singleton.mp ha ▸ hk

end Keys

variable {ι : Type} [DecidableEq ι]

def Table.rename (t : Table ι) (f : ι → ι) : Table ι where
  columns := t.columns.map f
  uniqueKeys := t.uniqueKeys.map (Key.rename f)
  indexes := t.indexes.map (Key.rename f)
  constraints := t.constraints.map (fun c => { c with columns := c.columns.map f })

/-- The constraints and the indexes of the columns go with them. -/
def Table.dropColumns (t : Table ι) (columns : List ι) : Table ι where
  columns := t.columns.filter (· ∉ columns)
  uniqueKeys := t.uniqueKeys.filter (fun k => ∀ c ∈ k.names, c ∉ columns)
  indexes := t.indexes.filter (fun k => ∀ c ∈ k.names, c ∉ columns)
  constraints := t.constraints.filter (fun k => ∀ c ∈ k.columns, c ∉ columns)

def replace (column column' : ι) (c : ι) : ι := if c = column then column' else c

/-- The table after a statement, unless the names do not allow it. A unique key comes with
an index of its name. -/
def Table.exec (t : Table ι) : Statement ι → Option (Table ι)
  | .addColumn c => some (if c ∈ t.columns then t else { t with columns := t.columns ++ [c] })
  | .dropColumn c => some (t.dropColumns [c])
  | .renameColumn c c' => if c ∈ t.columns ∧ c' ∉ t.columns then some (t.rename (replace c c')) else none
  | .alterColumn c => if c ∈ t.columns then some t else none
  | .addUnique k =>
    if (∀ c ∈ k.names, c ∈ t.columns) ∧ k.name ∉ t.uniqueKeys.map Key.name ∧
        k.name ∉ t.constraints.map Constraint.name ∧ k.name ∉ t.indexes.map Key.name then
      some { t with uniqueKeys := t.uniqueKeys ++ [k] }
    else none
  | .addConstraint k =>
    if (∀ c ∈ k.columns, c ∈ t.columns) ∧ k.name ∉ t.uniqueKeys.map Key.name ∧
        k.name ∉ t.constraints.map Constraint.name then
      some { t with constraints := t.constraints ++ [k] }
    else none
  | .dropConstraint n =>
    some { t with
      uniqueKeys := t.uniqueKeys.filter (·.name ≠ n)
      constraints := t.constraints.filter (·.name ≠ n) }
  | .createIndex k =>
    if (∀ c ∈ k.names, c ∈ t.columns) ∧ k.name ∉ t.uniqueKeys.map Key.name ∧
        k.name ∉ t.indexes.map Key.name then
      some { t with indexes := t.indexes ++ [k] }
    else none
  | .dropIndex n =>
    if n ∈ t.uniqueKeys.map Key.name then none else some { t with indexes := t.indexes.filter (·.name ≠ n) }

/-- What holds between the names of a table. -/
structure Table.WellFormed (t : Table ι) : Prop where
  uniqueOver : Over t.columns t.uniqueKeys
  indexOver : Over t.columns t.indexes
  uniqueNamed : Named t.uniqueKeys
  indexNamed : Named t.indexes
  apart : ∀ k ∈ t.uniqueKeys, ∀ c ∈ t.constraints, c.name ≠ k.name

theorem Table.WellFormed.dropColumns {t : Table ι} (h : t.WellFormed) (columns : List ι) :
    (t.dropColumns columns).WellFormed where
  uniqueOver k hk c hc := by
    obtain ⟨hmem, hnot⟩ := List.mem_filter.mp hk
    exact List.mem_filter.mpr ⟨h.uniqueOver k hmem c hc, by simpa using of_decide_eq_true hnot c hc⟩
  indexOver k hk c hc := by
    obtain ⟨hmem, hnot⟩ := List.mem_filter.mp hk
    exact List.mem_filter.mpr ⟨h.indexOver k hmem c hc, by simpa using of_decide_eq_true hnot c hc⟩
  uniqueNamed := h.uniqueNamed.subset (List.filter_subset_self _)
  indexNamed := h.indexNamed.subset (List.filter_subset_self _)
  apart k hk c hc := h.apart k (List.mem_of_mem_filter hk) c (List.mem_of_mem_filter hc)

omit [DecidableEq ι] in
theorem Table.WellFormed.rename {t : Table ι} (h : t.WellFormed) (f : ι → ι) : (t.rename f).WellFormed where
  uniqueOver := h.uniqueOver.rename f
  indexOver := h.indexOver.rename f
  uniqueNamed := h.uniqueNamed.rename f
  indexNamed := h.indexNamed.rename f
  apart k hk c hc := by
    obtain ⟨k', hk', rfl⟩ := List.mem_map.mp hk
    obtain ⟨c', hc', rfl⟩ := List.mem_map.mp hc
    exact h.apart k' hk' c' hc'

theorem Table.WellFormed.exec {t t' : Table ι} {s : Statement ι} (h : t.WellFormed) (hexec : t.exec s = some t') :
    t'.WellFormed := by
  cases s with
  | addColumn c =>
    cases hexec
    split
    · exact h
    · exact ⟨h.uniqueOver.mono (List.subset_append_left _ _) (List.Subset.refl _),
        h.indexOver.mono (List.subset_append_left _ _) (List.Subset.refl _), h.uniqueNamed, h.indexNamed, h.apart⟩
  | dropColumn c =>
    cases hexec
    exact h.dropColumns [c]
  | renameColumn c c' =>
    obtain ⟨-, hexec⟩ := Option.ite_none_right_eq_some.mp hexec
    cases hexec
    exact h.rename _
  | alterColumn c =>
    obtain ⟨-, hexec⟩ := Option.ite_none_right_eq_some.mp hexec
    cases hexec
    exact h
  | addUnique k =>
    obtain ⟨⟨hover, hunique, hconstraint, -⟩, hexec⟩ := Option.ite_none_right_eq_some.mp hexec
    cases hexec
    refine ⟨h.uniqueOver.concat hover, h.indexOver, h.uniqueNamed.concat hunique, h.indexNamed,
      fun a ha c hc => ?_⟩
    rcases List.mem_append.mp ha with ha | ha
    · exact h.apart a ha c hc
    · exact fun he => hconstraint (List.mem_singleton.mp ha ▸ he ▸ List.mem_map_of_mem hc)
  | addConstraint k =>
    obtain ⟨⟨-, hunique, -⟩, hexec⟩ := Option.ite_none_right_eq_some.mp hexec
    cases hexec
    refine ⟨h.uniqueOver, h.indexOver, h.uniqueNamed, h.indexNamed, fun a ha c hc => ?_⟩
    rcases List.mem_append.mp hc with hc | hc
    · exact h.apart a ha c hc
    · exact fun he => hunique (List.mem_singleton.mp hc ▸ he ▸ List.mem_map_of_mem ha)
  | dropConstraint n =>
    cases hexec
    exact ⟨h.uniqueOver.mono (List.Subset.refl _) (List.filter_subset_self _), h.indexOver,
      h.uniqueNamed.subset (List.filter_subset_self _), h.indexNamed,
      fun k hk c hc => h.apart k (List.mem_of_mem_filter hk) c (List.mem_of_mem_filter hc)⟩
  | createIndex k =>
    obtain ⟨⟨hover, -, hindex⟩, hexec⟩ := Option.ite_none_right_eq_some.mp hexec
    cases hexec
    exact ⟨h.uniqueOver, h.indexOver.concat hover, h.uniqueNamed, h.indexNamed.concat hindex, h.apart⟩
  | dropIndex n =>
    obtain ⟨-, hexec⟩ := Option.ite_none_left_eq_some.mp hexec
    cases hexec
    exact ⟨h.uniqueOver, h.indexOver.mono (List.Subset.refl _) (List.filter_subset_self _), h.uniqueNamed,
      h.indexNamed.subset (List.filter_subset_self _), h.apart⟩

end Akb.Library.Ddl
