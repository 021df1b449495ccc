import Akb.Library.DdlRun
import Akb.Tables.AlterTable

/-! What each operation of `alter_table` does to the row and to the table, when it
completes, and what it keeps of both. -/
namespace Akb.Tables
open Akb.Library Akb.Library.Ddl
variable {env : Environment} {registry : Registry} {s s' : State registry}

/-- The lists an operation works on, as a row. -/
def State.row (s : State registry) : Registry := ⟨s.columns, s.uniqueKeys.now, s.indexes.now⟩

theorem State.written_eq (s : State registry) : s.written = s.row := by
  unfold State.written State.row
  split
  · rfl
  · rename_i h
    obtain ⟨huk, hidx⟩ := Bool.or_eq_false_iff.mp (Bool.not_eq_true _ ▸ h)
    rw [s.uniqueKeys.unchanged huk, s.indexes.unchanged hidx]

theorem issue_ok {st : Statement Name} (h : issue env s st = .ok s') :
    ∃ t, s.table.exec st = some t ∧ s' = { s with table := t, issued := s.issued ++ [st] } := by
  unfold issue at h
  split at h
  · split at h
    · rename_i t ht
      exact ⟨t, ht, (Except.ok.inj h).symm⟩
    · cases h
  · cases h

theorem issueAll_ok {sts : List (Statement Name)} (h : issueAll env s sts = .ok s') :
    ∃ t issued, s.table.execAll sts = some t ∧ s' = { s with table := t, issued := issued } := by
  induction sts generalizing s with
  | nil =>
    cases h
    exact ⟨_, _, rfl, rfl⟩
  | cons st sts ih =>
    obtain ⟨u, hu, h⟩ := bind_eq_ok.mp h
    obtain ⟨t, ht, rfl⟩ := issue_ok hu
    obtain ⟨t', issued, ht', rfl⟩ := ih h
    exact ⟨t', issued, Table.execAll_cons.mpr ⟨t, ht, ht'⟩, rfl⟩

/-- The row and the table name the same columns, unique keys and indexes. -/
structure Agrees (r : Registry) (t : Table Name) : Prop where
  columns : ∀ n, n ∈ t.columns ↔ n ∈ reserved ∨ n ∈ r.columns.map ColumnSpec.name
  uniqueKeys : ∀ k, k ∈ r.uniqueKeys ↔ k ∈ t.uniqueKeys
  indexes : ∀ k, k ∈ r.indexes ↔ k ∈ t.indexes

/-- The constraints that go by the name generated for their column. -/
def ColumnSpec.generatedKinds (col : ColumnSpec) : List Name :=
  (if col.isEnum then [enumKind] else []) ++ if col.references.isSome then [foreignKeyKind] else []

/-- What holds of the names before, between and after the operations. No unique key takes
the name of a constraint that a column of the row has by its kind. -/
structure Sound (naming : Naming) (columns : List ColumnSpec) (t : Table Name) : Prop where
  wellFormed : t.WellFormed
  names : t.Names Clean
  distinct : (columns.map ColumnSpec.name).Nodup
  clean : ∀ col ∈ columns, Clean col.name
  apart : ∀ col ∈ columns, ∀ kind ∈ col.generatedKinds,
    generatedConstraint naming kind col.name ∉ t.uniqueKeys.map Key.name

/-- The constraints that the columns come with keep the unique keys from taking their names. -/
theorem Sound.of_constraints {naming : Naming} {r : Registry} {t : Table Name} (hwf : t.WellFormed)
    (hnames : t.Names Clean) (hdistinct : (r.columns.map ColumnSpec.name).Nodup) (hagree : Agrees r t)
    (h : ∀ col ∈ r.columns, ∀ kind ∈ col.generatedKinds,
      ∃ c ∈ t.constraints, c.name = generatedConstraint naming kind col.name) : Sound naming r.columns t where
  wellFormed := hwf
  names := hnames
  distinct := hdistinct
  clean col hcol := hnames.columns _ ((hagree.columns _).mpr (Or.inr (List.mem_map_of_mem hcol)))
  apart col hcol kind hkind hmem := by
    obtain ⟨c, hc, hname⟩ := h col hcol kind hkind
    obtain ⟨k, hk, hkname⟩ := List.mem_map.mp hmem
    exact hwf.apart k hk c hc (hname.trans hkname.symm)

theorem mem_generatedKinds {col : ColumnSpec} {kind : Name} : kind ∈ col.generatedKinds ↔
    (col.isEnum ∧ kind = enumKind) ∨ (col.references.isSome ∧ kind = foreignKeyKind) := by
  unfold ColumnSpec.generatedKinds
  cases col.isEnum <;> cases col.references.isSome <;> simp

theorem generatedConstraint_eq {naming : Naming} {kind col : Name} (hkind : kind ∈ kinds) (hcol : Clean col) :
    generatedConstraint naming kind col = generateConstraintName naming [col] kind :=
  ident_of_clean (clean_generateConstraintName hkind (by simpa using hcol))

/-- The name generated for a unique key is none generated for a constraint. -/
theorem uniqueName_ne {naming : Naming} {col : ColumnSpec} {col' kind : Name} (h : kind ∈ col.generatedKinds)
    (hcol : Clean col.name) :
    generatedConstraint naming kind col.name ≠ generateConstraintName naming [col'] uniqueKind := by
  have hkind := (mem_generatedKinds.mp h).imp And.right And.right
  intro h
  rw [generatedConstraint_eq (by rcases hkind with rfl | rfl <;> decide) hcol] at h
  have hunique := generateConstraintName_suffix naming [col'] uniqueKind
  have hother := generateConstraintName_suffix naming [col.name] kind
  rw [h] at hother
  have hshort : uniqueKind.length ≤ kind.length := by rcases hkind with rfl | rfl <;> decide
  have hsuffix := List.suffix_of_suffix_length_le hunique hother hshort
  rcases hkind with rfl | rfl <;> exact absurd hsuffix (by decide)

theorem unquoted_eq {κ : Type} {k : Key Name κ} (hname : Clean k.name) (hcolumns : ∀ c ∈ k.names, Clean c) :
    unquoted k = k := by
  have hid : ∀ p ∈ k.columns, Prod.map ident id p = id p := fun p hp =>
    Prod.ext (ident_of_clean (hcolumns p.1 (List.mem_map_of_mem hp))) rfl
  rw [unquoted, ident_of_clean hname, List.map_congr_left hid, List.map_id]

theorem unquoted_name {κ : Type} (k : Key Name κ) : (unquoted k).name = ident k.name := rfl

theorem addUniqueKey_ok {preflight : Bool} {uk : UniqueKey} (h : addUniqueKey env preflight s uk = .ok s') :
    ∃ t issued, s.table.exec (.addUnique (unquoted uk)) = some t ∧
      s' = { s with uniqueKeys := s.uniqueKeys.append uk, table := t, issued := issued } := by
  obtain ⟨_, -, h⟩ := bind_eq_ok.mp h
  obtain ⟨_, -, h⟩ := bind_eq_ok.mp h
  obtain ⟨u, hu, h⟩ := bind_eq_ok.mp h
  obtain ⟨t, ht, rfl⟩ := issue_ok hu
  exact ⟨t, _, ht, (pure_eq_ok.mp h).symm⟩

theorem addIndex_ok {idx : Index} (h : addIndex env s idx = .ok s') :
    ∃ t issued, s.table.exec (.createIndex (unquoted idx)) = some t ∧
      s' = { s with indexes := s.indexes.append idx, table := t, issued := issued } := by
  obtain ⟨_, -, h⟩ := bind_eq_ok.mp h
  obtain ⟨u, hu, h⟩ := bind_eq_ok.mp h
  obtain ⟨t, ht, rfl⟩ := issue_ok hu
  exact ⟨t, _, ht, (pure_eq_ok.mp h).symm⟩

namespace Sound
variable {naming : Naming} {columns : List ColumnSpec} {t t' : Table Name}

/-- A unique key or an index under a name of its own. -/
theorem addUnique {k : UniqueKey} (h : Sound naming columns t) (hexec : t.exec (.addUnique (unquoted k)) = some t')
    (hname : ∀ col ∈ columns, ∀ kind ∈ col.generatedKinds, generatedConstraint naming kind col.name ≠ ident k.name) :
    Sound naming columns t' := by
  have hwf := h.wellFormed.exec hexec
  have hnew : ∀ n ∈ (Statement.addUnique (unquoted k)).names, Clean n :=
    List.forall_mem_singleton.mpr (clean_ident k.name)
  have hnames := h.names.exec hnew hexec
  obtain ⟨-, hexec⟩ := Option.ite_none_right_eq_some.mp hexec
  cases hexec
  refine ⟨hwf, hnames, h.distinct, h.clean, fun col hcol kind hkind hmem => ?_⟩
  rw [List.map_append, List.mem_append, List.map_singleton, List.mem_singleton] at hmem
  exact hmem.elim (h.apart col hcol kind hkind) (hname col hcol kind hkind)

theorem createIndex {k : Index} (h : Sound naming columns t) (hexec : t.exec (.createIndex (unquoted k)) = some t') :
    Sound naming columns t' := by
  have hwf := h.wellFormed.exec hexec
  have hnew : ∀ n ∈ (Statement.createIndex (unquoted k)).names, Clean n :=
    List.forall_mem_singleton.mpr (clean_ident k.name)
  have hnames := h.names.exec hnew hexec
  obtain ⟨-, hexec⟩ := Option.ite_none_right_eq_some.mp hexec
  cases hexec
  exact ⟨hwf, hnames, h.distinct, h.clean, h.apart⟩

/-- Statements about checks, foreign keys and values. -/
theorem aside {sts : List (Statement Name)} (h : Sound naming columns t) (haside : ∀ st ∈ sts, st.Aside t)
    (hclean : ∀ st ∈ sts, ∀ n ∈ st.names, Clean n) (hexec : t.execAll sts = some t') : Sound naming columns t' := by
  refine ⟨h.wellFormed.execAll hexec, h.names.execAll hclean hexec, h.distinct, h.clean, ?_⟩
  rw [(Table.sameKeys_execAll haside hexec).2.1]
  exact h.apart

end Sound

/-- The constraints of a new column are among the statements that add it. -/
theorem addColumnStatements_mem (naming : Naming) {col : ColumnSpec} {kind : Name} (h : kind ∈ col.generatedKinds) :
    ∃ c, .addConstraint c ∈ (addColumnStatements naming col).tail ∧
      c.name = generatedConstraint naming kind col.name := by
  rcases mem_generatedKinds.mp h with ⟨hcol, rfl⟩ | ⟨hcol, rfl⟩
  · exact ⟨⟨generatedConstraint naming enumKind col.name, .check, [ident col.name]⟩,
      by simp [addColumnStatements, createEnumConstraint, hcol], rfl⟩
  · exact ⟨⟨generatedConstraint naming foreignKeyKind col.name, .foreignKey, [ident col.name]⟩,
      by simp [addColumnStatements, createForeignKeyConstraint, hcol], rfl⟩

/-- Statements that are only about checks, foreign keys and values. -/
def Asides (t : Table Name) (sts : List (Statement Name)) : Prop :=
  ∀ st ∈ sts, st.Aside t ∧ ∀ n ∈ st.names, Clean n

theorem issueAsides_ok {naming : Naming} {columns : List ColumnSpec} {sts : List (Statement Name)}
    (h : issueAll env s sts = .ok s') (hsound : Sound naming columns s.table) (haside : Asides s.table sts) :
    ∃ t issued, s' = { s with table := t, issued := issued } ∧ Sound naming columns t ∧ s.table.SameKeys t := by
  obtain ⟨t, issued, hexec, rfl⟩ := issueAll_ok h
  exact ⟨t, issued, rfl, hsound.aside (fun st hst => (haside st hst).1) (fun st hst => (haside st hst).2) hexec,
    Table.sameKeys_execAll (fun st hst => (haside st hst).1) hexec⟩

theorem Asides.ite {t : Table Name} {c : Prop} [Decidable c] {sts : List (Statement Name)} (h : c → Asides t sts) :
    Asides t (if c then sts else []) := by
  split
  · exact h (by assumption)
  · exact fun st hst => nomatch hst

theorem addColumnStatements_aside {naming : Naming} {col : ColumnSpec} {t : Table Name} :
    ∀ st ∈ (addColumnStatements naming col).tail, st.Aside t := by
  intro st hst
  simp only [addColumnStatements, List.tail_cons, List.mem_append] at hst
  rcases hst with h | h | h <;> split at h <;> simp at h <;> subst h <;> trivial

theorem addColumnStatements_clean {naming : Naming} {col : ColumnSpec} :
    ∀ st ∈ addColumnStatements naming col, ∀ n ∈ st.names, Clean n := by
  intro st hst n hn
  simp only [addColumnStatements, List.mem_cons, List.mem_append] at hst
  rcases hst with rfl | h | h | h
  · exact List.mem_singleton.mp hn ▸ clean_ident _
  all_goals
    split at h <;> simp at h
    subst h
    exact List.mem_singleton.mp hn ▸ clean_ident _

/-- The unique key and the index that come with a column. -/
def inlineUniqueKeys (naming : Naming) (col : ColumnSpec) : List UniqueKey :=
  if col.unique then [inlineUniqueKey naming col] else []

def inlineIndexes (naming : Naming) (col : ColumnSpec) : List Index :=
  if col.index then [inlineIndex naming col] else []

/-- A new column stands in the row and in the table. -/
theorem Sound.addColumn {naming : Naming} {columns : List ColumnSpec} {t t' : Table Name} {col : ColumnSpec}
    (hsound : Sound naming columns t) (hclean : Clean col.name) (hfresh : col.name ∉ columns.map ColumnSpec.name)
    (hnew : col.name ∉ t.columns) (hexec : t.execAll (addColumnStatements naming col) = some t') :
    Sound naming (columns ++ [col]) t' ∧ Table.SameKeys { t with columns := t.columns ++ [col.name] } t' := by
  have hwf := hsound.wellFormed.execAll hexec
  have hnames := hsound.names.execAll addColumnStatements_clean hexec
  obtain ⟨u, hu, hexec⟩ := Table.execAll_cons.mp hexec
  have hadd : { t with columns := t.columns ++ [col.name] } = u := by
    rw [Table.exec, ident_of_clean hclean, if_neg hnew] at hu
    exact Option.some.inj hu
  subst hadd
  have hsame := Table.sameKeys_execAll addColumnStatements_aside hexec
  refine ⟨⟨hwf, hnames, ?_, ?_, ?_⟩, hsame⟩
  · rw [List.map_append, List.map_singleton]
    exact List.nodup_append.mpr ⟨hsound.distinct, List.pairwise_singleton _ _,
      fun a ha b hb he => hfresh (List.mem_singleton.mp hb ▸ he ▸ ha)⟩
  · exact List.forall_mem_append.mpr ⟨hsound.clean, List.forall_mem_singleton.mpr hclean⟩
  · rw [hsame.2.1]
    refine List.forall_mem_append.mpr ⟨hsound.apart, List.forall_mem_singleton.mpr (fun kind hkind => ?_)⟩
    obtain ⟨c, hc, hname⟩ := addColumnStatements_mem naming hkind
    exact hname ▸ Table.name_of_execAll addColumnStatements_aside hc hexec

theorem clean_inlineUniqueKey (naming : Naming) {col : ColumnSpec} (hclean : Clean col.name) :
    Clean (inlineUniqueKey naming col).name ∧ unquoted (inlineUniqueKey naming col) = inlineUniqueKey naming col := by
  have hcols : ∀ c ∈ [col.name], Clean c := List.forall_mem_singleton.mpr hclean
  have hname : Clean (inlineUniqueKey naming col).name := clean_generateConstraintName (by decide) hcols
  exact ⟨hname, unquoted_eq hname hcols⟩

theorem unquoted_inlineIndex {naming : Naming} {col : ColumnSpec} (hclean : Clean col.name) :
    unquoted (inlineIndex naming col) = inlineIndex naming col := by
  have hcols : ∀ c ∈ [col.name], Clean c := List.forall_mem_singleton.mpr hclean
  exact unquoted_eq (clean_generateConstraintName (by decide) hcols) hcols

theorem addInlineUniqueKey_ok {col : ColumnSpec} (hclean : Clean col.name)
    (h : (if col.unique then addUniqueKey env false s (inlineUniqueKey env.toNaming col) else .ok s) = .ok s')
    (hsound : Sound env.toNaming s.columns s.table) : Sound env.toNaming s'.columns s'.table ∧
      s'.row = ⟨s.columns, s.uniqueKeys.now ++ inlineUniqueKeys env.toNaming col, s.indexes.now⟩ ∧
      s'.table = { s.table with uniqueKeys := s.table.uniqueKeys ++ inlineUniqueKeys env.toNaming col } := by
  unfold inlineUniqueKeys
  by_cases hunique : col.unique
  · rw [if_pos hunique] at h
    obtain ⟨t, issued, hexec, rfl⟩ := addUniqueKey_ok h
    obtain ⟨hname, hunquoted⟩ := clean_inlineUniqueKey env.toNaming hclean
    have hsound' : Sound env.toNaming s.columns t := hsound.addUnique hexec (fun c hc kind hkind => by
      rw [ident_of_clean hname]
      exact uniqueName_ne hkind (hsound.clean c hc))
    obtain ⟨-, hexec⟩ := Option.ite_none_right_eq_some.mp hexec
    cases hexec
    rw [hunquoted] at hsound' ⊢
    rw [if_pos hunique]
    exact ⟨hsound', rfl, rfl⟩
  · rw [if_neg hunique] at h
    cases h
    rw [if_neg hunique, List.append_nil, List.append_nil]
    exact ⟨hsound, rfl, rfl⟩

theorem addInlineIndex_ok {col : ColumnSpec} (hclean : Clean col.name)
    (h : (if col.index then addIndex env s (inlineIndex env.toNaming col) else .ok s) = .ok s')
    (hsound : Sound env.toNaming s.columns s.table) : Sound env.toNaming s'.columns s'.table ∧
      s'.row = ⟨s.columns, s.uniqueKeys.now, s.indexes.now ++ inlineIndexes env.toNaming col⟩ ∧
      s'.table = { s.table with indexes := s.table.indexes ++ inlineIndexes env.toNaming col } := by
  unfold inlineIndexes
  by_cases hindex : col.index
  · rw [if_pos hindex] at h
    obtain ⟨t, issued, hexec, rfl⟩ := addIndex_ok h
    have hsound' : Sound env.toNaming s.columns t := hsound.createIndex hexec
    obtain ⟨-, hexec⟩ := Option.ite_none_right_eq_some.mp hexec
    cases hexec
    rw [unquoted_inlineIndex hclean] at hsound' ⊢
    rw [if_pos hindex]
    exact ⟨hsound', rfl, rfl⟩
  · rw [if_neg hindex] at h
    cases h
    rw [if_neg hindex, List.append_nil, List.append_nil]
    exact ⟨hsound, rfl, rfl⟩

/-- A new column comes with its key and index, in the row and in the table. -/
theorem addColumn_ok {col : ColumnSpec} (h : addColumn env s col = .ok s')
    (hsound : Sound env.toNaming s.columns s.table) (hclean : Clean col.name)
    (hfresh : col.name ∉ s.columns.map ColumnSpec.name) (hnew : col.name ∉ s.table.columns) :
    Sound env.toNaming s'.columns s'.table ∧
      s'.row = ⟨s.columns ++ [col], s.uniqueKeys.now ++ inlineUniqueKeys env.toNaming col,
        s.indexes.now ++ inlineIndexes env.toNaming col⟩ ∧
      s'.table.columns = s.table.columns ++ [col.name] ∧
      s'.table.uniqueKeys = s.table.uniqueKeys ++ inlineUniqueKeys env.toNaming col ∧
      s'.table.indexes = s.table.indexes ++ inlineIndexes env.toNaming col := by
  rw [addColumn, if_neg hfresh] at h
  obtain ⟨u, hu, h⟩ := bind_eq_ok.mp h
  obtain ⟨t, issued, hexec, rfl⟩ := issueAll_ok hu
  obtain ⟨ht, hsame⟩ := hsound.addColumn hclean hfresh hnew hexec
  obtain ⟨v, hv, h⟩ := bind_eq_ok.mp h
  obtain ⟨hvsound, hvrow, hvtable⟩ := addInlineUniqueKey_ok hclean hv ht
  obtain ⟨hsound', hrow, htable⟩ := addInlineIndex_ok hclean h hvsound
  obtain ⟨hcolumns, huks, hidxs⟩ := Registry.mk.inj hvrow
  refine ⟨hsound', ?_, ?_, ?_, ?_⟩
  · rw [hrow, hcolumns, huks, hidxs]
  all_goals
    rw [htable, hvtable]
  · exact hsame.1
  · exact congrArg (· ++ _) hsame.2.1
  · exact congrArg (· ++ _) hsame.2.2

/-- The columns that are new when their turn comes. -/
def freshColumns : List Name → List ColumnSpec → List ColumnSpec
  | _, [] => []
  | seen, col :: cols =>
    if col.name ∈ seen then freshColumns seen cols else col :: freshColumns (seen ++ [col.name]) cols

theorem Agrees.addColumn {r : Registry} {t t' : Table Name} {col : ColumnSpec} {uks : List UniqueKey}
    {idxs : List Index} (h : Agrees r t) (hcolumns : t'.columns = t.columns ++ [col.name])
    (huks : t'.uniqueKeys = t.uniqueKeys ++ uks) (hidxs : t'.indexes = t.indexes ++ idxs) :
    Agrees ⟨r.columns ++ [col], r.uniqueKeys ++ uks, r.indexes ++ idxs⟩ t' where
  columns n := by
    rw [hcolumns, List.map_append, List.mem_append, List.mem_append, h.columns, or_assoc]
    rfl
  uniqueKeys k := by rw [huks, List.mem_append, List.mem_append, h.uniqueKeys]
  indexes k := by rw [hidxs, List.mem_append, List.mem_append, h.indexes]

/-- The row and the table agree after the columns are added. -/
theorem addColumns_ok {cols : List ColumnSpec} (h : cols.foldlM (addColumn env) s = .ok s')
    (hsound : Sound env.toNaming s.columns s.table) (hagree : Agrees s.row s.table)
    (hcols : ∀ col ∈ cols, Clean col.name ∧ col.name ∉ reserved) :
    let fresh := freshColumns (s.columns.map ColumnSpec.name) cols
    Sound env.toNaming s'.columns s'.table ∧ Agrees s'.row s'.table ∧
      s'.row = ⟨s.columns ++ fresh, s.uniqueKeys.now ++ fresh.flatMap (inlineUniqueKeys env.toNaming),
        s.indexes.now ++ fresh.flatMap (inlineIndexes env.toNaming)⟩ := by
  induction cols generalizing s with
  | nil =>
    cases h
    refine ⟨hsound, hagree, ?_⟩
    simp [freshColumns, State.row]
  | cons col cols ih =>
    obtain ⟨hcol, hrest⟩ := List.forall_mem_cons.mp hcols
    obtain ⟨u, hu, h⟩ := bind_eq_ok.mp h
    by_cases hfresh : col.name ∈ s.columns.map ColumnSpec.name
    · rw [addColumn, if_pos hfresh] at hu
      cases hu
      rw [freshColumns, if_pos hfresh]
      exact ih h hsound hagree hrest
    · have hnew : col.name ∉ s.table.columns := fun hmem => ((hagree.columns _).mp hmem).elim hcol.2 hfresh
      obtain ⟨husound, hurow, hcolumns, huks, hidxs⟩ := addColumn_ok hu hsound hcol.1 hfresh hnew
      have huagree : Agrees u.row u.table := hurow ▸ hagree.addColumn hcolumns huks hidxs
      obtain ⟨hsound', hagree', hrow⟩ := ih h husound huagree hrest
      obtain ⟨hc, hk, hi⟩ := Registry.mk.inj hurow
      refine ⟨hsound', hagree', ?_⟩
      rw [hrow, hc, hk, hi, freshColumns, if_neg hfresh]
      simp [List.append_assoc]

end Akb.Tables
