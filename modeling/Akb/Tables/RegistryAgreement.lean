import Akb.Tables.Reshaping

/-! Whether the row and the table still agree after a request. -/
namespace Akb.Tables
open Akb.Library Akb.Library.Ddl
variable {env : Environment} {registry : Registry}

theorem refuseBadColumnNames_ok {names : List Name} {a : Unit} (h : refuseBadColumnNames names = .ok a) :
    ∀ n ∈ names, Clean n ∧ n ∉ reserved := by
  intro n hn
  unfold refuseBadColumnNames at h
  rw [refuse_eq_ok, not_not, List.filterMap_eq_nil_iff] at h
  exact clean_of_no_problem (Option.map_eq_none_iff.mp (h n hn))

theorem refuseBadDrops_ok {names : List Name} {a : Unit} (h : refuseBadDrops names = .ok a) :
    ∀ n ∈ names, PyText.lower n ∉ reserved := by
  induction names with
  | nil => exact fun n hn => nomatch hn
  | cons n names ih =>
    obtain ⟨_, -, h⟩ := bind_eq_ok.mp h
    obtain ⟨_, hn, h⟩ := bind_eq_ok.mp h
    exact List.forall_mem_cons.mpr ⟨refuse_eq_ok.mp hn, ih h⟩

/-- The names a request gives to new keys and indexes. -/
def Request.givenNames (r : Request) : List Name :=
  r.addUniqueKeys.filterMap KeySpec.name ++ r.addIndexes.filterMap KeySpec.name

/-- What of a new column decides about its key and index. -/
def ColumnSpec.keyed (col : ColumnSpec) : Name × Bool × Bool := (col.name, col.unique, col.index)

theorem normalizeColumnSpecs_ok {cols adds : List ColumnSpec} (h : cols.mapM (normalizeColumnSpec env) = .ok adds) :
    adds.map ColumnSpec.keyed = cols.map ColumnSpec.keyed := by
  induction cols generalizing adds with
  | nil =>
    cases h
    rfl
  | cons col cols ih =>
    rw [List.mapM_cons] at h
    obtain ⟨next, hnext, h⟩ := bind_eq_ok.mp h
    obtain ⟨rest, hrest, h⟩ := bind_eq_ok.mp h
    cases h
    obtain ⟨hname, hunique, hindex, -⟩ := normalizeColumnSpec_ok hnext
    rw [List.map_cons, List.map_cons, ih hrest, ColumnSpec.keyed, hname, hunique, hindex]
    rfl

theorem freshColumns_keyed {cols cols' : List ColumnSpec} {seen : List Name}
    (h : cols.map ColumnSpec.keyed = cols'.map ColumnSpec.keyed) :
    (freshColumns seen cols).map ColumnSpec.keyed = (freshColumns seen cols').map ColumnSpec.keyed := by
  induction cols generalizing seen cols' with
  | nil =>
    cases cols' with
    | nil => rfl
    | cons => cases h
  | cons col cols ih =>
    cases cols' with
    | nil => cases h
    | cons col' cols' =>
      obtain ⟨hcol, hcols⟩ := List.cons.inj h
      have hname : col.name = col'.name := congrArg Prod.fst hcol
      unfold freshColumns
      rw [hname]
      split
      · exact ih hcols
      · rw [List.map_cons, List.map_cons, hcol, ih hcols]

theorem mem_freshColumns {cols : List ColumnSpec} {seen : List Name} {n : Name} :
    n ∈ seen ∨ n ∈ (freshColumns seen cols).map ColumnSpec.name ↔ n ∈ seen ∨ n ∈ cols.map ColumnSpec.name := by
  induction cols generalizing seen with
  | nil => rfl
  | cons col cols ih =>
    unfold freshColumns
    split
    · rename_i hseen
      rw [ih, List.map_cons, List.mem_cons]
      have : n = col.name → n ∈ seen := fun he => he ▸ hseen
      tauto
    · have := @ih (seen ++ [col.name])
      simp only [List.mem_append, List.map_cons, List.mem_cons] at this ⊢
      tauto

theorem checkKeyColumn_ok {columns : List ColumnSpec} {column name : Name}
    (h : checkKeyColumn columns column = .ok name) : name ∈ columns.map ColumnSpec.name := by
  obtain ⟨_, -, h⟩ := bind_eq_ok.mp h
  obtain ⟨_, -, h⟩ := bind_eq_ok.mp h
  obtain ⟨col, hcol, h⟩ := bind_eq_ok.mp h
  cases h
  exact List.mem_map_of_mem (List.mem_reverse.mp (List.mem_of_find?_eq_some (found_eq_ok.mp hcol)))

theorem resolveColumns_ok {κ κ' : Type} {columns : List ColumnSpec} {detail : κ → κ'} {seen : List Name}
    {said : List (Name × κ)} {resolved : List (Name × κ')} (h : resolveColumns columns detail seen said = .ok resolved) :
    ∀ p ∈ resolved, p.1 ∈ columns.map ColumnSpec.name := by
  induction said generalizing seen resolved with
  | nil =>
    cases h
    exact fun p hp => nomatch hp
  | cons p said ih =>
    obtain ⟨name, hname, h⟩ := bind_eq_ok.mp h
    obtain ⟨_, -, h⟩ := bind_eq_ok.mp h
    obtain ⟨rest, hrest, h⟩ := bind_eq_ok.mp h
    cases h
    exact List.forall_mem_cons.mpr ⟨checkKeyColumn_ok hname, ih hrest⟩

/-- A resolved key is over columns of the row, and clean unless the caller named it otherwise. -/
theorem resolveKeys_ok {κ κ' : Type} {naming : Naming} {kind : Name} {columns : List ColumnSpec} {detail : κ → κ'}
    {seen : List Name} {specs : List (KeySpec κ)} {keys : List (Key Name κ')} (hkind : kind ∈ kinds)
    (hcolumns : ∀ col ∈ columns, Clean col.name) (h : resolveKeys naming kind columns detail seen specs = .ok keys) :
    (∀ k ∈ keys, ∀ c ∈ k.names, Clean c) ∧
      ((∀ k ∈ keys, Clean k.name) ↔ ∀ n ∈ specs.filterMap KeySpec.name, Clean (safeIdent n)) := by
  induction specs generalizing seen keys with
  | nil =>
    cases h
    exact ⟨fun k hk => (nomatch hk), iff_of_true (fun k hk => nomatch hk) (fun n hn => nomatch hn)⟩
  | cons spec specs ih =>
    obtain ⟨_, -, h⟩ := bind_eq_ok.mp h
    obtain ⟨resolved, hresolved, h⟩ := bind_eq_ok.mp h
    obtain ⟨name, hname, h⟩ := bind_eq_ok.mp h
    obtain ⟨_, -, h⟩ := bind_eq_ok.mp h
    obtain ⟨rest, hrest, h⟩ := bind_eq_ok.mp h
    cases h
    obtain ⟨hrestColumns, hrestNames⟩ := ih hrest
    have hclean : ∀ c ∈ resolved.map Prod.fst, Clean c := by
      refine List.forall_mem_map.mpr (fun p hp => ?_)
      obtain ⟨col, hcol, he⟩ := List.mem_map.mp (resolveColumns_ok hresolved p hp)
      exact he ▸ hcolumns col hcol
    refine ⟨List.forall_mem_cons.mpr ⟨hclean, hrestColumns⟩, ?_⟩
    rw [List.forall_mem_cons, hrestNames]
    cases hspec : spec.name with
    | none =>
      rw [hspec] at hname
      cases hname
      rw [List.filterMap_cons_none hspec, and_iff_right (clean_generateConstraintName hkind hclean)]
    | some n =>
      rw [hspec] at hname
      obtain ⟨_, -, hname⟩ := bind_eq_ok.mp hname
      obtain ⟨_, -, hname⟩ := bind_eq_ok.mp hname
      cases hname
      rw [List.filterMap_cons_some hspec, List.forall_mem_cons]

/-- The keys and indexes of the request leave row and table in agreement exactly when
they came to agree before, and the new names are read as they are written. -/
theorem keyOperations_ok {r : Request} {s₅ s₆ s₇ s₈ s₉ : State registry}
    (h₆ : dropUniqueKeys env r.dropUniqueKeys s₅ = .ok s₆) (h₇ : dropIndexes env r.dropIndexes s₆ = .ok s₇)
    (h₈ : addUniqueKeys env r.addUniqueKeys s₇ = .ok s₈) (h₉ : addIndexes env r.addIndexes s₈ = .ok s₉)
    (hsound : Sound env.toNaming s₅.columns s₅.table) :
    s₉.columns = s₅.columns ∧ s₉.table.columns = s₅.table.columns ∧
      (s₅.uniqueKeys.now ⊆ s₅.table.uniqueKeys ∧ s₅.indexes.now ⊆ s₅.table.indexes →
        (((∀ k, k ∈ s₉.uniqueKeys.now ↔ k ∈ s₉.table.uniqueKeys) ∧ ∀ k, k ∈ s₉.indexes.now ↔ k ∈ s₉.table.indexes) ↔
          (s₅.table.uniqueKeys ⊆ s₅.uniqueKeys.now ∧ s₅.table.indexes ⊆ s₅.indexes.now) ∧
            ∀ n ∈ r.givenNames, Clean (safeIdent n))) := by
  obtain ⟨hsound₆, hrow₆, hcolumns₆, hidx₆, huk₆⟩ := dropUniqueKeys_ok h₆ hsound
  obtain ⟨hsound₇, hrow₇, hcolumns₇, huk₇, hidx₇⟩ := dropIndexes_ok h₇ hsound₆
  obtain ⟨uks, huksOk, h₈⟩ := bind_eq_ok.mp h₈
  obtain ⟨hnames₈, hrow₈, hcolumns₈, hidx₈, huk₈, hfreshUks⟩ := addUniqueKeys_ok h₈ hsound₇.names
  obtain ⟨idxs, hidxsOk, h₉⟩ := bind_eq_ok.mp h₉
  obtain ⟨-, hrow₉, hcolumns₉, huk₉, hidx₉, hfreshIdxs⟩ := addIndexes_ok h₉ hnames₈
  obtain ⟨hc₆, hu₆, hi₆⟩ := Registry.mk.inj hrow₆
  obtain ⟨hc₇, hu₇, hi₇⟩ := Registry.mk.inj hrow₇
  obtain ⟨hc₈, hu₈, hi₈⟩ := Registry.mk.inj hrow₈
  obtain ⟨hc₉, hu₉, hi₉⟩ := Registry.mk.inj hrow₉
  obtain ⟨huksColumns, huksNames⟩ := resolveKeys_ok (by decide) hsound₇.clean huksOk
  obtain ⟨hidxsColumns, hidxsNames⟩ := resolveKeys_ok (by decide) (hc₈ ▸ hsound₇.clean) hidxsOk
  rw [huk₇, huk₆] at huk₈ hfreshUks
  rw [hidx₈, hidx₇, hidx₆] at hidx₉ hfreshIdxs
  rw [hi₆] at hi₇ hidx₉ hfreshIdxs
  refine ⟨hc₉.trans (hc₈.trans (hc₇.trans hc₆)), hcolumns₉.trans (hcolumns₈.trans (hcolumns₇.trans hcolumns₆)),
    fun ⟨huks, hidxs⟩ => ?_⟩
  have huk := named_agree_iff r.dropUniqueKeys huks hsound.wellFormed.uniqueNamed hsound.names.uniqueKeys huksColumns
    hfreshUks
  have hidx := named_agree_iff r.dropIndexes hidxs hsound.wellFormed.indexNamed hsound.names.indexes hidxsColumns
    hfreshIdxs
  rw [hu₉, hu₈, hu₇, hu₆, huk₉, huk₈, hi₉, hi₈, hi₇, hidx₉, huk, hidx, huksNames, hidxsNames, Request.givenNames,
    List.forall_mem_append]
  tauto

/-- Dropping and renaming columns, in the row and in the table. -/
theorem columnOperations_ok {r : Request} {s₁ s₂ s₃ : State registry}
    (h₂ : dropColumns env r.dropColumns s₁ = .ok s₂) (h₃ : renameColumns env r.renameColumns s₂ = .ok s₃)
    (hsound : Sound env.toNaming s₁.columns s₁.table) (hagree : Agrees s₁.row s₁.table)
    (hdrops : ∀ d ∈ r.dropColumns, PyText.lower d ∉ reserved)
    (hrenames : ∀ p ∈ r.renameColumns, (Clean p.1 ∧ p.1 ∉ reserved) ∧ Clean p.2 ∧ p.2 ∉ reserved) :
    Reshaping r.dropColumns r.renameColumns (s₁.columns.map ColumnSpec.name) s₁.table.columns ∧
      Sound env.toNaming s₃.columns s₃.table ∧ s₃.uniqueKeys.now = s₁.uniqueKeys.now ∧
      s₃.indexes.now = s₁.indexes.now ∧
      s₃.columns.map ColumnSpec.name =
        ((s₁.columns.map ColumnSpec.name).filter (· ∉ r.dropColumns)).map (replaceAll r.renameColumns) ∧
      s₃.table.columns =
        (s₁.table.columns.filter (· ∉ r.dropColumns.map ident)).map (replaceAll r.renameColumns) ∧
      s₃.table.uniqueKeys = reshaped r.dropColumns r.renameColumns s₁.table.uniqueKeys ∧
      s₃.table.indexes = reshaped r.dropColumns r.renameColumns s₁.table.indexes := by
  obtain ⟨hrow₂, htable₂⟩ := dropColumns_ok h₂
  obtain ⟨hc₂, hu₂, hi₂⟩ := Registry.mk.inj hrow₂
  have hsound₂ : Sound env.toNaming s₂.columns s₂.table := by
    rw [hc₂, htable₂]
    exact hsound.dropColumns _ _
  obtain ⟨hsound₃, hc₃, hu₃, hi₃, ⟨htc₃, htu₃, hti₃⟩, hrenaming⟩ :=
    renameColumns_ok h₃ hsound₂ (fun p hp => ⟨(hrenames p hp).1.1, (hrenames p hp).2.1⟩)
  have hnames₂ : s₂.columns.map ColumnSpec.name =
      (s₁.columns.map ColumnSpec.name).filter (· ∉ r.dropColumns) := by
    rw [hc₂, List.filter_map]
    rfl
  have hphysical₂ : s₂.table.columns = s₁.table.columns.filter (· ∉ r.dropColumns.map ident) := by
    simp [htable₂, Table.dropColumns]
  refine ⟨⟨hagree.columns, List.forall_mem_map.mpr hsound.clean, hdrops, fun p hp => ?_, fun p hp => ?_⟩, hsound₃,
    hu₃.trans hu₂, hi₃.trans hi₂, ?_, ?_, ?_, ?_⟩
  · obtain ⟨hrow, hphysical⟩ := hrenaming.sources p hp
    rw [hnames₂, List.mem_filter, decide_eq_true_eq] at hrow
    rw [hphysical₂, List.mem_filter, decide_eq_true_eq] at hphysical
    exact ⟨hrow.1, hrow.2, hphysical.2, (hrenames p hp).1.2⟩
  · exact ⟨hnames₂ ▸ hrenaming.targets p hp, (hrenames p hp).2.2, (hrenames p hp).2.1⟩
  · rw [hc₃, hnames₂]
  · rw [htc₃, Table.rename, hphysical₂]
  · rw [htu₃, htable₂]
    simp [reshaped, Table.rename, Table.dropColumns]
  · rw [hti₃, htable₂]
    simp [reshaped, Table.rename, Table.dropColumns]

/-- The columns of the keys and indexes that a request finds in the row, or brings with
its new columns. -/
def Request.keyColumns (r : Request) (registry : Registry) : List (List Name) :=
  let fresh := freshColumns (registry.columns.map ColumnSpec.name) r.addColumns
  (registry.uniqueKeys.map Key.names ++ (fresh.filter ColumnSpec.unique).map (fun c => [c.name])) ++
    (registry.indexes.map Key.names ++ (fresh.filter ColumnSpec.index).map (fun c => [c.name]))

theorem names_inlineUniqueKeys (naming : Naming) (fresh : List ColumnSpec) :
    (fresh.flatMap (inlineUniqueKeys naming)).map Key.names = (fresh.filter ColumnSpec.unique).map (fun c => [c.name]) := by
  induction fresh with
  | nil => rfl
  | cons col fresh ih =>
    rw [List.flatMap_cons, List.map_append, ih, inlineUniqueKeys, List.filter_cons]
    split <;> rfl

theorem names_inlineIndexes (naming : Naming) (fresh : List ColumnSpec) :
    (fresh.flatMap (inlineIndexes naming)).map Key.names = (fresh.filter ColumnSpec.index).map (fun c => [c.name]) := by
  induction fresh with
  | nil => rfl
  | cons col fresh ih =>
    rw [List.flatMap_cons, List.map_append, ih, inlineIndexes, List.filter_cons]
    split <;> rfl

/-- Whether a column has a key decides nothing else about it. -/
theorem names_of_keyed {fresh fresh' : List ColumnSpec} (h : fresh.map ColumnSpec.keyed = fresh'.map ColumnSpec.keyed) :
    (fresh.filter ColumnSpec.unique).map (fun c => [c.name]) = (fresh'.filter ColumnSpec.unique).map (fun c => [c.name]) ∧
      (fresh.filter ColumnSpec.index).map (fun c => [c.name]) =
        (fresh'.filter ColumnSpec.index).map (fun c => [c.name]) := by
  have hunique := congrArg (fun l => (l.filter (fun p : Name × Bool × Bool => p.2.1)).map (fun p => [p.1])) h
  have hindex := congrArg (fun l => (l.filter (fun p : Name × Bool × Bool => p.2.2)).map (fun p => [p.1])) h
  simp only [List.filter_map, List.map_map] at hunique hindex
  exact ⟨hunique, hindex⟩

theorem columnNames_clean {r : Request} {a : Unit} (h : refuseBadColumnNames r.columnNames = .ok a) :
    (∀ col ∈ r.addColumns, Clean col.name ∧ col.name ∉ reserved) ∧
      ∀ p ∈ r.renameColumns, (Clean p.1 ∧ p.1 ∉ reserved) ∧ Clean p.2 ∧ p.2 ∉ reserved := by
  have hnames := refuseBadColumnNames_ok h
  unfold Request.columnNames at hnames
  rw [List.forall_mem_append, List.forall_mem_append, List.forall_mem_map] at hnames
  refine ⟨hnames.1.1, fun p hp => ⟨hnames.2 p.1 ?_, hnames.2 p.2 ?_⟩⟩
  · exact List.mem_flatMap.mpr ⟨p, hp, List.mem_cons_self⟩
  · exact List.mem_flatMap.mpr ⟨p, hp, List.mem_cons_of_mem _ List.mem_cons_self⟩

/-- When row and table still agree after a request. -/
structure Request.Faithful (r : Request) (registry : Registry) : Prop where
  drops : DropsByName r.dropColumns (registry.columns.map ColumnSpec.name ++ r.addColumns.map ColumnSpec.name)
  keys : ∀ columns ∈ r.keyColumns registry, KeyFollows r.dropColumns r.renameColumns columns
  names : ∀ n ∈ r.givenNames, Clean (safeIdent n)

/-- After the columns are dropped and renamed, the keys of the row are among those of the table. -/
theorem mirrored_agree {r : Request} {s₁ : State registry} {columns physical : List Name}
    (h : Reshaping r.dropColumns r.renameColumns columns physical) (hdrops : DropsByName r.dropColumns columns)
    (hagree : Agrees s₁.row s₁.table) (hwf : s₁.table.WellFormed) (hphysical : s₁.table.columns = physical) :
    (mirrored r.dropColumns r.renameColumns s₁.uniqueKeys.now ⊆
        reshaped r.dropColumns r.renameColumns s₁.table.uniqueKeys ∧
      mirrored r.dropColumns r.renameColumns s₁.indexes.now ⊆
        reshaped r.dropColumns r.renameColumns s₁.table.indexes) ∧
      (reshaped r.dropColumns r.renameColumns s₁.table.uniqueKeys ⊆
          mirrored r.dropColumns r.renameColumns s₁.uniqueKeys.now ∧
        reshaped r.dropColumns r.renameColumns s₁.table.indexes ⊆
          mirrored r.dropColumns r.renameColumns s₁.indexes.now ↔
        ∀ names ∈ s₁.uniqueKeys.now.map Key.names ++ s₁.indexes.now.map Key.names,
          KeyFollows r.dropColumns r.renameColumns names) := by
  obtain ⟨huks, huksFollow⟩ := h.keys_agree hdrops hagree.uniqueKeys (hphysical ▸ hwf.uniqueOver)
  obtain ⟨hidxs, hidxsFollow⟩ := h.keys_agree hdrops hagree.indexes (hphysical ▸ hwf.indexOver)
  refine ⟨⟨huks, hidxs⟩, ?_⟩
  rw [List.forall_mem_append, List.forall_mem_map, List.forall_mem_map]
  exact and_congr huksFollow hidxsFollow

/-- The row after the columns are added: its names, and the columns of its keys and indexes. -/
theorem addedColumns_ok {r : Request} {adds : List ColumnSpec} {table : Table Name} {s₁ : State registry}
    (hadds : r.addColumns.mapM (normalizeColumnSpec env) = .ok adds)
    (h₁ : addColumns env adds (start registry table) = .ok s₁) (hagree : Agrees registry table)
    (hsound : Sound env.toNaming registry.columns table)
    (hcols : ∀ col ∈ r.addColumns, Clean col.name ∧ col.name ∉ reserved) :
    Sound env.toNaming s₁.columns s₁.table ∧ Agrees s₁.row s₁.table ∧
      (∀ n, n ∈ s₁.columns.map ColumnSpec.name ↔
        n ∈ registry.columns.map ColumnSpec.name ++ r.addColumns.map ColumnSpec.name) ∧
      s₁.uniqueKeys.now.map Key.names ++ s₁.indexes.now.map Key.names = r.keyColumns registry := by
  obtain ⟨_, -, h₁⟩ := bind_eq_ok.mp h₁
  have hkeyed := normalizeColumnSpecs_ok hadds
  have hnames : adds.map ColumnSpec.name = r.addColumns.map ColumnSpec.name := by
    have := congrArg (List.map Prod.fst) hkeyed
    rwa [List.map_map, List.map_map] at this
  have hadds : ∀ col ∈ adds, Clean col.name ∧ col.name ∉ reserved := by
    rw [← List.forall_mem_map (P := fun n => Clean n ∧ n ∉ reserved), hnames, List.forall_mem_map]
    exact hcols
  obtain ⟨hsound₁, hagree₁, hrow⟩ := addColumns_ok h₁ hsound hagree hadds
  obtain ⟨hc, hu, hi⟩ := Registry.mk.inj hrow
  have hfresh : (freshColumns (registry.columns.map ColumnSpec.name) adds).map ColumnSpec.keyed =
      (freshColumns (registry.columns.map ColumnSpec.name) r.addColumns).map ColumnSpec.keyed :=
    freshColumns_keyed hkeyed
  obtain ⟨hunique, hindex⟩ := names_of_keyed hfresh
  refine ⟨hsound₁, hagree₁, fun n => ?_, ?_⟩
  · rw [hc, List.map_append, List.mem_append, List.mem_append, ← hnames]
    exact mem_freshColumns
  · rw [hu, hi, List.map_append, List.map_append, names_inlineUniqueKeys, names_inlineIndexes]
    exact congrArg₂ (fun u i => (registry.uniqueKeys.map Key.names ++ u) ++ (registry.indexes.map Key.names ++ i))
      hunique hindex

theorem dropsByName_congr {drops columns columns' : List Name} (h : ∀ n, n ∈ columns ↔ n ∈ columns') :
    DropsByName drops columns ↔ DropsByName drops columns' := by simp only [DropsByName, h]

/-- A row that agrees with its table agrees with it after a request exactly when the request
names every column it drops as PostgreSQL does, no key of the row goes by a dropped name
unless the table drops it too, and the new keys have lower-case names. -/
theorem registry_agrees_iff {r : Request} {registry' : Registry} {table table' : Table Name}
    (hagree : Agrees registry table) (hsound : Sound env.toNaming registry.columns table)
    (h : alterTable env r registry table = .ok (registry', table')) :
    Agrees registry' table' ↔ r.Faithful registry := by
  obtain ⟨_, hnames, h⟩ := bind_eq_ok.mp h
  obtain ⟨hcols, hrenames⟩ := columnNames_clean hnames
  obtain ⟨adds, hadds, h⟩ := bind_eq_ok.mp h
  obtain ⟨_, hdrops, h⟩ := bind_eq_ok.mp h
  obtain ⟨s₁, h₁, h⟩ := bind_eq_ok.mp h
  obtain ⟨s₂, h₂, h⟩ := bind_eq_ok.mp h
  obtain ⟨s₃, h₃, h⟩ := bind_eq_ok.mp h
  obtain ⟨s₅, h₅, h⟩ := bind_eq_ok.mp h
  obtain ⟨s₆, h₆, h⟩ := bind_eq_ok.mp h
  obtain ⟨s₇, h₇, h⟩ := bind_eq_ok.mp h
  obtain ⟨s₈, h₈, h⟩ := bind_eq_ok.mp h
  obtain ⟨s₉, h₉, h⟩ := bind_eq_ok.mp h
  obtain ⟨hsound₁, hagree₁, hmem₁, hkeys₁⟩ := addedColumns_ok hadds h₁ hagree hsound hcols
  obtain ⟨hreshaping, hsound₃, huk₃, hidx₃, hc₃, htc₃, htu₃, hti₃⟩ :=
    columnOperations_ok h₂ h₃ hsound₁ hagree₁ (refuseBadDrops_ok hdrops) hrenames
  obtain ⟨hsound₅, hc₅, huk₅, hidx₅, htc₅, htu₅, hti₅⟩ := alterColumns_ok h₅ hsound₃
  replace hc₅ : s₅.columns.map ColumnSpec.name = s₃.columns.map ColumnSpec.name := hc₅
  replace htc₅ : s₅.table.columns = s₃.table.columns := htc₅
  have hmirroredUks : s₅.uniqueKeys.now = mirrored r.dropColumns r.renameColumns s₁.uniqueKeys.now := by
    rw [huk₅, ← huk₃]
    rfl
  have hmirroredIdxs : s₅.indexes.now = mirrored r.dropColumns r.renameColumns s₁.indexes.now := by
    rw [hidx₅, ← hidx₃]
    rfl
  have htableUks := htu₅.trans htu₃
  have htableIdxs := hti₅.trans hti₃
  have hcolumns := hreshaping.columns_agree_iff
  rw [← hc₃, ← hc₅, ← htc₃, ← htc₅, dropsByName_congr hmem₁] at hcolumns
  have hstage : DropsByName r.dropColumns (s₁.columns.map ColumnSpec.name) → _ := fun hdropped =>
    mirrored_agree hreshaping hdropped hagree₁ hsound₁.wellFormed rfl
  rw [dropsByName_congr hmem₁, ← hmirroredUks, ← hmirroredIdxs, ← htableUks, ← htableIdxs, hkeys₁] at hstage
  obtain ⟨hcolumns₉, htableColumns₉, hkeys₉⟩ := keyOperations_ok h₆ h₇ h₈ h₉ hsound₅
  rw [← hcolumns₉, ← htableColumns₉] at hcolumns
  cases h
  rw [State.written_eq]
  constructor
  · intro hagree'
    have hdropped := hcolumns.mp hagree'.columns
    obtain ⟨hsub, hfollow⟩ := hstage hdropped
    obtain ⟨hback, hgiven⟩ := (hkeys₉ hsub).mp ⟨hagree'.uniqueKeys, hagree'.indexes⟩
    exact ⟨hdropped, hfollow.mp hback, hgiven⟩
  · intro hfaithful
    obtain ⟨hsub, hfollow⟩ := hstage hfaithful.drops
    obtain ⟨huks, hidxs⟩ := (hkeys₉ hsub).mpr ⟨hfollow.mpr hfaithful.keys, hfaithful.names⟩
    exact ⟨hcolumns.mpr hfaithful.drops, huks, hidxs⟩

section Posts

def posts : Environment where
  pgName := "vt_blog__posts".toList
  pgName_chars := by decide
  sha1 _ := []
  sha1_chars _ _ h := nomatch h
  accepts _ _ := true
  specOk _ := true
  referencesOk _ := true
  referenced _ := false
  duplicates _ _ := false

def textColumn (name : String) : ColumnSpec := ⟨name.toList, "text", false, false, false, none, none, [], none⟩

def byTitle : UniqueKey := ⟨"by_title".toList, [("title".toList, ())]⟩
def byAuthor : Index := ⟨"by_author".toList, [("author".toList, .asc)]⟩

def postsRow : Registry := ⟨[textColumn "title", textColumn "author"], [byTitle], [byAuthor]⟩
def postsTable : Table Name := ⟨reserved ++ ["title".toList, "author".toList], [byTitle], [byAuthor], []⟩

def dropAndRename (drops : List Name) (renames : List (Name × Name)) : Request := ⟨[], [], drops, renames, [], [], [], []⟩

private theorem posts_agree : Agrees postsRow postsTable :=
  ⟨fun _ => List.mem_append, fun _ => Iff.rfl, fun _ => Iff.rfl⟩

private theorem posts_sound : Sound posts.toNaming postsRow.columns postsTable :=
  .of_constraints ⟨by unfold Over; decide, by unfold Over; decide, by unfold Named; decide, by unfold Named; decide,
    by decide⟩ ⟨by decide, by decide, by decide, by decide⟩ (by decide) posts_agree (by decide)

/-- A column goes with its key, and another takes its index to a new name. -/
theorem posts_agree_after : Agrees ⟨[textColumn "writer"], [], [⟨"by_author".toList, [("writer".toList, .asc)]⟩]⟩
      ⟨reserved ++ ["writer".toList], [], [⟨"by_author".toList, [("writer".toList, .asc)]⟩], []⟩ ↔
    (dropAndRename ["title".toList] [("author".toList, "writer".toList)]).Faithful postsRow :=
  registry_agrees_iff posts_agree posts_sound rfl

/-- The table drops `title` under the name `Title`; the row keeps it. -/
theorem posts_part : Agrees postsRow postsTable ∧ Sound posts.toNaming postsRow.columns postsTable ∧
    ∃ registry' table', alterTable posts (dropAndRename ["Title".toList] []) postsRow postsTable =
      .ok (registry', table') ∧ "title".toList ∈ registry'.columns.map ColumnSpec.name ∧
        "title".toList ∉ table'.columns ∧ ¬ Agrees registry' table' :=
  ⟨posts_agree, posts_sound, _, _, rfl, by decide, by decide,
    fun h => absurd ((h.columns "title".toList).mpr (Or.inr (by decide))) (by decide)⟩

end Posts

end Akb.Tables
