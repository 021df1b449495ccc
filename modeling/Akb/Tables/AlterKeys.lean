import Akb.Tables.AlterRename

/-! Altering columns, and dropping and adding keys and indexes: what becomes of the row and
of the table. -/
namespace Akb.Tables
open Akb.Library Akb.Library.Ddl
variable {env : Environment} {registry : Registry} {s s' : State registry}

theorem mem_replaceLast {α : Type} {p : α → Bool} {b c : α} {l : List α} (h : c ∈ replaceLast p b l) : c = b ∨ c ∈ l := by
  induction l with
  | nil => exact Or.inr h
  | cons a as ih =>
    unfold replaceLast at h
    split at h
    · exact (List.mem_cons.mp h).elim (fun he => Or.inr (he ▸ List.mem_cons_self))
        (fun h => (ih h).imp_right (List.mem_cons_of_mem _))
    · split at h
      · exact (List.mem_cons.mp h).imp_right (List.mem_cons_of_mem _)
      · exact Or.inr h

theorem map_replaceLast {α β : Type} {f : α → β} {p : α → Bool} {b : α} {l : List α}
    (h : ∀ a ∈ l, p a → f b = f a) : (replaceLast p b l).map f = l.map f := by
  induction l with
  | nil => rfl
  | cons a as ih =>
    obtain ⟨ha, has⟩ := List.forall_mem_cons.mp h
    unfold replaceLast
    split
    · rw [List.map_cons, ih has, List.map_cons]
    · split
      · rw [List.map_cons, ha (by assumption), List.map_cons]
      · rfl

theorem normalizeColumnSpec_ok {col next : ColumnSpec} (h : normalizeColumnSpec env col = .ok next) :
    next.name = col.name ∧ next.unique = col.unique ∧ next.index = col.index ∧
      next.generatedKinds = col.generatedKinds := by
  obtain ⟨_, -, h⟩ := bind_eq_ok.mp h
  rw [← pure_eq_ok.mp h]
  split <;> exact ⟨rfl, rfl, rfl, rfl⟩

theorem generatedKinds_apply (spec : AlterSpec) (col : ColumnSpec) :
    (spec.apply col).generatedKinds = col.generatedKinds := rfl

theorem createCheckConstraint_aside {naming : Naming} {col : ColumnSpec} {t : Table Name} :
    Asides t [createCheckConstraint naming col] :=
  List.forall_mem_singleton.mpr ⟨trivial, List.forall_mem_singleton.mpr (clean_ident _)⟩

theorem createEnumConstraint_aside {naming : Naming} {col : ColumnSpec} {t : Table Name} :
    Asides t [createEnumConstraint naming col] :=
  List.forall_mem_singleton.mpr ⟨trivial, List.forall_mem_singleton.mpr (clean_ident _)⟩

theorem alterColumn_aside {t : Table Name} {name : Name} : Asides t [.alterColumn name] :=
  List.forall_mem_singleton.mpr ⟨trivial, fun _ h => nomatch h⟩

theorem replaceCheckConstraint_aside {naming : Naming} {t : Table Name} {col : ColumnSpec} (hwf : t.WellFormed)
    (hnames : t.Names Clean) : Asides t (replaceCheckConstraint naming t col) :=
  List.forall_mem_append.mpr ⟨dropColumnCheckConstraints_aside hwf hnames,
    Asides.ite (fun _ => createCheckConstraint_aside)⟩

/-- A column of the row gives way to one of the same name and with the same constraints. -/
theorem Sound.replaceLast {naming : Naming} {columns : List ColumnSpec} {t : Table Name} {p : ColumnSpec → Bool}
    {current next : ColumnSpec} (h : Sound naming columns t) (hcurrent : current ∈ columns)
    (hp : ∀ col ∈ columns, p col → next.name = col.name) (hname : next.name = current.name)
    (hkinds : next.generatedKinds = current.generatedKinds) : Sound naming (Tables.replaceLast p next columns) t where
  wellFormed := h.wellFormed
  names := h.names
  distinct := (map_replaceLast hp).symm ▸ h.distinct
  clean col hcol := by
    rcases mem_replaceLast hcol with rfl | hcol
    · exact hname ▸ h.clean current hcurrent
    · exact h.clean col hcol
  apart col hcol := by
    rcases mem_replaceLast hcol with rfl | hcol
    · rw [hname, hkinds]
      exact h.apart current hcurrent
    · exact h.apart col hcol

/-- An alteration keeps the names in the row, and the keys and indexes of the table. -/
theorem alterColumn_ok {spec : AlterSpec} (h : alterColumn env s spec = .ok s')
    (hsound : Sound env.toNaming s.columns s.table) : Sound env.toNaming s'.columns s'.table ∧
      s'.columns.map ColumnSpec.name = s.columns.map ColumnSpec.name ∧ s'.uniqueKeys.now = s.uniqueKeys.now ∧
      s'.indexes.now = s.indexes.now ∧ s.table.SameKeys s'.table := by
  obtain ⟨current, hcurrent, h⟩ := bind_eq_ok.mp h
  obtain ⟨_, hconflicts, h⟩ := bind_eq_ok.mp h
  obtain ⟨next, hnext, h⟩ := bind_eq_ok.mp h
  obtain ⟨_, -, h⟩ := bind_eq_ok.mp h
  rw [found_eq_ok] at hcurrent
  have hmem : current ∈ s.columns := List.mem_reverse.mp (List.mem_of_find?_eq_some hcurrent)
  have hlower : PyText.lower current.name = PyText.lower spec.name := by simpa using List.find?_some hcurrent
  obtain ⟨hname, -, -, hkinds⟩ := normalizeColumnSpec_ok hnext
  have hnamed : ∀ col ∈ s.columns, decide (PyText.lower col.name = PyText.lower spec.name) → next.name = col.name := by
    intro col hcol hp
    have hp := (of_decide_eq_true hp).trans hlower.symm
    rw [lower_of_clean (hsound.clean col hcol), lower_of_clean (hsound.clean current hmem)] at hp
    exact hname.trans hp.symm
  have henum : spec.setEnum.isSome → current.isEnum := by
    intro hset
    rw [refuse_eq_ok] at hconflicts
    by_contra hnot
    exact hconflicts (by simp [AlterSpec.conflicts, hset, hnot])
  obtain ⟨u₁, hu₁, h⟩ := bind_eq_ok.mp h
  obtain ⟨t₁, issued₁, rfl, hsound₁, hsame₁⟩ := issueAsides_ok hu₁ hsound (Asides.ite (fun hset =>
    List.forall_mem_singleton.mpr
      ⟨hsound.apart current hmem enumKind (mem_generatedKinds.mpr (Or.inl ⟨henum hset, rfl⟩)),
        fun _ h => nomatch h⟩))
  obtain ⟨u₂, hu₂, h⟩ := bind_eq_ok.mp h
  obtain ⟨t₂, issued₂, rfl, hsound₂, hsame₂⟩ := issueAsides_ok hu₂ hsound₁ (Asides.ite (fun _ => alterColumn_aside))
  obtain ⟨u₃, hu₃, h⟩ := bind_eq_ok.mp h
  obtain ⟨t₃, issued₃, rfl, hsound₃, hsame₃⟩ := issueAsides_ok hu₃ hsound₂
    (Asides.ite (fun _ => replaceCheckConstraint_aside hsound₂.wellFormed hsound₂.names))
  obtain ⟨u₄, hu₄, h⟩ := bind_eq_ok.mp h
  obtain ⟨t₄, issued₄, rfl, hsound₄, hsame₄⟩ := issueAsides_ok hu₄ hsound₃ (Asides.ite (fun _ => alterColumn_aside))
  obtain ⟨u₅, hu₅, h⟩ := bind_eq_ok.mp h
  obtain ⟨t₅, issued₅, rfl, hsound₅, hsame₅⟩ :=
    issueAsides_ok hu₅ hsound₄ (Asides.ite (fun _ => createEnumConstraint_aside))
  cases h
  exact ⟨hsound₅.replaceLast hmem hnamed hname (hkinds.trans (generatedKinds_apply spec current)),
    map_replaceLast hnamed, rfl, rfl, (((hsame₁.trans hsame₂).trans hsame₃).trans hsame₄).trans hsame₅⟩

theorem alterColumns_ok {specs : List AlterSpec} (h : alterColumns env specs s = .ok s')
    (hsound : Sound env.toNaming s.columns s.table) : Sound env.toNaming s'.columns s'.table ∧
      s'.columns.map ColumnSpec.name = s.columns.map ColumnSpec.name ∧ s'.uniqueKeys.now = s.uniqueKeys.now ∧
      s'.indexes.now = s.indexes.now ∧ s.table.SameKeys s'.table := by
  induction specs generalizing s with
  | nil =>
    cases h
    exact ⟨hsound, rfl, rfl, rfl, rfl, rfl, rfl⟩
  | cons spec specs ih =>
    obtain ⟨u, hu, h⟩ := bind_eq_ok.mp h
    obtain ⟨husound, hucolumns, huuks, huidxs, husame⟩ := alterColumn_ok hu hsound
    obtain ⟨hsound', hcolumns, huks, hidxs, hsame⟩ := ih h husound
    exact ⟨hsound', hcolumns.trans hucolumns, huks.trans huuks, hidxs.trans huidxs, husame.trans hsame⟩

private theorem issueAll_of_dropUniqueKeys {uks : List UniqueKey} (h : uks.foldlM (dropUniqueKey env) s = .ok s') :
    issueAll env s ((uks.map (fun uk => ident uk.name)).map .dropConstraint) = .ok s' := by
  induction uks generalizing s with
  | nil => exact h
  | cons uk uks ih =>
    obtain ⟨u, hu, h⟩ := bind_eq_ok.mp h
    obtain ⟨_, -, hu⟩ := bind_eq_ok.mp hu
    exact bind_eq_ok.mpr ⟨u, hu, ih h⟩

/-- The names under which keys of the row are dropped from the table. -/
def droppedNames {κ : Type} (keys : List (Key Name κ)) (names : List Name) : List Name :=
  (keys.filter (·.name ∈ names)).map (fun k => ident k.name)

theorem dropUniqueKeys_ok {names : List Name} (h : dropUniqueKeys env names s = .ok s')
    (hsound : Sound env.toNaming s.columns s.table) : Sound env.toNaming s'.columns s'.table ∧
      s'.row = ⟨s.columns, s.uniqueKeys.now.filter (·.name ∉ names), s.indexes.now⟩ ∧
      s'.table.columns = s.table.columns ∧ s'.table.indexes = s.table.indexes ∧
      s'.table.uniqueKeys = s.table.uniqueKeys.filter (·.name ∉ droppedNames s.uniqueKeys.now names) := by
  obtain ⟨u, hu, h⟩ := bind_eq_ok.mp h
  obtain ⟨t, issued, hexec, rfl⟩ := issueAll_ok (issueAll_of_dropUniqueKeys hu)
  cases h
  have hwf := hsound.wellFormed.execAll hexec
  have hnames := hsound.names.execAll (fun st hst n hn => by
    obtain ⟨_, -, rfl⟩ := List.mem_map.mp hst
    cases hn) hexec
  rw [Table.execAll_dropConstraints] at hexec
  cases hexec
  refine ⟨⟨hwf, hnames, hsound.distinct, hsound.clean, fun col hcol kind hkind hmem => ?_⟩, rfl, rfl, rfl,
    by simp [droppedNames]⟩
  obtain ⟨k, hk, hname⟩ := List.mem_map.mp hmem
  exact hsound.apart col hcol kind hkind (List.mem_map.mpr ⟨k, List.mem_of_mem_filter hk, hname⟩)

theorem dropIndexes_ok {names : List Name} (h : dropIndexes env names s = .ok s')
    (hsound : Sound env.toNaming s.columns s.table) : Sound env.toNaming s'.columns s'.table ∧
      s'.row = ⟨s.columns, s.uniqueKeys.now, s.indexes.now.filter (·.name ∉ names)⟩ ∧
      s'.table.columns = s.table.columns ∧ s'.table.uniqueKeys = s.table.uniqueKeys ∧
      s'.table.indexes = s.table.indexes.filter (·.name ∉ droppedNames s.indexes.now names) := by
  obtain ⟨u, hu, h⟩ := bind_eq_ok.mp h
  obtain ⟨t, issued, hexec, rfl⟩ := issueAll_ok hu
  cases h
  have hwf := hsound.wellFormed.execAll hexec
  have hnames := hsound.names.execAll (fun st hst n hn => by
    obtain ⟨_, -, rfl⟩ := List.mem_map.mp hst
    cases hn) hexec
  rw [← Function.comp_def Statement.dropIndex, ← List.map_map] at hexec
  cases Table.execAll_dropIndexes hexec
  exact ⟨⟨hwf, hnames, hsound.distinct, hsound.clean, hsound.apart⟩, rfl, rfl, rfl, by simp [droppedNames]⟩

/-- Every key comes under a name that none had before. -/
theorem addUniqueKeys_ok {uks : List UniqueKey} (h : uks.foldlM (addUniqueKey env true) s = .ok s')
    (hnames : s.table.Names Clean) : s'.table.Names Clean ∧
      s'.row = ⟨s.columns, s.uniqueKeys.now ++ uks, s.indexes.now⟩ ∧ s'.table.columns = s.table.columns ∧
      s'.table.indexes = s.table.indexes ∧ s'.table.uniqueKeys = s.table.uniqueKeys ++ uks.map unquoted ∧
      ∀ uk ∈ uks, ident uk.name ∉ s.table.uniqueKeys.map Key.name := by
  induction uks generalizing s with
  | nil =>
    cases h
    simp [State.row, hnames]
  | cons uk uks ih =>
    obtain ⟨u, hu, h⟩ := bind_eq_ok.mp h
    obtain ⟨t, issued, hexec, rfl⟩ := addUniqueKey_ok hu
    have hnew : ∀ n ∈ (Statement.addUnique (unquoted uk)).names, Clean n :=
      List.forall_mem_singleton.mpr (clean_ident uk.name)
    have hunames := hnames.exec hnew hexec
    obtain ⟨⟨-, hfresh, -⟩, hexec⟩ := Option.ite_none_right_eq_some.mp hexec
    cases hexec
    obtain ⟨hnames', hrow, hcolumns, hidxs, huks, hrest⟩ := ih h hunames
    refine ⟨hnames', ?_, hcolumns, hidxs, ?_, List.forall_mem_cons.mpr ⟨hfresh, fun k hk hmem => ?_⟩⟩
    · rw [hrow]
      simp [Tracked.append, Tracked.update]
    · rw [huks]
      simp
    · exact hrest k hk (by simp [hmem])

theorem addIndexes_ok {idxs : List Index} (h : idxs.foldlM (addIndex env) s = .ok s')
    (hnames : s.table.Names Clean) : s'.table.Names Clean ∧
      s'.row = ⟨s.columns, s.uniqueKeys.now, s.indexes.now ++ idxs⟩ ∧ s'.table.columns = s.table.columns ∧
      s'.table.uniqueKeys = s.table.uniqueKeys ∧ s'.table.indexes = s.table.indexes ++ idxs.map unquoted ∧
      ∀ idx ∈ idxs, ident idx.name ∉ s.table.indexes.map Key.name := by
  induction idxs generalizing s with
  | nil =>
    cases h
    simp [State.row, hnames]
  | cons idx idxs ih =>
    obtain ⟨u, hu, h⟩ := bind_eq_ok.mp h
    obtain ⟨t, issued, hexec, rfl⟩ := addIndex_ok hu
    have hnew : ∀ n ∈ (Statement.createIndex (unquoted idx)).names, Clean n :=
      List.forall_mem_singleton.mpr (clean_ident idx.name)
    have hunames := hnames.exec hnew hexec
    obtain ⟨⟨-, -, hfresh⟩, hexec⟩ := Option.ite_none_right_eq_some.mp hexec
    cases hexec
    obtain ⟨hnames', hrow, hcolumns, huks, hidxs, hrest⟩ := ih h hunames
    refine ⟨hnames', ?_, hcolumns, huks, ?_, List.forall_mem_cons.mpr ⟨hfresh, fun k hk hmem => ?_⟩⟩
    · rw [hrow]
      simp [Tracked.append, Tracked.update]
    · rw [hidxs]
      simp
    · exact hrest k hk (by simp [hmem])

end Akb.Tables
