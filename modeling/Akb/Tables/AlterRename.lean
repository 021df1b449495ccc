import Akb.Tables.AlterRules
import Mathlib.Data.List.Nodup

/-! Dropping and renaming columns: what becomes of the row and of the table. -/
namespace Akb.Tables
open Akb.Library Akb.Library.Ddl
variable {env : Environment} {registry : Registry} {s s' : State registry}

theorem dropColumns_ok {names : List Name} (h : dropColumns env names s = .ok s') :
    s'.row = ⟨s.columns.filter (·.name ∉ names), s.uniqueKeys.now, s.indexes.now⟩ ∧
      s'.table = s.table.dropColumns (names.map ident) := by
  obtain ⟨_, -, h⟩ := bind_eq_ok.mp h
  obtain ⟨u, hu, h⟩ := bind_eq_ok.mp h
  obtain ⟨t, issued, hexec, rfl⟩ := issueAll_ok hu
  cases h
  rw [← Function.comp_def Statement.dropColumn ident, ← List.map_map, Table.execAll_dropColumns] at hexec
  exact ⟨rfl, (Option.some.inj hexec).symm⟩

theorem Sound.dropColumns {naming : Naming} {columns : List ColumnSpec} {t : Table Name} (h : Sound naming columns t)
    (p : ColumnSpec → Bool) (names : List Name) : Sound naming (columns.filter p) (t.dropColumns names) where
  wellFormed := h.wellFormed.dropColumns names
  names := ⟨fun c hc => h.names.columns c (List.mem_of_mem_filter hc),
    fun k hk => h.names.uniqueKeys k (List.mem_of_mem_filter hk),
    fun k hk => h.names.indexes k (List.mem_of_mem_filter hk),
    fun c hc => h.names.constraints c (List.mem_of_mem_filter hc)⟩
  distinct := h.distinct.sublist (List.filter_sublist.map _)
  clean col hcol := h.clean col (List.mem_of_mem_filter hcol)
  apart col hcol kind hkind hmem := by
    obtain ⟨k, hk, hname⟩ := List.mem_map.mp hmem
    exact h.apart col (List.mem_of_mem_filter hcol) kind hkind (hname ▸ List.mem_map_of_mem (List.mem_of_mem_filter hk))

theorem dropColumnCheckConstraints_aside {t : Table Name} {col : Name} (hwf : t.WellFormed) (hnames : t.Names Clean) :
    Asides t (dropColumnCheckConstraints t col) := by
  intro st hst
  obtain ⟨c, hc, rfl⟩ := List.mem_map.mp hst
  have hmem := List.mem_of_mem_filter hc
  refine ⟨fun hn => ?_, fun n hn => nomatch hn⟩
  rw [ident_of_clean (hnames.constraints c hmem)] at hn
  obtain ⟨k, hk, hname⟩ := List.mem_map.mp hn
  exact hwf.apart k hk c hmem hname.symm

/-- The statements that replace the constraints of a column touch no unique key. -/
theorem replaceConstraints_aside {naming : Naming} {old updated : ColumnSpec} {t : Table Name}
    (hapart : ∀ kind ∈ old.generatedKinds, generatedConstraint naming kind old.name ∉ t.uniqueKeys.map Key.name) :
    Asides t (replaceConstraints naming old old.name updated) := by
  intro st hst
  simp only [replaceConstraints, List.mem_append] at hst
  rcases hst with h | h | h <;> split at h <;> simp at h
  · rename_i henum
    rcases h with rfl | rfl
    · exact ⟨hapart enumKind (mem_generatedKinds.mpr (Or.inl ⟨henum, rfl⟩)), fun n hn => absurd hn List.not_mem_nil⟩
    · exact ⟨trivial, fun n hn => List.mem_singleton.mp hn ▸ clean_ident _⟩
  · exact h ▸ ⟨trivial, fun n hn => List.mem_singleton.mp hn ▸ clean_ident _⟩
  · rename_i hreferences
    rcases h with rfl | rfl
    · exact ⟨hapart foreignKeyKind (mem_generatedKinds.mpr (Or.inr ⟨hreferences, rfl⟩)), fun n hn => absurd hn List.not_mem_nil⟩
    · exact ⟨trivial, fun n hn => List.mem_singleton.mp hn ▸ clean_ident _⟩

theorem replaceConstraints_mem (naming : Naming) {old : ColumnSpec} (updated : ColumnSpec) {kind : Name}
    (h : kind ∈ old.generatedKinds) : ∃ c, .addConstraint c ∈ replaceConstraints naming old old.name updated ∧
      c.name = generatedConstraint naming kind updated.name := by
  rcases mem_generatedKinds.mp h with ⟨hcol, rfl⟩ | ⟨hcol, rfl⟩
  · exact ⟨⟨generatedConstraint naming enumKind updated.name, .check, [ident updated.name]⟩,
      by simp [replaceConstraints, createEnumConstraint, hcol], rfl⟩
  · exact ⟨⟨generatedConstraint naming foreignKeyKind updated.name, .foreignKey, [ident updated.name]⟩,
      by simp [replaceConstraints, createForeignKeyConstraint, hcol], rfl⟩

theorem Sound.rename {naming : Naming} {columns : List ColumnSpec} {t : Table Name} (h : Sound naming columns t)
    {f : Name → Name} (hf : ∀ c ∈ t.columns, Clean (f c)) : Sound naming columns (t.rename f) where
  wellFormed := h.wellFormed.rename f
  names := ⟨List.forall_mem_map.mpr hf, List.forall_mem_map.mpr h.names.uniqueKeys,
    List.forall_mem_map.mpr h.names.indexes, List.forall_mem_map.mpr h.names.constraints⟩
  distinct := h.distinct
  clean := h.clean
  apart := by
    have hnames : (t.rename f).uniqueKeys.map Key.name = t.uniqueKeys.map Key.name := by
      simp [Table.rename, Function.comp_def]
    rw [hnames]
    exact h.apart

theorem map_name_renamed (old new : Name) (columns : List ColumnSpec) :
    (columns.map (ColumnSpec.renamed old new)).map ColumnSpec.name =
      (columns.map ColumnSpec.name).map (replace old new) := by
  rw [List.map_map, List.map_map]
  refine List.map_congr_left (fun col _ => ?_)
  simp only [Function.comp, ColumnSpec.renamed, replace]
  split <;> rfl

/-- The row of a table whose column got another name. -/
theorem Sound.renamed {naming : Naming} {columns : List ColumnSpec} {t : Table Name} {old new : Name}
    (h : Sound naming columns t) (hnew : Clean new) (hfree : new ∉ columns.map ColumnSpec.name)
    (hapart : ∀ col ∈ columns, col.name = old → ∀ kind ∈ col.generatedKinds,
      generatedConstraint naming kind new ∉ t.uniqueKeys.map Key.name) :
    Sound naming (columns.map (ColumnSpec.renamed old new)) t where
  wellFormed := h.wellFormed
  names := h.names
  distinct := by
    rw [map_name_renamed]
    refine List.Nodup.map_on (fun a ha b hb hab => ?_) h.distinct
    unfold replace at hab
    split at hab <;> split at hab
    · simp [*]
    · exact absurd (hab ▸ hb) hfree
    · exact absurd (hab ▸ ha) hfree
    · exact hab
  clean := by
    refine List.forall_mem_map.mpr (fun col hcol => ?_)
    unfold ColumnSpec.renamed
    split
    · exact hnew
    · exact h.clean col hcol
  apart := by
    refine List.forall_mem_map.mpr (fun col hcol => ?_)
    unfold ColumnSpec.renamed
    split
    · exact hapart col hcol (by assumption)
    · exact h.apart col hcol

/-- Of columns with distinct names, the first and the last of a name are the same. -/
theorem find?_eq_of_mem {columns : List ColumnSpec} {col : ColumnSpec} {l : List ColumnSpec}
    (hdistinct : (columns.map ColumnSpec.name).Nodup) (hl : ∀ c, c ∈ l ↔ c ∈ columns) (hcol : col ∈ columns) :
    l.find? (·.name = col.name) = some col := by
  cases hfind : l.find? (·.name = col.name) with
  | none =>
    have := List.find?_eq_none.mp hfind col ((hl col).mpr hcol)
    simp at this
  | some found =>
    have hname : found.name = col.name := by simpa using List.find?_some hfind
    have hmem := (hl found).mp (List.mem_of_find?_eq_some hfind)
    rw [List.inj_on_of_nodup_map hdistinct hmem hcol hname]

/-- A renamed column is renamed in the row, in the table, and in all keys there. -/
theorem renameColumn_ok {old new : Name} (h : renameColumn env s (old, new) = .ok s')
    (hsound : Sound env.toNaming s.columns s.table) (hold : Clean old) (hnew : Clean new)
    (hfree : new = old ∨ new ∉ s.columns.map ColumnSpec.name) :
    Sound env.toNaming s'.columns s'.table ∧
      s'.row = ⟨s.columns.map (ColumnSpec.renamed old new), s.uniqueKeys.now, s.indexes.now⟩ ∧
      (s.table.rename (replace old new)).SameKeys s'.table ∧ old ∈ s.table.columns ∧ new ≠ old := by
  obtain ⟨u, hu, h⟩ := bind_eq_ok.mp h
  obtain ⟨t₁, issued₁, rfl, hsound₁, hsame₁⟩ := issueAsides_ok hu hsound
    (Asides.ite (fun _ => dropColumnCheckConstraints_aside hsound.wellFormed hsound.names))
  obtain ⟨v, hv, h⟩ := bind_eq_ok.mp h
  obtain ⟨t₂, hrename, rfl⟩ := issue_ok hv
  rw [ident_of_clean hold, ident_of_clean hnew] at hrename
  obtain ⟨⟨hmem, hnot⟩, hrename⟩ := Option.ite_none_right_eq_some.mp hrename
  cases hrename
  have hne : new ≠ old := fun he => hnot (he ▸ hmem)
  have hnew' : new ∉ s.columns.map ColumnSpec.name := hfree.resolve_left hne
  have hsound₂ : Sound env.toNaming s.columns (t₁.rename (replace old new)) := by
    refine hsound₁.rename (fun c hc => ?_)
    unfold replace
    split
    · exact hnew
    · exact hsound₁.names.columns c hc
  have hrest : Sound env.toNaming s'.columns s'.table ∧
      s'.row = ⟨s.columns.map (ColumnSpec.renamed old new), s.uniqueKeys.now, s.indexes.now⟩ ∧
      (t₁.rename (replace old new)).SameKeys s'.table := by
    cases hfind : s.columns.find? (·.name = old) with
    | none =>
      rw [hfind] at h
      cases h
      refine ⟨hsound₂.renamed hnew hnew' (fun col hcol he => ?_), rfl, rfl, rfl, rfl⟩
      simpa [he] using List.find?_eq_none.mp hfind col hcol
    | some col =>
      have hcol : col ∈ s.columns := List.mem_of_find?_eq_some hfind
      have hname : col.name = old := by simpa using List.find?_some hfind
      subst hname
      have hlast : s.columns.reverse.find? (·.name = col.name) = some col :=
        find?_eq_of_mem hsound.distinct (fun c => List.mem_reverse) hcol
      rw [hfind, hlast] at h
      have haside : Asides (t₁.rename (replace col.name new))
          (replaceConstraints env.toNaming col col.name (col.renamed col.name new)) :=
        replaceConstraints_aside (hsound₂.apart col hcol)
      obtain ⟨_, _, hreplace, -⟩ := issueAll_ok h
      obtain ⟨t₃, issued₃, rfl, hsound₃, hsame₃⟩ := issueAsides_ok h hsound₂ haside
      refine ⟨hsound₃.renamed hnew hnew' (fun c hc he kind hkind => ?_), rfl, hsame₃⟩
      have hcc : c = col := List.inj_on_of_nodup_map hsound.distinct hc hcol he
      obtain ⟨added, hadded, haddedName⟩ :=
        replaceConstraints_mem env.toNaming (col.renamed col.name new) (hcc ▸ hkind)
      have hfresh := Table.name_of_execAll (fun st hst => (haside st hst).1) hadded hreplace
      rw [hsame₃.2.1]
      simpa [haddedName, ColumnSpec.renamed] using hfresh
  obtain ⟨hsound', hrow, hsame⟩ := hrest
  refine ⟨hsound', hrow, ?_, hsame₁.1 ▸ hmem, hne⟩
  exact (hsame₁.rename (replace old new)).trans hsame

/-- One renaming after the other renames the columns all at once. -/
theorem renameAll_ok {renames : List (Name × Name)} (h : renames.foldlM (renameColumn env) s = .ok s')
    (hsound : Sound env.toNaming s.columns s.table) (hclean : ∀ p ∈ renames, Clean p.1 ∧ Clean p.2)
    (hapart : ∀ p ∈ renames, ∀ q ∈ renames, p.2 = q.1 → p.2 = p.1) (hdistinct : (renames.map Prod.snd).Nodup)
    (hfree : ∀ p ∈ renames, p.2 = p.1 ∨ p.2 ∉ s.columns.map ColumnSpec.name) :
    Sound env.toNaming s'.columns s'.table ∧
      s'.columns.map ColumnSpec.name = (s.columns.map ColumnSpec.name).map (replaceAll renames) ∧
      s'.uniqueKeys.now = s.uniqueKeys.now ∧ s'.indexes.now = s.indexes.now ∧
      (s.table.rename (replaceAll renames)).SameKeys s'.table ∧
      ∀ p ∈ renames, p.1 ∈ s.table.columns ∧ p.2 ≠ p.1 := by
  induction renames generalizing s with
  | nil =>
    cases h
    rw [replaceAll_nil, List.map_id, Table.rename_id]
    exact ⟨hsound, rfl, rfl, rfl, ⟨rfl, rfl, rfl⟩, fun p hp => nomatch hp⟩
  | cons p renames ih =>
    obtain ⟨old, new⟩ := p
    obtain ⟨u, hu, h⟩ := bind_eq_ok.mp h
    obtain ⟨⟨hold, hnew⟩, hcleanRest⟩ := List.forall_mem_cons.mp hclean
    obtain ⟨hfreeHead, hfreeRest⟩ := List.forall_mem_cons.mp hfree
    obtain ⟨hnotTarget, hdistinctRest⟩ := List.nodup_cons.mp hdistinct
    obtain ⟨husound, hurow, husame, hmem, hne⟩ := renameColumn_ok hu hsound hold hnew hfreeHead
    obtain ⟨hucolumns, huks, hidxs⟩ := Registry.mk.inj hurow
    have hnotSource : new ∉ renames.map Prod.fst := by
      intro hsource
      obtain ⟨q, hq, he⟩ := List.mem_map.mp hsource
      exact hne (hapart _ List.mem_cons_self q (List.mem_cons_of_mem _ hq) he.symm)
    have hmap : ∀ {l : List Name} {c : Name}, c ∈ l.map (replace old new) → c = new ∨ c ∈ l := by
      intro l c hc
      obtain ⟨d, hd, rfl⟩ := List.mem_map.mp hc
      unfold replace
      split
      · exact Or.inl rfl
      · exact Or.inr hd
    have hfreeU : ∀ q ∈ renames, q.2 = q.1 ∨ q.2 ∉ u.columns.map ColumnSpec.name := by
      refine fun q hq => (hfreeRest q hq).imp_right (fun hfree hcolumn => ?_)
      rw [hucolumns, map_name_renamed] at hcolumn
      exact (hmap hcolumn).elim (fun he => hnotTarget (List.mem_map.mpr ⟨q, hq, he⟩)) hfree
    obtain ⟨hsound', hcolumns, huks', hidxs', hsame, hsources⟩ := ih h husound hcleanRest
      (fun p hp q hq => hapart p (List.mem_cons_of_mem _ hp) q (List.mem_cons_of_mem _ hq)) hdistinctRest hfreeU
    rw [replaceAll_cons hnotSource]
    refine ⟨hsound', ?_, huks'.trans huks, hidxs'.trans hidxs, ?_, ?_⟩
    · rw [hcolumns, hucolumns, map_name_renamed, List.map_map]
    · rw [← Table.rename_rename]
      exact (husame.rename _).trans hsame
    · refine List.forall_mem_cons.mpr ⟨⟨hmem, hne⟩, fun q hq => ⟨?_, (hsources q hq).2⟩⟩
      have hq' := (hsources q hq).1
      rw [husame.1] at hq'
      exact (hmap hq').resolve_left (fun he => hnotSource (List.mem_map.mpr ⟨q, hq, he⟩))

theorem declaredColumn_eq_none {columns : List ColumnSpec} {name : Name} (hcolumns : ∀ col ∈ columns, Clean col.name)
    (hname : Clean name) : declaredColumn columns name = none ↔ name ∉ columns.map ColumnSpec.name := by
  simp only [declaredColumn, List.find?_eq_none, List.mem_reverse, decide_eq_true_eq, List.mem_map, not_exists, not_and]
  refine forall₂_congr (fun col hcol => ?_)
  rw [lower_of_clean (hcolumns col hcol), lower_of_clean hname]

/-- The renamings that are let through: each from a column, to a name that no column has. -/
theorem checkRenames_ok {columns : List ColumnSpec} {targets : List Name} {renames : List (Name × Name)} {a : Unit}
    (h : checkRenames columns targets renames = .ok a) (hcolumns : ∀ col ∈ columns, Clean col.name)
    (hclean : ∀ p ∈ renames, Clean p.1 ∧ Clean p.2) :
    (∀ p ∈ renames, p.1 ∈ columns.map ColumnSpec.name ∧ (p.2 = p.1 ∨ p.2 ∉ columns.map ColumnSpec.name) ∧
      p.2 ∉ targets) ∧ (renames.map Prod.snd).Nodup := by
  induction renames generalizing targets with
  | nil => exact ⟨fun p hp => (nomatch hp), List.nodup_nil⟩
  | cons p renames ih =>
    obtain ⟨old, new⟩ := p
    obtain ⟨⟨hold, hnew⟩, hcleanRest⟩ := List.forall_mem_cons.mp hclean
    obtain ⟨_, hmissing, h⟩ := bind_eq_ok.mp h
    obtain ⟨_, hexists, h⟩ := bind_eq_ok.mp h
    obtain ⟨_, htwice, h⟩ := bind_eq_ok.mp h
    rw [refuse_eq_ok] at hmissing hexists htwice
    rw [lower_of_clean hnew] at htwice h hexists
    rw [lower_of_clean hold] at hexists
    rw [declaredColumn_eq_none hcolumns hold, not_not] at hmissing
    rw [ne_eq, ne_eq, declaredColumn_eq_none hcolumns hnew, not_and_or, not_not, not_not] at hexists
    obtain ⟨hrest, hdistinct⟩ := ih h hcleanRest
    refine ⟨List.forall_mem_cons.mpr ⟨⟨hmissing, hexists, htwice⟩, fun q hq => ?_⟩, ?_⟩
    · obtain ⟨hsource, hfree, htarget⟩ := hrest q hq
      exact ⟨hsource, hfree, fun hmem => htarget (List.mem_cons_of_mem _ hmem)⟩
    · rw [List.map_cons, List.nodup_cons]
      refine ⟨fun hmem => ?_, hdistinct⟩
      obtain ⟨q, hq, he⟩ := List.mem_map.mp hmem
      exact (hrest q hq).2.2 (he ▸ List.mem_cons_self)

/-- What a completed renaming took from where to where. -/
structure Renaming (renames : List (Name × Name)) (columns : List ColumnSpec) (t : Table Name) : Prop where
  sources : ∀ p ∈ renames, p.1 ∈ columns.map ColumnSpec.name ∧ p.1 ∈ t.columns
  targets : ∀ p ∈ renames, p.2 ∉ columns.map ColumnSpec.name

theorem renameColumns_ok {renames : List (Name × Name)} (h : renameColumns env renames s = .ok s')
    (hsound : Sound env.toNaming s.columns s.table) (hclean : ∀ p ∈ renames, Clean p.1 ∧ Clean p.2) :
    Sound env.toNaming s'.columns s'.table ∧
      s'.columns.map ColumnSpec.name = (s.columns.map ColumnSpec.name).map (replaceAll renames) ∧
      s'.uniqueKeys.now = s.uniqueKeys.now ∧ s'.indexes.now = s.indexes.now ∧
      (s.table.rename (replaceAll renames)).SameKeys s'.table ∧ Renaming renames s.columns s.table := by
  obtain ⟨_, hcheck, h⟩ := bind_eq_ok.mp h
  obtain ⟨_, -, h⟩ := bind_eq_ok.mp h
  obtain ⟨hnames, hdistinct⟩ := checkRenames_ok hcheck hsound.clean hclean
  have hapart : ∀ p ∈ renames, ∀ q ∈ renames, p.2 = q.1 → p.2 = p.1 := fun p hp q hq he =>
    (hnames p hp).2.1.resolve_right (fun hfree => hfree (he ▸ (hnames q hq).1))
  obtain ⟨hsound', hcolumns, huks, hidxs, hsame, hsources⟩ :=
    renameAll_ok h hsound hclean hapart hdistinct (fun p hp => (hnames p hp).2.1)
  exact ⟨hsound', hcolumns, huks, hidxs, hsame, fun p hp => ⟨(hnames p hp).1, (hsources p hp).1⟩,
    fun p hp => (hnames p hp).2.1.resolve_left (hsources p hp).2⟩

end Akb.Tables
