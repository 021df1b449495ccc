import Akb.Library.Ddl

/-! What a run of statements on a table keeps: its well-formedness, the kind of its names,
and its keys where the statements are about something else. -/
namespace Akb.Library.Ddl
variable {ι : Type} [DecidableEq ι]

/-- All names a statement can meet are of one kind. -/
structure Table.Names (P : ι → Prop) (t : Table ι) : Prop where
  columns : ∀ c ∈ t.columns, P c
  uniqueKeys : ∀ k ∈ t.uniqueKeys, P k.name
  indexes : ∀ k ∈ t.indexes, P k.name
  constraints : ∀ c ∈ t.constraints, P c.name

/-- The names a statement brings in. -/
def Statement.names : Statement ι → List ι
  | .addColumn c => [c]
  | .renameColumn _ c' => [c']
  | .addUnique k => [k.name]
  | .addConstraint c => [c.name]
  | .createIndex k => [k.name]
  | _ => []

omit [DecidableEq ι] in
private theorem forall_mem_concat {α : Type} {P : α → Prop} {l : List α} {a : α} (h : ∀ x ∈ l, P x)
    (ha : P a) : ∀ x ∈ l ++ [a], P x :=
  List.forall_mem_append.mpr ⟨h, List.forall_mem_singleton.mpr ha⟩

theorem Table.Names.exec {P : ι → Prop} {t t' : Table ι} {s : Statement ι} (h : t.Names P)
    (hs : ∀ n ∈ s.names, P n) (hexec : t.exec s = some t') : t'.Names P := by
  cases s with
  | addColumn c =>
    cases hexec
    split
    · exact h
    · exact ⟨forall_mem_concat h.columns (hs c (List.mem_singleton_self c)), h.uniqueKeys, h.indexes, h.constraints⟩
  | dropColumn c =>
    cases hexec
    exact ⟨fun c hc => h.columns c (List.mem_of_mem_filter hc),
      fun k hk => h.uniqueKeys k (List.mem_of_mem_filter hk), fun k hk => h.indexes k (List.mem_of_mem_filter hk),
      fun k hk => h.constraints k (List.mem_of_mem_filter hk)⟩
  | renameColumn c c' =>
    obtain ⟨-, hexec⟩ := Option.ite_none_right_eq_some.mp hexec
    cases hexec
    refine ⟨List.forall_mem_map.mpr (fun d hd => ?_), List.forall_mem_map.mpr h.uniqueKeys,
      List.forall_mem_map.mpr h.indexes, List.forall_mem_map.mpr h.constraints⟩
    unfold replace
    split
    · exact hs c' (List.mem_singleton_self c')
    · exact h.columns d hd
  | alterColumn c =>
    obtain ⟨-, hexec⟩ := Option.ite_none_right_eq_some.mp hexec
    cases hexec
    exact h
  | addUnique k =>
    obtain ⟨-, hexec⟩ := Option.ite_none_right_eq_some.mp hexec
    cases hexec
    exact ⟨h.columns, forall_mem_concat h.uniqueKeys (hs _ (List.mem_singleton_self _)), h.indexes, h.constraints⟩
  | addConstraint k =>
    obtain ⟨-, hexec⟩ := Option.ite_none_right_eq_some.mp hexec
    cases hexec
    exact ⟨h.columns, h.uniqueKeys, h.indexes, forall_mem_concat h.constraints (hs _ (List.mem_singleton_self _))⟩
  | dropConstraint n =>
    cases hexec
    exact ⟨h.columns, fun k hk => h.uniqueKeys k (List.mem_of_mem_filter hk), h.indexes,
      fun c hc => h.constraints c (List.mem_of_mem_filter hc)⟩
  | createIndex k =>
    obtain ⟨-, hexec⟩ := Option.ite_none_right_eq_some.mp hexec
    cases hexec
    exact ⟨h.columns, h.uniqueKeys, forall_mem_concat h.indexes (hs _ (List.mem_singleton_self _)), h.constraints⟩
  | dropIndex n =>
    obtain ⟨-, hexec⟩ := Option.ite_none_left_eq_some.mp hexec
    cases hexec
    exact ⟨h.columns, h.uniqueKeys, fun k hk => h.indexes k (List.mem_of_mem_filter hk), h.constraints⟩

theorem Table.dropColumns_nil (t : Table ι) : t.dropColumns [] = t := by simp [Table.dropColumns]

theorem Table.dropColumns_append (t : Table ι) (a b : List ι) :
    (t.dropColumns a).dropColumns b = t.dropColumns (a ++ b) := by
  simp [Table.dropColumns, List.filter_filter, forall_and, not_or, Bool.and_comm]

omit [DecidableEq ι] in
theorem Table.rename_rename (t : Table ι) (f g : ι → ι) : (t.rename f).rename g = t.rename (g ∘ f) := by
  simp [Table.rename, Function.comp_def, Key.rename, Prod.map]

/-- The columns, the unique keys and the indexes stay. -/
def Table.SameKeys (t t' : Table ι) : Prop :=
  t'.columns = t.columns ∧ t'.uniqueKeys = t.uniqueKeys ∧ t'.indexes = t.indexes

omit [DecidableEq ι] in
theorem Table.SameKeys.trans {a b c : Table ι} (h : a.SameKeys b) (h' : b.SameKeys c) : a.SameKeys c :=
  ⟨h'.1.trans h.1, h'.2.1.trans h.2.1, h'.2.2.trans h.2.2⟩

/-- A statement that is only about checks, foreign keys and the values of columns. -/
def Statement.Aside (t : Table ι) : Statement ι → Prop
  | .alterColumn _ => True
  | .addConstraint _ => True
  | .dropConstraint n => n ∉ t.uniqueKeys.map Key.name
  | _ => False

theorem Table.sameKeys_exec {t t' : Table ι} {s : Statement ι} (hs : s.Aside t) (hexec : t.exec s = some t') :
    t.SameKeys t' := by
  cases s with
  | alterColumn c =>
    obtain ⟨-, hexec⟩ := Option.ite_none_right_eq_some.mp hexec
    cases hexec
    exact ⟨rfl, rfl, rfl⟩
  | addConstraint k =>
    obtain ⟨-, hexec⟩ := Option.ite_none_right_eq_some.mp hexec
    cases hexec
    exact ⟨rfl, rfl, rfl⟩
  | dropConstraint n =>
    cases hexec
    refine ⟨rfl, List.filter_eq_self.mpr (fun k hk => ?_), rfl⟩
    exact decide_eq_true (fun he : k.name = n => hs (he ▸ List.mem_map_of_mem hk))
  | _ => cases hs

/-- The statements one after the other. -/
def Table.execAll (t : Table ι) (statements : List (Statement ι)) : Option (Table ι) :=
  statements.foldlM Table.exec t

theorem Table.execAll_cons {t t' : Table ι} {s : Statement ι} {statements : List (Statement ι)} :
    t.execAll (s :: statements) = some t' ↔ ∃ u, t.exec s = some u ∧ u.execAll statements = some t' :=
  Option.bind_eq_some_iff

/-- What each statement keeps is kept by all of them. -/
theorem Table.execAll_invariant {I : Table ι → Prop} {statements : List (Statement ι)}
    (hstep : ∀ s ∈ statements, ∀ t t', I t → t.exec s = some t' → I t') {t t' : Table ι} (h : I t)
    (hexec : t.execAll statements = some t') : I t' := by
  induction statements generalizing t with
  | nil =>
    cases hexec
    exact h
  | cons s statements ih =>
    obtain ⟨hs, hrest⟩ := List.forall_mem_cons.mp hstep
    obtain ⟨u, hu, hexec⟩ := Table.execAll_cons.mp hexec
    exact ih hrest (hs t u h hu) hexec

theorem Table.WellFormed.execAll {t t' : Table ι} {statements : List (Statement ι)} (h : t.WellFormed)
    (hexec : t.execAll statements = some t') : t'.WellFormed :=
  Table.execAll_invariant (fun _ _ _ _ h hexec => h.exec hexec) h hexec

theorem Table.Names.execAll {P : ι → Prop} {t t' : Table ι} {statements : List (Statement ι)} (h : t.Names P)
    (hs : ∀ s ∈ statements, ∀ n ∈ s.names, P n) (hexec : t.execAll statements = some t') : t'.Names P :=
  Table.execAll_invariant (fun s hmem _ _ h hexec => h.exec (hs s hmem) hexec) h hexec

theorem Table.sameKeys_execAll {t t' : Table ι} {statements : List (Statement ι)}
    (hs : ∀ s ∈ statements, s.Aside t) (hexec : t.execAll statements = some t') : t.SameKeys t' := by
  refine Table.execAll_invariant (I := t.SameKeys) (fun s hmem u u' hu hexec => ?_) ⟨rfl, rfl, rfl⟩ hexec
  have haside : s.Aside u := by
    have h := hs s hmem
    cases s with
    | dropConstraint n =>
      unfold Statement.Aside
      rwa [hu.2.1]
    | _ => exact h
  exact hu.trans (Table.sameKeys_exec haside hexec)

/-- A constraint that could be added has a name of its own. -/
theorem Table.name_of_execAll {t t' : Table ι} {statements : List (Statement ι)} {c : Constraint ι}
    (hs : ∀ s ∈ statements, s.Aside t) (hc : .addConstraint c ∈ statements)
    (hexec : t.execAll statements = some t') : c.name ∉ t.uniqueKeys.map Key.name := by
  obtain ⟨before, after, rfl⟩ := List.append_of_mem hc
  obtain ⟨u, hu, hexec⟩ := Option.bind_eq_some_iff.mp (List.foldlM_append.symm.trans hexec)
  obtain ⟨v, hv, -⟩ := Table.execAll_cons.mp hexec
  have hsame := Table.sameKeys_execAll (fun s hmem => hs s (List.mem_append_left _ hmem)) hu
  exact hsame.2.1 ▸ (Option.ite_none_right_eq_some.mp hv).1.2.1

theorem Table.execAll_dropColumns (t : Table ι) (columns : List ι) :
    t.execAll (columns.map .dropColumn) = some (t.dropColumns columns) := by
  induction columns generalizing t with
  | nil => exact congrArg some t.dropColumns_nil.symm
  | cons c columns ih =>
    exact Table.execAll_cons.mpr ⟨t.dropColumns [c], rfl, by rw [ih, t.dropColumns_append]; rfl⟩

theorem Table.execAll_dropConstraints (t : Table ι) (names : List ι) :
    t.execAll (names.map .dropConstraint) = some { t with
      uniqueKeys := t.uniqueKeys.filter (·.name ∉ names)
      constraints := t.constraints.filter (·.name ∉ names) } := by
  induction names generalizing t with
  | nil => simp [Table.execAll]
  | cons n names ih =>
    refine Table.execAll_cons.mpr ⟨_, rfl, ?_⟩
    rw [ih]
    simp [List.filter_filter, Bool.and_comm]

theorem Table.execAll_dropIndexes {t t' : Table ι} {names : List ι}
    (hexec : t.execAll (names.map .dropIndex) = some t') :
    t' = { t with indexes := t.indexes.filter (·.name ∉ names) } := by
  induction names generalizing t with
  | nil =>
    cases hexec
    simp
  | cons n names ih =>
    obtain ⟨u, hu, hexec⟩ := Table.execAll_cons.mp hexec
    obtain ⟨-, hu⟩ := Option.ite_none_left_eq_some.mp hu
    cases hu
    rw [ih hexec]
    simp [List.filter_filter, Bool.and_comm]

omit [DecidableEq ι] in
theorem Table.rename_id (t : Table ι) : t.rename id = t := by
  simp [Table.rename, Key.rename_id]

omit [DecidableEq ι] in
theorem Table.SameKeys.rename {t t' : Table ι} (h : t.SameKeys t') (f : ι → ι) : (t.rename f).SameKeys (t'.rename f) := by
  simp [Table.SameKeys, Table.rename, h.1, h.2.1, h.2.2]

section Renaming
variable [BEq ι] [LawfulBEq ι]

/-- Several renamings at once. -/
def replaceAll (renames : List (ι × ι)) (c : ι) : ι := (renames.lookup c).getD c

omit [DecidableEq ι] [LawfulBEq ι] in
theorem replaceAll_nil : replaceAll ([] : List (ι × ι)) = id := rfl

/-- One after the other they do the same, when no new name is renamed again. -/
theorem replaceAll_cons {old new : ι} {renames : List (ι × ι)} (h : new ∉ renames.map Prod.fst) :
    replaceAll ((old, new) :: renames) = replaceAll renames ∘ replace old new := by
  funext c
  unfold replaceAll replace
  by_cases hc : c = old
  · have hne : ∀ p ∈ renames, (new != p.1) := fun p hp =>
      bne_iff_ne.mpr (fun he => h (List.mem_map.mpr ⟨p, hp, he.symm⟩))
    simp [hc, List.lookup_eq_none_iff.mpr hne]
  · have hne : (c == old) = false := beq_false_of_ne hc
    simp [hc, List.lookup_cons, hne]

theorem replaceAll_cases (renames : List (ι × ι)) (c : ι) :
    (c ∉ renames.map Prod.fst ∧ replaceAll renames c = c) ∨ ∃ p ∈ renames, c = p.1 ∧ replaceAll renames c = p.2 := by
  induction renames with
  | nil => exact Or.inl ⟨List.not_mem_nil, rfl⟩
  | cons p renames ih =>
    obtain ⟨old, new⟩ := p
    by_cases hc : c = old
    · exact Or.inr ⟨(old, new), List.mem_cons_self, hc, by simp [replaceAll, hc]⟩
    · have hne : (c == old) = false := beq_false_of_ne hc
      have hsame : replaceAll ((old, new) :: renames) c = replaceAll renames c := by
        simp [replaceAll, List.lookup_cons, hne]
      rw [hsame]
      refine ih.imp (fun h => ⟨?_, h.2⟩) (fun ⟨q, hq, h⟩ => ⟨q, List.mem_cons_of_mem _ hq, h⟩)
      exact fun hmem => (List.mem_cons.mp hmem).elim hc h.1

theorem replaceAll_of_notMem {renames : List (ι × ι)} {c : ι} (h : c ∉ renames.map Prod.fst) :
    replaceAll renames c = c :=
  (replaceAll_cases renames c).elim And.right
    (fun ⟨p, hp, he, _⟩ => absurd (List.mem_map.mpr ⟨p, hp, he.symm⟩) h)

end Renaming

end Akb.Library.Ddl
