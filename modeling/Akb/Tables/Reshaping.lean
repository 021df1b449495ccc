import Akb.Tables.AlterKeys

/-! Columns are dropped and renamed under names of two kinds, those of the request and those
that PostgreSQL reads: when row and table agree all the same. -/
namespace Akb.Tables
open Akb.Library Akb.Library.Ddl

theorem clean_reserved : ∀ n ∈ reserved, Clean n := by decide

/-- Every identifier that a name to drop stands for is itself among the names to drop. -/
def DropsByName (drops columns : List Name) : Prop :=
  ∀ d ∈ drops, ident d ∈ reserved ∨ ident d ∈ columns → ident d ∈ drops

/-- What the operations on columns have to do with each other. -/
structure Reshaping (drops : List Name) (renames : List (Name × Name)) (columns physical : List Name) : Prop where
  agree : ∀ n, n ∈ physical ↔ n ∈ reserved ∨ n ∈ columns
  clean : ∀ n ∈ columns, Clean n
  unreserved : ∀ d ∈ drops, PyText.lower d ∉ reserved
  sources : ∀ p ∈ renames, p.1 ∈ columns ∧ p.1 ∉ drops ∧ p.1 ∉ drops.map ident ∧ p.1 ∉ reserved
  targets : ∀ p ∈ renames, p.2 ∉ columns.filter (· ∉ drops) ∧ p.2 ∉ reserved ∧ Clean p.2

namespace Reshaping
variable {drops columns physical : List Name} {renames : List (Name × Name)}

theorem physical_clean (h : Reshaping drops renames columns physical) : ∀ n ∈ physical, Clean n :=
  fun n hn => ((h.agree n).mp hn).elim (clean_reserved n) (h.clean n)

theorem not_source (h : Reshaping drops renames columns physical) {n : Name}
    (hn : n ∈ drops ∨ n ∈ drops.map ident ∨ n ∈ reserved) : replaceAll renames n = n := by
  refine replaceAll_of_notMem (fun hmem => ?_)
  obtain ⟨p, hp, rfl⟩ := List.mem_map.mp hmem
  obtain ⟨-, h₁, h₂, h₃⟩ := h.sources p hp
  exact hn.elim h₁ (fun hn => hn.elim h₂ h₃)

/-- The names in the drop list are the identifiers that are dropped. -/
theorem mem_drops_iff (h : Reshaping drops renames columns physical) (hdrops : DropsByName drops columns) {n : Name}
    (hn : n ∈ physical) : n ∈ drops.map ident ↔ n ∈ drops := by
  constructor
  · intro hmem
    obtain ⟨d, hd, rfl⟩ := List.mem_map.mp hmem
    exact hdrops d hd ((h.agree _).mp hn)
  · exact fun hmem => List.mem_map.mpr ⟨n, hmem, ident_of_clean (h.physical_clean n hn)⟩

/-- The columns of the row and of the table part exactly when a name to drop stands for
a column that is not dropped by its name. -/
theorem columns_agree_iff (h : Reshaping drops renames columns physical) :
    (∀ n, n ∈ (physical.filter (· ∉ drops.map ident)).map (replaceAll renames) ↔
      n ∈ reserved ∨ n ∈ (columns.filter (· ∉ drops)).map (replaceAll renames)) ↔ DropsByName drops columns := by
  constructor
  · intro hagree d hd hcolumn
    by_contra hnot
    have hdropped : ident d ∈ drops.map ident := List.mem_map_of_mem hd
    have hsame := h.not_source (Or.inr (Or.inl hdropped))
    have hkept : ident d ∈ reserved ∨ ident d ∈ columns.filter (· ∉ drops) :=
      hcolumn.imp_right (fun hc => List.mem_filter.mpr ⟨hc, by simpa using hnot⟩)
    have hrow := hkept.imp_right (fun hc => List.mem_map.mpr ⟨_, hc, hsame⟩)
    obtain ⟨c, hc, he⟩ := List.mem_map.mp ((hagree (ident d)).mpr hrow)
    have hc' : c ∉ drops.map ident := by simpa using (List.mem_filter.mp hc).2
    rcases replaceAll_cases renames c with ⟨-, hcc⟩ | ⟨p, hp, -, hcc⟩
    · exact hc' (hcc.symm.trans he ▸ hdropped)
    · obtain ⟨htarget, hreserved, -⟩ := h.targets p hp
      have hpd : p.2 = ident d := hcc.symm.trans he
      rw [hpd] at htarget hreserved
      exact hkept.elim hreserved htarget
  · intro hdrops n
    constructor
    · intro hn
      obtain ⟨c, hc, rfl⟩ := List.mem_map.mp hn
      obtain ⟨hphysical, hkept⟩ := List.mem_filter.mp hc
      have hkept : c ∉ drops := fun hd => of_decide_eq_true hkept ((h.mem_drops_iff hdrops hphysical).mpr hd)
      rcases (h.agree c).mp hphysical with hreserved | hcolumn
      · exact Or.inl ((h.not_source (Or.inr (Or.inr hreserved))).symm ▸ hreserved)
      · exact Or.inr (List.mem_map_of_mem (List.mem_filter.mpr ⟨hcolumn, decide_eq_true hkept⟩))
    · intro hn
      rcases hn with hreserved | hcolumn
      · have hphysical := (h.agree n).mpr (Or.inl hreserved)
        refine List.mem_map.mpr ⟨n, List.mem_filter.mpr ⟨hphysical, decide_eq_true (fun hd => ?_)⟩,
          h.not_source (Or.inr (Or.inr hreserved))⟩
        have hlower := lower_of_clean (clean_reserved n hreserved)
        exact h.unreserved n ((h.mem_drops_iff hdrops hphysical).mp hd) (hlower.symm ▸ hreserved)
      · obtain ⟨c, hc, rfl⟩ := List.mem_map.mp hcolumn
        obtain ⟨hmem, hkept⟩ := List.mem_filter.mp hc
        have hphysical := (h.agree c).mpr (Or.inr hmem)
        refine List.mem_map_of_mem (List.mem_filter.mpr ⟨hphysical, decide_eq_true (fun hd => ?_)⟩)
        exact of_decide_eq_true hkept ((h.mem_drops_iff hdrops hphysical).mp hd)

end Reshaping

theorem renamedColumn_eq {renames : List (Name × Name)} {c : Name} (hrenames : ∀ p ∈ renames, Clean p.1)
    (hc : Clean c) : renamedColumn renames c = replaceAll renames c := by
  have hid : ∀ p ∈ renames, Prod.map PyText.lower id p = id p := fun p hp =>
    Prod.ext (lower_of_clean (hrenames p hp)) rfl
  rw [renamedColumn, List.map_congr_left hid, List.map_id, lower_of_clean hc]
  rfl

/-- The row forgets a key only if the table drops it: a column that goes by a dropped
name afterwards, in lower case, goes with a dropped column. -/
def KeyFollows (drops : List Name) (renames : List (Name × Name)) (columns : List Name) : Prop :=
  (∃ c ∈ columns, renamedColumn renames c ∈ drops.map PyText.lower) → ∃ c ∈ columns, c ∈ drops

section Keys
variable {κ : Type} {drops columns physical : List Name} {renames : List (Name × Name)}

/-- The keys of the row after the columns are dropped and renamed. -/
def mirrored (drops : List Name) (renames : List (Name × Name)) (keys : List (Key Name κ)) : List (Key Name κ) :=
  (keys.map (Key.rename (renamedColumn renames))).filter
    (fun k => ∀ c ∈ k.names, PyText.lower c ∉ drops.map PyText.lower)

/-- The keys of the table then. -/
def reshaped (drops : List Name) (renames : List (Name × Name)) (keys : List (Key Name κ)) : List (Key Name κ) :=
  (keys.filter (fun k => ∀ c ∈ k.names, c ∉ drops.map ident)).map (Key.rename (replaceAll renames))

theorem Reshaping.clean_replaceAll (h : Reshaping drops renames columns physical) {c : Name} (hc : c ∈ physical) :
    Clean (replaceAll renames c) := by
  rcases replaceAll_cases renames c with ⟨-, he⟩ | ⟨p, hp, -, he⟩
  · rw [he]
    exact h.physical_clean c hc
  · rw [he]
    exact (h.targets p hp).2.2

theorem Reshaping.renamedColumn_eq (h : Reshaping drops renames columns physical) {c : Name} (hc : c ∈ physical) :
    renamedColumn renames c = replaceAll renames c :=
  Tables.renamedColumn_eq (fun p hp => h.clean p.1 (h.sources p hp).1) (h.physical_clean c hc)

theorem Reshaping.mem_mirrored (h : Reshaping drops renames columns physical) {keys : List (Key Name κ)}
    (hover : Over physical keys) {k : Key Name κ} : k ∈ mirrored drops renames keys ↔
      ∃ k' ∈ keys, (∀ c ∈ k'.names, replaceAll renames c ∉ drops.map PyText.lower) ∧
        k'.rename (replaceAll renames) = k := by
  have hrename : ∀ k' ∈ keys, k'.rename (renamedColumn renames) = k'.rename (replaceAll renames) := fun k' hk' =>
    Key.rename_congr (fun c hc => h.renamedColumn_eq (hover k' hk' c hc))
  have hlower : ∀ k' ∈ keys, ((∀ c ∈ (k'.rename (replaceAll renames)).names, PyText.lower c ∉ drops.map PyText.lower) ↔
      ∀ c ∈ k'.names, replaceAll renames c ∉ drops.map PyText.lower) := by
    intro k' hk'
    rw [Key.names_rename, List.forall_mem_map]
    exact forall₂_congr (fun c hc => by rw [lower_of_clean (h.clean_replaceAll (hover k' hk' c hc))])
  unfold mirrored
  rw [List.mem_filter, List.mem_map, decide_eq_true_eq]
  constructor
  · rintro ⟨⟨k', hk', rfl⟩, hkept⟩
    rw [hrename k' hk'] at hkept ⊢
    exact ⟨k', hk', (hlower k' hk').mp hkept, rfl⟩
  · rintro ⟨k', hk', hkept, rfl⟩
    exact ⟨⟨k', hk', hrename k' hk'⟩, (hlower k' hk').mpr hkept⟩

theorem Reshaping.mem_reshaped (h : Reshaping drops renames columns physical) (hdrops : DropsByName drops columns)
    {keys : List (Key Name κ)} (hover : Over physical keys) {k : Key Name κ} : k ∈ reshaped drops renames keys ↔
      ∃ k' ∈ keys, (∀ c ∈ k'.names, c ∉ drops) ∧ k'.rename (replaceAll renames) = k := by
  have hkept : ∀ k' ∈ keys, ((∀ c ∈ k'.names, c ∉ drops.map ident) ↔ ∀ c ∈ k'.names, c ∉ drops) := fun k' hk' =>
    forall₂_congr (fun c hc => not_congr (h.mem_drops_iff hdrops (hover k' hk' c hc)))
  unfold reshaped
  rw [List.mem_map]
  refine exists_congr (fun k' => ?_)
  rw [List.mem_filter, decide_eq_true_eq, and_assoc]
  exact and_congr_right (fun hk' => and_congr_left (fun _ => hkept k' hk'))

/-- A key that the row keeps, the table keeps; the other way round if the key follows its columns. -/
theorem Reshaping.keys_agree (h : Reshaping drops renames columns physical) (hdrops : DropsByName drops columns)
    {row keys : List (Key Name κ)} (hagree : ∀ k, k ∈ row ↔ k ∈ keys) (hover : Over physical keys) :
    mirrored drops renames row ⊆ reshaped drops renames keys ∧
      (reshaped drops renames keys ⊆ mirrored drops renames row ↔
        ∀ k ∈ row, KeyFollows drops renames k.names) := by
  have hoverRow : Over physical row := fun k hk => hover k ((hagree k).mp hk)
  refine ⟨fun k hk => ?_, fun hsub k hk => ?_, fun hfollows k hk => ?_⟩
  · obtain ⟨k', hk', hkept, rfl⟩ := (h.mem_mirrored hoverRow).mp hk
    refine (h.mem_reshaped hdrops hover).mpr ⟨k', (hagree k').mp hk', fun c hc hd => hkept c hc ?_, rfl⟩
    rw [h.not_source (Or.inl hd)]
    exact List.mem_map.mpr ⟨c, hd, lower_of_clean (h.physical_clean c (hoverRow k' hk' c hc))⟩
  · rintro ⟨c, hc, hdropped⟩
    by_contra hnone
    have hkept : ∀ c ∈ k.names, c ∉ drops := fun c hc hd => hnone ⟨c, hc, hd⟩
    have hmem := hsub ((h.mem_reshaped hdrops hover).mpr ⟨k, (hagree k).mp hk, hkept, rfl⟩)
    obtain ⟨k', -, hkept', he⟩ := (h.mem_mirrored hoverRow).mp hmem
    have hnames : k'.names.map (replaceAll renames) = k.names.map (replaceAll renames) := by
      rw [← Key.names_rename, he, Key.names_rename]
    obtain ⟨c', hc', hcc⟩ := List.mem_map.mp (hnames ▸ List.mem_map_of_mem hc)
    rw [h.renamedColumn_eq (hoverRow k hk c hc), ← hcc] at hdropped
    exact hkept' c' hc' hdropped
  · obtain ⟨k', hk', hkept, rfl⟩ := (h.mem_reshaped hdrops hover).mp hk
    have hrow := (hagree k').mpr hk'
    refine (h.mem_mirrored hoverRow).mpr ⟨k', hrow, fun c hc hd => ?_, rfl⟩
    rw [← h.renamedColumn_eq (hoverRow k' hrow c hc)] at hd
    obtain ⟨c', hc', hd'⟩ := hfollows k' hrow ⟨c, hc, hd⟩
    exact hkept c' hc' hd'

/-- Keys that are dropped and added by name leave row and table in agreement exactly when
they agreed before, and the names of the new keys are read as they are written. -/
theorem named_agree_iff {row keys added : List (Key Name κ)} (names : List Name) (hsub : row ⊆ keys)
    (hnamed : Named keys) (hclean : ∀ k ∈ keys, Clean k.name) (hcolumns : ∀ k ∈ added, ∀ c ∈ k.names, Clean c)
    (hfresh : ∀ k ∈ added, ident k.name ∉ (keys.filter (·.name ∉ droppedNames row names)).map Key.name) :
    (∀ k, k ∈ row.filter (·.name ∉ names) ++ added ↔
      k ∈ keys.filter (·.name ∉ droppedNames row names) ++ added.map unquoted) ↔
      keys ⊆ row ∧ ∀ k ∈ added, Clean k.name := by
  have hdropped : ∀ k ∈ keys, k.name ∈ droppedNames row names ↔ k.name ∈ names ∧ k ∈ row := by
    intro k hk
    unfold droppedNames
    rw [List.mem_map]
    constructor
    · rintro ⟨k', hk', he⟩
      obtain ⟨hrow, hname⟩ := List.mem_filter.mp hk'
      rw [ident_of_clean (hclean k' (hsub hrow))] at he
      have hkk := hnamed k' (hsub hrow) k hk he
      exact ⟨hkk ▸ of_decide_eq_true hname, hkk ▸ hrow⟩
    · rintro ⟨hname, hrow⟩
      exact ⟨k, List.mem_filter.mpr ⟨hrow, decide_eq_true hname⟩, ident_of_clean (hclean k hk)⟩
  constructor
  · intro hagree
    have hnames : ∀ k ∈ added, Clean k.name := by
      intro k hk
      rcases List.mem_append.mp ((hagree k).mp (List.mem_append_right _ hk)) with h | h
      · exact hclean k (List.mem_of_mem_filter h)
      · obtain ⟨k', -, rfl⟩ := List.mem_map.mp h
        exact clean_ident _
    refine ⟨fun k hk => ?_, hnames⟩
    by_contra hrow
    have hkept : k ∈ keys.filter (·.name ∉ droppedNames row names) :=
      List.mem_filter.mpr ⟨hk, decide_eq_true (fun hmem => hrow ((hdropped k hk).mp hmem).2)⟩
    rcases List.mem_append.mp ((hagree k).mpr (List.mem_append_left _ hkept)) with h | h
    · exact hrow (List.mem_of_mem_filter h)
    · refine hfresh k h ?_
      rw [ident_of_clean (hclean k hk)]
      exact List.mem_map_of_mem hkept
  · rintro ⟨hrow, hnames⟩ k
    have hunquoted : added.map unquoted = added :=
      (List.map_congr_left (fun k hk => unquoted_eq (hnames k hk) (hcolumns k hk))).trans (List.map_id _)
    rw [hunquoted, List.mem_append, List.mem_append]
    refine or_congr_left ?_
    simp only [List.mem_filter, decide_eq_true_eq]
    constructor
    · rintro ⟨hk, hname⟩
      exact ⟨hsub hk, fun hmem => hname ((hdropped k (hsub hk)).mp hmem).1⟩
    · rintro ⟨hk, hname⟩
      exact ⟨hrow hk, fun hmem => hname ((hdropped k hk).mpr ⟨hmem, hrow hk⟩)⟩

end Keys

end Akb.Tables
