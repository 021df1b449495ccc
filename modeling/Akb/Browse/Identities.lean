import Akb.Browse.Page

/-! The identities of a scope, said without the query: which rows a content type and an archive scope ask
for, and which paths lie under a collection. -/
namespace Akb.Browse
open Akb.Library

/-- The rows of each catalog that a scope asks for. -/
inductive Listed (c : Catalog) (s : Scope) : Position → Prop where
  | collection {r : CollectionRow} : r ∈ c.collections → r.vaultId = s.vaultId →
    s.contentType ∈ [.all, .documents, .collections] → Listed c s ⟨.collection, r.path.1, r.id⟩
  | document {r : DocumentRow} : r ∈ c.documents → r.vaultId = s.vaultId → s.native = false →
    s.contentType ∈ [.all, .documents, .resources] → Listed c s ⟨.document, r.path.1, r.id⟩
  | nativeDocument {r : Native.Resource} : r ∈ c.native.resources → r.namespaceId = s.vaultId → r.surface = .document →
    r.Live → s.native = true → s.contentType ∈ [.all, .documents, .resources] →
    Listed c s ⟨.document, r.currentPath.toList, r.resourceId⟩
  | table {r : TableRow} : r ∈ c.tables → r.vaultId = s.vaultId → s.archiveScope ≠ .archived →
    s.contentType ∈ [.all, .resources, .tables] → Listed c s ⟨.table, childPath c r.collectionId r.name, r.id⟩
  | file {r : FileRow} : r ∈ c.files → r.vaultId = s.vaultId → r.kind = "file" → r.uploadState = "confirmed" →
    s.archiveScope ≠ .archived → s.contentType ∈ [.all, .resources, .files] →
    Listed c s ⟨.file, childPath c r.collectionId r.name, r.id⟩

/-- The path lies under the collection, at most `depth` levels below its children. -/
structure Beneath (s : Scope) (path : Text) : Prop where
  under : s.collectionPath = [] ∨ s.collectionPath ++ ['/'] <+: path
  depth : 0 ≤ s.depth → path.count '/' ≤ s.depth + if s.collectionPath = [] then 0 else s.collectionPath.count '/' + 1

structure InScope (c : Catalog) (s : Scope) (e : Position) : Prop where
  listed : Listed c s e
  beneath : Beneath s e.path

/-! ### The prefix pattern -/

private theorem likeEscape_cons (d : Char) (p : Text) :
    likeEscape (d :: p) = (if d ∈ ['\\', '%', '_'] then ['\\', d] else [d]) ++ likeEscape p := by
  have hsplit : likeEscape (d :: p) = likeEscape [d] ++ likeEscape p := by
    simp only [likeEscape, ← List.flatMap_append, List.singleton_append]
  rw [hsplit]
  congr 1
  by_cases hback : d = '\\'
  · subst hback
    decide
  by_cases hpercent : d = '%'
  · subst hpercent
    decide
  by_cases hunder : d = '_'
  · subst hunder
    decide
  · simp [likeEscape, hback, hpercent, hunder]

/-- An escaped character matches itself. -/
private theorem like_escaped (d : Char) (pattern s : Text) :
    like ((if d ∈ ['\\', '%', '_'] then ['\\', d] else [d]) ++ pattern) s = true ↔
      ∃ t, s = d :: t ∧ like pattern t = true := by
  cases s with
  | nil =>
    refine iff_of_false ?_ fun h => ?_
    · split
      · simp [like]
      · rename_i hd
        simp only [List.mem_cons, List.not_mem_nil, or_false, not_or] at hd
        simp [like, hd]
    · obtain ⟨t, ht, -⟩ := h
      cases ht
  | cons e t =>
    have hone : like ((if d ∈ ['\\', '%', '_'] then ['\\', d] else [d]) ++ pattern) (e :: t) = (d == e && like pattern t) := by
      split
      · rfl
      · rename_i hd
        simp only [List.mem_cons, List.not_mem_nil, or_false, not_or] at hd
        simp [like, hd, beq_eq_false_iff_ne.mpr hd.2.2]
    rw [hone, Bool.and_eq_true, beq_iff_eq]
    constructor
    · rintro ⟨rfl, ht⟩
      exact ⟨t, rfl, ht⟩
    · rintro ⟨_, heq, ht⟩
      obtain ⟨rfl, rfl⟩ := List.cons.inj heq
      exact ⟨rfl, ht⟩

private theorem like_under (p s : Text) : like (likeEscape p ++ ['/', '%']) s = true ↔ p ++ ['/'] <+: s := by
  induction p generalizing s with
  | nil =>
    cases s with
    | nil => simp [likeEscape, like]
    | cons d t =>
      have hnil : ∃ u, u <:+ t ∧ u = [] := ⟨[], List.nil_suffix, rfl⟩
      simp [likeEscape, like, hnil]
  | cons d p ih =>
    rw [likeEscape_cons, List.append_assoc, like_escaped, List.cons_append]
    constructor
    · rintro ⟨t, rfl, ht⟩
      exact List.cons_prefix_cons.mpr ⟨rfl, (ih t).mp ht⟩
    · rintro ⟨t, rfl⟩
      exact ⟨_, rfl, (ih _).mpr ⟨t, rfl⟩⟩

theorem clauses_iff (s : Scope) (path : Text) : clauses s path = true ↔ Beneath s path := by
  have hcount : (path.length : Int) - (path.filter (· ≠ '/')).length = path.count '/' := by
    have hlength := List.length_eq_countP_add_countP (· == '/') (l := path)
    have hother : path.countP (fun c => ¬(c == '/') = true) = (path.filter (· ≠ '/')).length := by
      rw [List.countP_eq_length_filter]
      simp
    rw [hlength, hother, List.count]
    omega
  simp only [clauses, hcount, Bool.and_eq_true, Bool.or_eq_true, beq_iff_eq, decide_eq_true_eq, like_under]
  constructor
  · rintro ⟨hunder, hdepth⟩
    exact ⟨hunder, fun h => hdepth.resolve_left (by omega)⟩
  · rintro ⟨hunder, hdepth⟩
    exact ⟨hunder, or_iff_not_imp_left.mpr fun h => hdepth (by omega)⟩

private theorem mem_collectionArm {c : Catalog} {s : Scope} {e : Position} :
    e ∈ collectionArm c s ↔ ∃ r ∈ c.collections, r.vaultId = s.vaultId ∧ ⟨.collection, r.path.1, r.id⟩ = e := by
  simp only [collectionArm, List.mem_map, List.mem_filter, decide_eq_true_eq, and_assoc]
  rfl

private theorem mem_documentArm {c : Catalog} {s : Scope} {e : Position} :
    e ∈ documentArm c s ↔
      (s.native = true ∧ ∃ r ∈ c.native.resources, r.namespaceId = s.vaultId ∧ r.surface = .document ∧ r.Live ∧
        ⟨.document, r.currentPath.toList, r.resourceId⟩ = e) ∨
      (s.native = false ∧ ∃ r ∈ c.documents, r.vaultId = s.vaultId ∧ ⟨.document, r.path.1, r.id⟩ = e) := by
  cases hnative : s.native <;>
    simp only [documentArm, hnative, Bool.false_eq_true, if_true, if_false, List.mem_map, List.mem_filter,
      decide_eq_true_eq, and_assoc, false_and, true_and, or_false, false_or, reduceCtorEq] <;> rfl

private theorem mem_tableArm {c : Catalog} {s : Scope} {e : Position} :
    e ∈ tableArm c s ↔
      ∃ r ∈ c.tables, r.vaultId = s.vaultId ∧ ⟨.table, childPath c r.collectionId r.name, r.id⟩ = e := by
  simp only [tableArm, List.mem_map, List.mem_filter, decide_eq_true_eq, and_assoc]
  rfl

private theorem mem_fileArm {c : Catalog} {s : Scope} {e : Position} :
    e ∈ fileArm c s ↔ ∃ r ∈ c.files, r.vaultId = s.vaultId ∧ r.kind = "file" ∧ r.uploadState = "confirmed" ∧
      ⟨.file, childPath c r.collectionId r.name, r.id⟩ = e := by
  simp only [fileArm, List.mem_map, List.mem_filter, decide_eq_true_eq, and_assoc]
  rfl

theorem mem_arms {c : Catalog} {s : Scope} {e : Position} : e ∈ arms c s ↔ Listed c s e := by
  simp only [arms, List.mem_append, List.mem_ite_nil_right, mem_collectionArm, mem_documentArm, mem_tableArm, mem_fileArm]
  constructor
  · rintro (((⟨ht, r, hr, hv, rfl⟩ | ⟨ht, h⟩) | ⟨⟨ha, ht⟩, r, hr, hv, rfl⟩) | ⟨⟨ha, ht⟩, r, hr, hv, hk, hu, rfl⟩)
    · exact .collection hr hv ht
    · rcases h with ⟨hn, r, hr, hv, hs, hl, rfl⟩ | ⟨hn, r, hr, hv, rfl⟩
      · exact .nativeDocument hr hv hs hl hn ht
      · exact .document hr hv hn ht
    · exact .table hr hv ha ht
    · exact .file hr hv hk hu ha ht
  · intro h
    cases h with
    | collection hr hv ht => exact Or.inl (Or.inl (Or.inl ⟨ht, _, hr, hv, rfl⟩))
    | document hr hv hn ht => exact Or.inl (Or.inl (Or.inr ⟨ht, Or.inr ⟨hn, _, hr, hv, rfl⟩⟩))
    | nativeDocument hr hv hs hl hn ht =>
      exact Or.inl (Or.inl (Or.inr ⟨ht, Or.inl ⟨hn, _, hr, hv, hs, hl, rfl⟩⟩))
    | table hr hv ha ht => exact Or.inl (Or.inr ⟨⟨ha, ht⟩, _, hr, hv, rfl⟩)
    | file hr hv hk hu ha ht => exact Or.inr ⟨⟨ha, ht⟩, _, hr, hv, hk, hu, rfl⟩

theorem mem_entries {c : Catalog} {s : Scope} {e : Position} : e ∈ entries c s ↔ InScope c s e := by
  rw [entries, List.mem_filter, mem_arms, clauses_iff]
  exact ⟨fun ⟨h, h'⟩ => ⟨h, h'⟩, fun ⟨h, h'⟩ => ⟨h, h'⟩⟩

/-! ### No identity twice -/

private theorem nul_childPath (c : Catalog) (collectionId : Option Uuid) (name : PgText) :
    '\x00' ∉ childPath c collectionId name := by
  unfold childPath
  split
  · rename_i collection _
    rw [List.mem_append, List.mem_cons]
    rintro (h | h | h)
    · exact collection.path.2 h
    · cases h
    · exact name.2 h
  · exact name.2

theorem nul_entries {c : Catalog} {s : Scope} {e : Position} (he : e ∈ entries c s) : '\x00' ∉ e.path := by
  cases (mem_entries.mp he).listed with
  | @collection r => exact r.path.2
  | @document r => exact r.path.2
  | nativeDocument hr => exact c.native_path _ hr
  | table => exact nul_childPath c _ _
  | file => exact nul_childPath c _ _

/-- The rows of one arm: one kind, and ids that differ. -/
private def OfKind (kind : Kind) (arm : List Position) : Prop := (∀ e ∈ arm, e.kind = kind) ∧ (arm.map Position.id).Nodup

private theorem ofKind_map {ρ : Type} {idOf : ρ → Uuid} (t : Table ρ idOf) (p : ρ → Bool) (kind : Kind) (path : ρ → Text) :
    OfKind kind ((t.rows.filter p).map (fun r => ⟨kind, path r, idOf r⟩)) := by
  refine ⟨List.forall_mem_map.mpr fun r _ => rfl, ?_⟩
  rw [List.map_map]
  exact t.unique.sublist (List.filter_sublist.map idOf)

private theorem ofKind_ite {kind : Kind} {arm : List Position} (h : OfKind kind arm) (p : Prop) [Decidable p] :
    OfKind kind (if p then arm else []) := by
  split
  · exact h
  · exact ⟨fun _ h => absurd h List.not_mem_nil, List.nodup_nil⟩

private theorem nodup_key_of_ofKind {kind : Kind} {arm : List Position} (h : OfKind kind arm) :
    (arm.map Position.key).Nodup := by
  refine List.Nodup.of_map (fun k => (ofLex (ofLex k).2).2) ?_
  rw [List.map_map]
  have hid : (fun k : Nat ×ₗ (List Nat ×ₗ Nat) => (ofLex (ofLex k).2).2) ∘ Position.key = BitVec.toNat ∘ Position.id := rfl
  rw [hid, ← List.map_map]
  exact h.2.map BitVec.toNat_injective

private theorem nodup_append {kind : Kind} {arm rest : List Position} (h : OfKind kind arm)
    (hrest : (rest.map Position.key).Nodup) (hother : ∀ e ∈ rest, e.kind ≠ kind) :
    ((arm ++ rest).map Position.key).Nodup := by
  have hcode : Function.Injective Kind.code := by
    intro a b
    cases a <;> cases b <;> simp [Kind.code]
  rw [List.map_append]
  refine List.Nodup.append (nodup_key_of_ofKind h) hrest ?_
  intro k hk hk'
  obtain ⟨e, he, rfl⟩ := List.mem_map.mp hk
  obtain ⟨e', he', heq⟩ := List.mem_map.mp hk'
  have hkind : e'.kind.code = e.kind.code := congrArg (fun k : Nat ×ₗ (List Nat ×ₗ Nat) => (ofLex k).1) heq
  exact hother e' he' ((hcode hkind).trans (h.1 e he))

private theorem ofKind_documentArm (c : Catalog) (s : Scope) : OfKind .document (documentArm c s) := by
  unfold documentArm
  split
  · exact ofKind_map c.native.resources _ .document _
  · exact ofKind_map c.documents _ .document _

theorem nodup_key_entries (c : Catalog) (s : Scope) : ((entries c s).map Position.key).Nodup := by
  refine List.Nodup.sublist (List.filter_sublist.map _) ?_
  have hcollections : OfKind .collection (collectionArm c s) := ofKind_map c.collections _ .collection _
  have hdocuments := ofKind_documentArm c s
  have htables : OfKind .table (tableArm c s) := ofKind_map c.tables _ .table _
  have hfiles : OfKind .file (fileArm c s) := ofKind_map c.files _ .file _
  have hkind {kind : Kind} {arm : List Position} (h : OfKind kind arm) {p : Prop} [Decidable p] {e : Position}
      (he : e ∈ if p then arm else []) : e.kind = kind := (ofKind_ite h p).1 e he
  rw [arms, List.append_assoc, List.append_assoc]
  refine nodup_append (ofKind_ite hcollections _) (nodup_append (ofKind_ite hdocuments _)
    (nodup_append (ofKind_ite htables _) (nodup_key_of_ofKind (ofKind_ite hfiles _)) ?_) ?_) ?_ <;> intro e he
  · rw [hkind hfiles he]
    decide
  · rcases List.mem_append.mp he with he | he
    · rw [hkind htables he]
      decide
    · rw [hkind hfiles he]
      decide
  · rcases List.mem_append.mp he with he | he
    · rw [hkind hdocuments he]
      decide
    rcases List.mem_append.mp he with he | he
    · rw [hkind htables he]
      decide
    · rw [hkind hfiles he]
      decide

end Akb.Browse
