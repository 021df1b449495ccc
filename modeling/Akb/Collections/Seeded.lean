import Akb.Collections.Frame
import Akb.Collections.Reachable

/-! The reserved collection. Its row is only ever made for the document of the vault seed, and no
operation removes that document's row from the catalogue. -/
namespace Akb.Collections
open Akb.Library Akb.Library.OuterTransaction Akb.Uri

def Seeded (v : Vault) : Prop :=
  (∃ c ∈ v.collections, c.path = skillCollection) → ∃ d ∈ v.documents, d.path = vaultSkillPath

/-- The row of the reserved collection is not new in `w`, and the seed's row is still there. -/
structure LeavesSeed (v w : Vault) : Prop where
  collections : ∀ c ∈ w.collections, c.path = skillCollection → ∃ c' ∈ v.collections, c'.path = skillCollection
  documents : ∀ d ∈ v.documents, d.path = vaultSkillPath → ∃ d' ∈ w.documents, d'.path = vaultSkillPath

variable {v w u : Vault}

theorem LeavesSeed.seeded (h : LeavesSeed v w) (hv : Seeded v) : Seeded w := by
  rintro ⟨c, hc, hpath⟩
  obtain ⟨d, hd, hskill⟩ := hv (h.collections c hc hpath)
  exact h.documents d hd hskill

theorem LeavesSeed.trans (h : LeavesSeed v w) (h' : LeavesSeed w u) : LeavesSeed v u where
  collections c hc hpath := by
    obtain ⟨c', hc', hpath'⟩ := h'.collections c hc hpath
    exact h.collections c' hc' hpath'
  documents d hd hpath := by
    obtain ⟨d', hd', hpath'⟩ := h.documents d hd hpath
    exact h'.documents d' hd' hpath'

theorem LeavesSeed.of_same (hc : w.collections = v.collections) (hd : w.documents = v.documents) : LeavesSeed v w where
  collections c hmem hpath := ⟨c, hc ▸ hmem, hpath⟩
  documents d hmem hpath := ⟨d, hd.symm ▸ hmem, hpath⟩

theorem LeavesSeed.insertCollection {c : Collection} {collections : Table Collection Collection.id}
    (hpath : c.path ≠ skillCollection) (hok : v.collections.insert? c = some collections) :
    LeavesSeed v { v with collections } where
  collections k hk hskill := by
    rcases ((Table.insert?_eq_some hok).2 k).mp hk with rfl | hk
    · exact absurd hskill hpath
    · exact ⟨k, hk, hskill⟩
  documents d hd hskill := ⟨d, hd, hskill⟩

theorem getOrCreate_leavesSeed {path : Text} {newId id : Id} (hpath : path ≠ skillCollection)
    (hok : v.getOrCreate path newId = some (w, id)) : LeavesSeed v w ∧ w.documents = v.documents := by
  rw [Vault.getOrCreate] at hok
  split at hok
  · cases hok
    exact ⟨.of_same rfl rfl, rfl⟩
  · obtain ⟨collections, hins, heq⟩ := Option.map_eq_some_iff.mp hok
    cases heq
    exact ⟨.insertCollection hpath hins, rfl⟩

theorem getOrCreate?_leavesSeed {path : Option Text} {newId : Id} {id : Option Id} (hpath : ∀ p ∈ path, p ≠ skillCollection)
    (hok : v.getOrCreate? newId path = some (w, id)) : LeavesSeed v w ∧ w.documents = v.documents := by
  cases path with
  | none =>
    cases hok
    exact ⟨.of_same rfl rfl, rfl⟩
  | some path =>
    obtain ⟨⟨w', id'⟩, hget, heq⟩ := Option.map_eq_some_iff.mp hok
    cases heq
    exact getOrCreate_leavesSeed (hpath path rfl) hget

theorem ne_skill_of_not_reserved {collection : Option Text} (h : ¬ ReservedCollection collection) :
    ∀ p ∈ collection, p ≠ skillCollection := by
  intro p hp he
  exact h ⟨p, hp, Or.inl he⟩

theorem directory_ne_skill {path : Text} (h : ¬ ReservedPath path) : ∀ p ∈ Vault.directory path, p ≠ skillCollection := by
  rintro p hp rfl
  exact h (below_of_directory hp)

theorem reserved_vaultSkillPath : ReservedPath vaultSkillPath := by decide

/-! ### Deletions -/

/-- Only the reserved collection itself has the seed below it. -/
theorem not_below_vaultSkillPath {p : Text} (hp : p ≠ skillCollection) : ¬ Below p vaultSkillPath := by
  rintro ⟨rest, hrest⟩
  have hbase : '/' ∉ rest := by
    intro hmem
    have hcount := congrArg (List.count '/') hrest
    have hone : List.count '/' vaultSkillPath = 1 := by decide
    rw [hone, List.count_append, List.count_append, List.count_singleton_self] at hcount
    have := List.count_pos_iff.mpr hmem
    omega
  have hpath : vaultSkillPath = skillCollection ++ '/' :: "vault-skill.md".toList := by decide
  rw [hpath, List.append_assoc, List.singleton_append] at hrest
  have hsplit := congrArg rsplit hrest
  rw [rsplit_append _ hbase, rsplit_append _ (by decide)] at hsplit
  exact hp (Prod.mk.inj hsplit).1

theorem deleteLegacy_leavesSeed {d : DocumentRow} (hother : ∀ x ∈ v.documents, x.id = d.id → x.path ≠ vaultSkillPath)
    (hok : v.deleteLegacy d = .ok w) : LeavesSeed v w := by
  rw [Vault.deleteLegacy, Vault.deleteWithPublications] at hok
  split at hok
  · cases hok
    exact .of_same rfl rfl
  · split at hok
    · cases hok
    · cases hok
      refine ⟨fun c hc hpath => ⟨c, hc, hpath⟩, fun x hx hpath => ⟨x, ?_, hpath⟩⟩
      exact Table.mem_deleteWhere.mpr ⟨hx, decide_eq_false fun hid => hother x hx hid hpath⟩

theorem deleteCollections_leavesSeed {ids : List Id} (hok : v.deleteCollections ids = .ok w) : LeavesSeed v w := by
  obtain ⟨-, -, -, -, -, -, -, hcolls, hdocs, -⟩ := deleteCollections_ok hok
  exact ⟨fun c hc hpath => ⟨c, ((hcolls c).mp hc).1, hpath⟩, fun d hd hpath => ⟨_, (hdocs _).mpr ⟨d, hd, rfl⟩, hpath⟩⟩

theorem deleteFile_leavesSeed {f : FileRow} {nativeText : Bool} (hok : v.deleteFile nativeText f = .ok w) : LeavesSeed v w := by
  rw [Vault.deleteFile] at hok
  split at hok
  · cases hok
    exact .of_same rfl rfl
  · split at hok
    · split at hok
      · cases hok
        exact .of_same rfl rfl
      · cases hok
    · split at hok
      · cases hok
        exact .of_same rfl rfl
      · cases hok

theorem deleteTable_leavesSeed {t : TableRow} (hok : v.deleteTable t = .ok w) : LeavesSeed v w := by
  rw [Vault.deleteTable] at hok
  split at hok
  · cases hok
  · cases hok
    exact .of_same rfl rfl

/-- The rows of the catalogue are among those of `v`, up to their collection. -/
def Among (v w : Vault) : Prop := ∀ x ∈ w.documents, ∃ a ∈ v.documents, a.id = x.id ∧ a.path = x.path

theorem delete_leavesSeed (v : Vault) (q : Request) :
    (∀ r, delete q v = .error r → LeavesSeed v r.kept) ∧ ∀ w, delete q v = .ok w → LeavesSeed v w := by
  rw [Collections.delete]
  split
  · exact ⟨fun r hr => (by cases hr; exact .of_same rfl rfl), fun w hw => by cases hw⟩
  · rename_i hskill
    have hall : Upholds (fun w => LeavesSeed v w ∧ Among v w) (andThen (snapshot q v) (cleanUp q v)) := by
      refine upholds_andThen ?_ (upholds_andThen ?_ (upholds_andThen ?_ (upholds_andThen ?_ (upholds_andThen ?_ ?_))))
      · refine upholds_statement _ fun s s' hs hok => ?_
        split at hok
        · cases hok
        · cases hok
          exact hs
      · refine upholds_each fun d hd => upholds_statement _ fun s s' hs hok => ⟨?_, ?_⟩
        · refine hs.1.trans (deleteLegacy_leavesSeed (fun x hx hid hpath => ?_) hok)
          obtain ⟨a, ha, haid, hapath⟩ := hs.2 x hx
          obtain rfl := Table.eq_of_key ha (mem_listDocsUnder.mp hd).1 (haid.trans hid)
          rw [hpath] at hapath
          exact not_below_vaultSkillPath hskill (hapath ▸ (mem_listDocsUnder.mp hd).2)
        · exact fun x hx => hs.2 x ((deleteLegacy_shrinks hok).documents x hx)
      · refine upholds_each fun r _ => upholds_andThen
          (upholds_ownCommit _ fun s hs => ⟨hs.1.trans (.of_same rfl rfl), hs.2⟩) ?_
        refine upholds_statement _ fun s s' hs hok => ?_
        cases hok
        exact ⟨hs.1.trans (.of_same rfl rfl), hs.2⟩
      · refine upholds_each fun f _ => upholds_statement _ fun s s' hs hok =>
          ⟨hs.1.trans (deleteFile_leavesSeed hok), fun x hx => hs.2 x ((deleteFile_shrinks hok).documents x hx)⟩
      · refine upholds_each fun t _ => upholds_statement _ fun s s' hs hok =>
          ⟨hs.1.trans (deleteTable_leavesSeed hok), fun x hx => hs.2 x ((deleteTable_shrinks hok).documents x hx)⟩
      · refine upholds_statement _ fun s s' hs hok => ⟨hs.1.trans (deleteCollections_leavesSeed hok), fun x hx => ?_⟩
        obtain ⟨a, ha, rfl⟩ := ((deleteCollections_ok hok).2.2.2.2.2.2.2.2.1 x).mp hx
        exact hs.2 a ha
    have hstart : LeavesSeed v v ∧ Among v v := ⟨.of_same rfl rfl, fun x hx => ⟨x, hx, rfl, rfl⟩⟩
    obtain ⟨herr, hok⟩ := Upholds.transaction hall hstart
    exact ⟨fun r hr => (herr r hr).1, fun w hw => (hok w hw).1⟩

/-! ### Runs -/

theorem putDocument_seeded {id path newId commit : Text} (h : Seeded v) (hok : v.putDocument id path newId commit = some w) :
    Seeded w := by
  rw [Vault.putDocument] at hok
  split at hok
  · rename_i hcheck
    obtain ⟨⟨u, c⟩, hget, hok⟩ := Option.bind_eq_some_iff.mp hok
    obtain ⟨documents, hins, rfl⟩ := Option.map_eq_some_iff.mp hok
    have hmem := (Table.insert?_eq_some hins).2
    by_cases hpath : ReservedPath path
    · intro _
      exact ⟨_, (hmem _).mpr (Or.inl rfl), hcheck.2.2 hpath⟩
    · have hu := getOrCreate?_leavesSeed (directory_ne_skill hpath) hget
      have hins' : LeavesSeed u { u with documents } :=
        ⟨fun k hk hskill => ⟨k, hk, hskill⟩, fun d hd hskill => ⟨d, (hmem d).mpr (Or.inr hd), hskill⟩⟩
      exact (hu.1.trans hins').seeded h
  · cases hok

theorem moveDocument_leavesSeed {id path newId commit : Text} (hok : v.moveDocument id path newId commit = some w) :
    LeavesSeed v w := by
  rw [Vault.moveDocument] at hok
  split at hok
  · cases hok
  rename_i row hget
  obtain ⟨hrow, rfl⟩ := Table.get?_eq_some.mp hget
  split at hok
  · rename_i hcheck
    obtain ⟨⟨u, c⟩, hcreate, rfl⟩ := Option.map_eq_some_iff.mp hok
    obtain ⟨hu, hdocs⟩ := getOrCreate?_leavesSeed (directory_ne_skill hcheck.2.2.2) hcreate
    refine hu.trans ⟨fun k hk hskill => ⟨k, hk, hskill⟩, fun d hd hskill => ?_⟩
    refine ⟨d, Table.mem_upsert.mpr (Or.inr ⟨hd, fun hsame => hcheck.2.2.1 ?_⟩), hskill⟩
    rw [← Table.eq_of_key (hdocs ▸ hd) hrow hsame, hskill]
    exact reserved_vaultSkillPath
  · cases hok

theorem Seeded.perform {op : Op} (h : Seeded v) (hok : v.perform op = some w) : Seeded w := by
  cases op with
  | createCollection id path =>
    rw [Vault.perform] at hok
    split at hok
    · cases hok
    · rename_i hno
      rw [not_or] at hno
      obtain ⟨collections, hins, rfl⟩ := Option.map_eq_some_iff.mp hok
      exact (LeavesSeed.insertCollection (ne_skill_of_not_reserved hno.2 path rfl) hins).seeded h
  | putDocument id path newCollectionId commit => exact putDocument_seeded h hok
  | updateDocument id commit =>
    rw [Vault.perform] at hok
    split at hok
    · cases hok
    · obtain rfl := Option.some.inj hok
      intro hrow
      obtain ⟨d, hd, hpath⟩ := h hrow
      by_cases hid : d.id = id
      · refine ⟨{ d with currentCommit := commit }, ?_, hpath⟩
        change _ ∈ Table.updateWhere v.documents _ (fun d => { d with currentCommit := commit }) (fun _ => rfl)
        exact Table.mem_updateWhere.mpr (Or.inl ⟨d, hd, decide_eq_true hid, rfl⟩)
      · refine ⟨d, ?_, hpath⟩
        change _ ∈ Table.updateWhere v.documents _ (fun d => { d with currentCommit := commit }) (fun _ => rfl)
        exact Table.mem_updateWhere.mpr (Or.inr ⟨hd, decide_eq_false hid⟩)
  | moveDocument id path newCollectionId commit => exact (moveDocument_leavesSeed hok).seeded h
  | deleteDocument id =>
    rw [Vault.perform] at hok
    split at hok
    · cases hok
    · obtain ⟨d, hget, hdel⟩ := Option.bind_eq_some_iff.mp hok
      split at hdel
      · cases hdel
      · rename_i hno
        refine (deleteLegacy_leavesSeed (fun x hx hid hpath => hno ?_) (ok_of_toOption hdel)).seeded h
        rw [← Table.eq_of_key hx (Table.get?_eq_some.mp hget).1 hid, hpath]
        exact reserved_vaultSkillPath
  | createFile row collection newCollectionId =>
    rw [Vault.perform] at hok
    split at hok
    · cases hok
    · rename_i hno
      rw [not_or] at hno
      obtain ⟨⟨u, c⟩, hget, hok⟩ := Option.bind_eq_some_iff.mp hok
      obtain ⟨files, -, rfl⟩ := Option.map_eq_some_iff.mp hok
      have hu := (getOrCreate?_leavesSeed (ne_skill_of_not_reserved hno.1) hget).1
      exact (hu.trans (.of_same rfl rfl)).seeded h
  | adoptFile id collection newCollectionId =>
    rw [Vault.perform] at hok
    split at hok
    · cases hok
    · rename_i hno
      obtain ⟨⟨u, c⟩, hget, rfl⟩ := Option.map_eq_some_iff.mp hok
      have hu := (getOrCreate?_leavesSeed (ne_skill_of_not_reserved hno) hget).1
      exact (hu.trans (.of_same rfl rfl)).seeded h
  | deleteFile id nativeText =>
    obtain ⟨f, -, hdel⟩ := Option.bind_eq_some_iff.mp hok
    exact (deleteFile_leavesSeed (ok_of_toOption hdel)).seeded h
  | createTable row collection newCollectionId =>
    rw [Vault.perform] at hok
    split at hok
    · cases hok
    · rename_i hno
      rw [not_or] at hno
      obtain ⟨⟨u, c⟩, hget, hok⟩ := Option.bind_eq_some_iff.mp hok
      obtain ⟨tables, -, rfl⟩ := Option.map_eq_some_iff.mp hok
      have hu := (getOrCreate?_leavesSeed (ne_skill_of_not_reserved hno.1) hget).1
      exact (hu.trans (.of_same rfl rfl)).seeded h
  | alterTable id references =>
    obtain rfl := Option.some.inj hok
    exact h
  | dropTable id =>
    obtain ⟨t, -, hdel⟩ := Option.bind_eq_some_iff.mp hok
    exact (deleteTable_leavesSeed (ok_of_toOption hdel)).seeded h
  | publishDocument slug id =>
    rw [Vault.perform, Vault.publishDocument] at hok
    split at hok
    · obtain ⟨r, -, rfl⟩ := Option.map_eq_some_iff.mp hok
      exact h
    · obtain ⟨d, -, rfl⟩ := Option.map_eq_some_iff.mp hok
      exact h
  | publishUnbound slug resourceUri =>
    obtain rfl := Option.some.inj hok
    exact h
  | unpublish slug =>
    obtain rfl := Option.some.inj hok
    exact h
  | rewrite edges chunks =>
    obtain rfl := Option.some.inj hok
    exact h
  | deleteCollection q =>
    rw [Vault.perform] at hok
    split at hok
    · rename_i u hdel
      obtain rfl := Option.some.inj hok
      exact ((delete_leavesSeed v q).2 _ hdel).seeded h
    · rename_i r hdel
      obtain rfl := Option.some.inj hok
      exact ((delete_leavesSeed v q).1 r hdel).seeded h
  | cutover rebound revisionId =>
    rw [Vault.perform, Vault.cutover] at hok
    split at hok
    · cases hok
    · obtain rfl := Option.some.inj hok
      exact h
  | nativeCreate resourceId path revisionId =>
    rw [Vault.perform, Vault.nativeCreate] at hok
    split at hok
    · obtain ⟨natives, -, rfl⟩ := Option.map_eq_some_iff.mp hok
      exact h
    · cases hok
  | nativeReplace resourceId revisionId =>
    rw [Vault.perform, Vault.nativeReplace] at hok
    split at hok
    · cases hok
    · split at hok
      · obtain rfl := Option.some.inj hok
        exact h
      · cases hok
  | nativeMove resourceId path revisionId =>
    rw [Vault.perform, Vault.nativeMove] at hok
    split at hok
    · cases hok
    · split at hok
      · obtain rfl := Option.some.inj hok
        exact h
      · cases hok
  | nativeDelete resourceId revisionId =>
    obtain ⟨r, -, hdel⟩ := Option.bind_eq_some_iff.mp hok
    split at hdel
    · cases hdel
    · obtain rfl := Option.some.inj hdel
      exact h

theorem Reachable.seeded (h : Reachable v) : Seeded v := by
  obtain ⟨name, native, ops, rfl⟩ := h
  generalize hs : emptyVault name native = s
  have hstart : Seeded s := by
    rintro ⟨c, hc, -⟩
    exact absurd hc (hs ▸ Table.not_mem_empty c)
  clear hs
  induction ops generalizing s with
  | nil => exact hstart
  | cons op ops ih =>
    refine ih _ ?_
    rw [Vault.next]
    cases hok : s.perform op with
    | none => exact hstart
    | some t => exact hstart.perform hok

end Akb.Collections
