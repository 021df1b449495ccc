import Akb.Collections.WellFormed

/-! Every reachable state is well formed. -/
namespace Akb.Collections
open Akb.Library Akb.Library.OuterTransaction Akb.Uri

variable {v w : Vault}

theorem ok_of_toOption {ε α : Type*} {x : Except ε α} {a : α} (h : x.toOption = some a) : x = .ok a := by
  cases x with
  | error e => cases h
  | ok b => exact congrArg Except.ok (Option.some.inj h)

/-- New rows of the catalogue, each at the path and in the collection of an old one. -/
theorem WellFormed.revise {documents : Table DocumentRow DocumentRow.id} {f : DocumentRow → DocumentRow} (h : WellFormed v)
    (hmem : ∀ d, d ∈ documents ↔ ∃ a ∈ v.documents, d = f a) (hid : ∀ a, (f a).id = a.id)
    (hpath : ∀ a, (f a).path = a.path) (hcoll : ∀ a, (f a).collectionId = a.collectionId) :
    WellFormed { v with documents } := by
  refine { h with oneDocument := ?_, inCollection := ?_, bound := ?_, fresh := ?_ }
  · intro d hd d' hd' he
    obtain ⟨a, ha, rfl⟩ := (hmem d).mp hd
    obtain ⟨a', ha', rfl⟩ := (hmem d').mp hd'
    rw [hpath, hpath] at he
    rw [h.oneDocument a ha a' ha' he]
  · intro d hd i hi
    obtain ⟨a, ha, rfl⟩ := (hmem d).mp hd
    rw [hcoll] at hi
    obtain ⟨c, hc, hci, hbelow⟩ := h.inCollection a ha i hi
    exact ⟨c, hc, hci, (hpath a).symm ▸ hbelow⟩
  · intro p hp i hi
    obtain ⟨a, ha, rfl, huri⟩ := h.bound p hp i hi
    exact ⟨f a, (hmem _).mpr ⟨a, ha, rfl⟩, hid a, by rw [hpath]; exact huri⟩
  · refine fun hn => (h.fresh hn).imp_right fun hno d hd => ?_
    obtain ⟨a, ha, -⟩ := (hmem d).mp hd
    exact hno a ha

theorem rebase_documentId (oldUri newUri : Text) (p : Publication) : (Vault.rebase oldUri newUri p).documentId = p.documentId := by
  rw [Vault.rebase]
  split <;> rfl

theorem rebase_nativeDocumentId (oldUri newUri : Text) (p : Publication) :
    (Vault.rebase oldUri newUri p).nativeDocumentId = p.nativeDocumentId := by
  rw [Vault.rebase]
  split <;> rfl

theorem rebase_resourceUri {oldUri newUri uri : Text} {p : Publication} (h : p.resourceUri = some uri) :
    (Vault.rebase oldUri newUri p).resourceUri = some (if uri = oldUri then newUri else uri) := by
  rw [Vault.rebase, h]
  split
  · rename_i he
    rw [if_pos (Option.some.inj he)]
  · rename_i he
    rw [if_neg (fun hc => he (congrArg some hc)), h]

theorem WellFormed.moveDocument {id path newId commit : Text} (h : WellFormed v)
    (hok : v.moveDocument id path newId commit = some w) : WellFormed w := by
  rw [Vault.moveDocument] at hok
  split at hok
  · cases hok
  rename_i row hget
  obtain ⟨hrow, rfl⟩ := Table.get?_eq_some.mp hget
  split at hok
  · rename_i hfree
    obtain ⟨⟨u, c⟩, hcreate, rfl⟩ := Option.map_eq_some_iff.mp hok
    obtain ⟨hu, hv, hcoll⟩ := h.getOrCreate? hcreate
    rw [hv] at hu ⊢
    have huri : ({ v with collections := u.collections } : Vault).docUri = v.docUri := rfl
    refine hu.placeDocument { row with path, collectionId := c, currentCommit := commit } (fun d => Table.mem_upsert)
      hfree.2.1 (by rw [hv] at hcoll; exact hcoll) ?_ ?_ ?_ hfree.1
    · intro q hq i hi
      obtain ⟨p, hp, rfl⟩ := List.mem_map.mp hq
      rw [rebase_documentId] at hi
      obtain ⟨a, ha, rfl, hres⟩ := h.bound p hp i hi
      rw [rebase_resourceUri hres]
      by_cases hsame : a.id = row.id
      · obtain rfl := Table.eq_of_key ha hrow hsame
        exact ⟨_, Table.mem_upsert.mpr (Or.inl rfl), rfl, by rw [if_pos rfl]; rfl⟩
      · refine ⟨a, Table.mem_upsert.mpr (Or.inr ⟨ha, hsame⟩), rfl, ?_⟩
        rw [if_neg, huri]
        intro he
        exact hsame (congrArg DocumentRow.id (h.oneDocument a ha row hrow (docUri_inj he)))
    · intro q hq i hi
      obtain ⟨p, hp, rfl⟩ := List.mem_map.mp hq
      rw [rebase_nativeDocumentId] at hi
      obtain ⟨r, hr, -⟩ := h.nativeBound p hp i hi
      exact absurd hr ((h.legacy hfree.1).2 r)
    · intro q hq
      obtain ⟨p, hp, rfl⟩ := List.mem_map.mp hq
      rw [rebase_documentId, rebase_nativeDocumentId]
      exact h.oneBinding p hp
  · cases hok

theorem WellFormed.createFile {row : FileRow} {collection : Option Text} {newId : Id} (h : WellFormed v)
    (hok : v.perform (.createFile row collection newId) = some w) : WellFormed w := by
  rw [Vault.perform] at hok
  split at hok
  · cases hok
  · rename_i hno
    rw [not_or, not_or] at hno
    obtain ⟨⟨u, c⟩, hget, hok⟩ := Option.bind_eq_some_iff.mp hok
    obtain ⟨files, hins, rfl⟩ := Option.map_eq_some_iff.mp hok
    have hu := (h.getOrCreate? hget).1
    refine hu.thin rfl rfl rfl rfl rfl rfl (fun _ hp => hp) { hu.leaves with fileId := ?_, attachment := ?_ }
    · intro f hf
      rcases ((Table.insert?_eq_some hins).2 f).mp hf with rfl | hf
      · exact hno.2.1
      · exact hu.leaves.fileId f hf
    · intro f hf hkind
      rcases ((Table.insert?_eq_some hins).2 f).mp hf with rfl | hf
      · cases collection with
        | none =>
          cases hget
          rfl
        | some path => exact absurd ⟨hkind, rfl⟩ hno.2.2
      · exact hu.leaves.attachment f hf hkind

theorem WellFormed.adoptFile {id newId : Id} {collection : Option Text} (h : WellFormed v)
    (hok : v.perform (.adoptFile id collection newId) = some w) : WellFormed w := by
  rw [Vault.perform] at hok
  split at hok
  · cases hok
  obtain ⟨⟨u, c⟩, hget, rfl⟩ := Option.map_eq_some_iff.mp hok
  have hu := (h.getOrCreate? hget).1
  refine hu.thin rfl rfl rfl rfl rfl rfl (fun _ hp => hp) { hu.leaves with fileId := ?_, attachment := ?_ }
  · intro f hf
    change f ∈ Table.updateWhere u.files _ (fun f => { f with collectionId := c }) (fun _ => rfl) at hf
    rcases Table.mem_updateWhere.mp hf with ⟨a, ha, -, rfl⟩ | ⟨hf, -⟩
    · exact hu.leaves.fileId a ha
    · exact hu.leaves.fileId f hf
  · intro f hf hkind
    change f ∈ Table.updateWhere u.files _ (fun f => { f with collectionId := c }) (fun _ => rfl) at hf
    rcases Table.mem_updateWhere.mp hf with ⟨a, ha, hfile, rfl⟩ | ⟨hf, -⟩
    · exact absurd ((of_decide_eq_true hfile).2.symm.trans hkind) (by decide)
    · exact hu.leaves.attachment f hf hkind

theorem WellFormed.createTable {row : TableRow} {collection : Option Text} {newId : Id} (h : WellFormed v)
    (hok : v.perform (.createTable row collection newId) = some w) : WellFormed w := by
  rw [Vault.perform] at hok
  split at hok
  · cases hok
  · rename_i hno
    rw [not_or, not_or] at hno
    obtain ⟨⟨u, c⟩, hget, hok⟩ := Option.bind_eq_some_iff.mp hok
    obtain ⟨tables, hins, rfl⟩ := Option.map_eq_some_iff.mp hok
    obtain ⟨hu, hv, -⟩ := h.getOrCreate? hget
    have hfree : ∀ t ∈ u.tables, t.name ≠ row.name := by
      rw [hv]
      exact fun t ht he => hno.2.2 ⟨t, ht, he⟩
    have hmem := (Table.insert?_eq_some hins).2
    refine hu.thin rfl rfl rfl rfl rfl rfl (fun _ hp => hp) { hu.leaves with tableName := ?_, oneTable := ?_ }
    · intro t ht
      rcases (hmem t).mp ht with rfl | ht
      · exact hno.2.1
      · exact hu.leaves.tableName t ht
    · intro t ht t' ht' he
      rcases (hmem t).mp ht with rfl | ht
      · rcases (hmem t').mp ht' with rfl | ht'
        · rfl
        · exact absurd he.symm (hfree t' ht')
      · rcases (hmem t').mp ht' with rfl | ht'
        · exact absurd he (hfree t ht)
        · exact hu.leaves.oneTable t ht t' ht' he

theorem WellFormed.addPublication {p : Publication} (h : WellFormed v) (hone : p.documentId = none ∨ p.nativeDocumentId = none)
    (hbound : ∀ id ∈ p.documentId, ∃ d ∈ v.documents, d.id = id ∧ p.resourceUri = some (v.docUri d.path))
    (hnative : ∀ id ∈ p.nativeDocumentId,
      ∃ r ∈ v.natives, r.resourceId = id ∧ r.live = true ∧ p.resourceUri = some (v.docUri r.currentPath)) :
    WellFormed { v with publications := p :: v.publications } := by
  refine { h with bound := ?_, nativeBound := ?_, oneBinding := ?_ }
  · intro q hq
    rcases List.mem_cons.mp hq with rfl | hq
    · exact hbound
    · exact h.bound q hq
  · intro q hq
    rcases List.mem_cons.mp hq with rfl | hq
    · exact hnative
    · exact h.nativeBound q hq
  · intro q hq
    rcases List.mem_cons.mp hq with rfl | hq
    · exact hone
    · exact h.oneBinding q hq

theorem WellFormed.publishDocument {slug : Text} {id : Id} (h : WellFormed v) (hok : v.publishDocument slug id = some w) :
    WellFormed w := by
  rw [Vault.publishDocument] at hok
  split at hok
  · obtain ⟨r, hget, rfl⟩ := Option.map_eq_some_iff.mp hok
    obtain ⟨hget, hlive⟩ := Option.filter_eq_some_iff.mp hget
    obtain ⟨hr, rfl⟩ := Table.get?_eq_some.mp hget
    refine h.addPublication (Or.inl rfl) (fun i hi => by cases hi) fun i hi => ?_
    obtain rfl := Option.some.inj hi
    exact ⟨r, hr, rfl, hlive, rfl⟩
  · obtain ⟨d, hget, rfl⟩ := Option.map_eq_some_iff.mp hok
    obtain ⟨hd, rfl⟩ := Table.get?_eq_some.mp hget
    refine h.addPublication (Or.inr rfl) (fun i hi => ?_) (fun i hi => by cases hi)
    obtain rfl := Option.some.inj hi
    exact ⟨d, hd, rfl, rfl⟩

/-! ### The ledger -/

theorem WellFormed.cutover {rebound : List Id} {revisionId : Id → Id} (h : WellFormed v)
    (hok : v.cutover rebound revisionId = some w) : WellFormed w := by
  rw [Vault.cutover] at hok
  split at hok
  · cases hok
  · rename_i hn
    obtain rfl := Option.some.inj hok
    have hlegacy := h.legacy (by simpa using hn)
    refine { h with bound := ?_, nativeBound := ?_, oneBinding := ?_, legacy := fun hc => absurd hc (by simp), fresh := fun _ => Or.inl rfl }
    · intro q hq i hi
      obtain ⟨p, hp, rfl⟩ := List.mem_map.mp hq
      rw [Vault.rebind] at hi ⊢
      split at hi
      · split at hi
        · cases hi
        · rename_i d hd hno
          rw [if_neg hno]
          exact h.bound p hp i hi
      · exact h.bound p hp i hi
    · intro q hq i hi
      obtain ⟨p, hp, rfl⟩ := List.mem_map.mp hq
      rw [Vault.rebind] at hi ⊢
      split at hi
      · rename_i d hd
        split at hi
        · rename_i hmem
          obtain rfl := Option.some.inj hi
          obtain ⟨a, ha, rfl, huri⟩ := h.bound p hp d hd
          rw [if_pos hmem]
          exact ⟨Vault.adopted revisionId a, List.mem_map_of_mem ha, rfl, rfl, huri⟩
        · obtain ⟨r, hr, -⟩ := h.nativeBound p hp i hi
          exact absurd hr (hlegacy.2 r)
      · obtain ⟨r, hr, -⟩ := h.nativeBound p hp i hi
        exact absurd hr (hlegacy.2 r)
    · intro q hq
      obtain ⟨p, hp, rfl⟩ := List.mem_map.mp hq
      rw [Vault.rebind]
      split
      · split
        · exact Or.inl rfl
        · exact h.oneBinding p hp
      · exact h.oneBinding p hp

theorem WellFormed.nativeCreate {resourceId path revisionId : Text} (h : WellFormed v)
    (hok : v.nativeCreate resourceId path revisionId = some w) : WellFormed w := by
  rw [Vault.nativeCreate] at hok
  split at hok
  · rename_i hn
    obtain ⟨natives, hins, rfl⟩ := Option.map_eq_some_iff.mp hok
    refine { h with nativeBound := ?_, legacy := fun hc => absurd (hc.symm.trans hn.1) (by decide) }
    intro p hp i hi
    obtain ⟨r, hr, heq⟩ := h.nativeBound p hp i hi
    exact ⟨r, ((Table.insert?_eq_some hins).2 r).mpr (Or.inr hr), heq⟩
  · cases hok

theorem WellFormed.nativeReplace {resourceId revisionId : Text} (h : WellFormed v)
    (hok : v.nativeReplace resourceId revisionId = some w) : WellFormed w := by
  rw [Vault.nativeReplace] at hok
  split at hok
  · cases hok
  rename_i r hget
  obtain ⟨hr, rfl⟩ := Table.get?_eq_some.mp hget
  split at hok
  · rename_i hlive
    obtain rfl := Option.some.inj hok
    refine { h with nativeBound := ?_, legacy := fun hc => absurd hr ((h.legacy hc).2 r) }
    intro p hp i hi
    obtain ⟨s, hs, rfl, hsl, huri⟩ := h.nativeBound p hp i hi
    by_cases hsame : s.resourceId = r.resourceId
    · obtain rfl := Table.eq_of_key hs hr hsame
      exact ⟨_, Table.mem_upsert.mpr (Or.inl rfl), rfl, hsl, huri⟩
    · exact ⟨s, Table.mem_upsert.mpr (Or.inr ⟨hs, hsame⟩), rfl, hsl, huri⟩
  · cases hok

theorem WellFormed.nativeMove {resourceId path revisionId : Text} (h : WellFormed v)
    (hok : v.nativeMove resourceId path revisionId = some w) : WellFormed w := by
  rw [Vault.nativeMove] at hok
  split at hok
  · cases hok
  rename_i r hget
  obtain ⟨hr, rfl⟩ := Table.get?_eq_some.mp hget
  split at hok
  · rename_i hlive
    obtain rfl := Option.some.inj hok
    refine { h with bound := ?_, nativeBound := ?_, oneBinding := ?_, legacy := fun hc => absurd hr ((h.legacy hc).2 r) }
    · intro q hq i hi
      obtain ⟨p, hp, rfl⟩ := List.mem_map.mp hq
      split at hi
      · rename_i hbound
        rcases h.oneBinding p hp with hnone | hnone
        · rw [hnone] at hi
          cases hi
        · rw [hnone] at hbound
          cases hbound
      · rename_i hno
        rw [if_neg hno]
        exact h.bound p hp i hi
    · intro q hq i hi
      obtain ⟨p, hp, rfl⟩ := List.mem_map.mp hq
      split at hi
      · rename_i hbound
        obtain rfl := Option.some.inj (hbound.symm.trans hi)
        exact ⟨_, Table.mem_upsert.mpr (Or.inl rfl), rfl, hlive.1, by rw [if_pos hbound]; rfl⟩
      · rename_i hno
        obtain ⟨s, hs, rfl, heq⟩ := h.nativeBound p hp i hi
        refine ⟨s, Table.mem_upsert.mpr (Or.inr ⟨hs, fun hsame => hno (hsame ▸ hi)⟩), rfl, ?_⟩
        rw [if_neg hno]
        exact heq
    · intro q hq
      obtain ⟨p, hp, rfl⟩ := List.mem_map.mp hq
      split
      · exact h.oneBinding p hp
      · exact h.oneBinding p hp
  · cases hok

/-! ### Runs -/

theorem WellFormed.perform {op : Op} (h : WellFormed v) (hok : v.perform op = some w) : WellFormed w := by
  cases op with
  | createCollection id path =>
    rw [Vault.perform] at hok
    split at hok
    · cases hok
    · rename_i hfree
      rw [not_or] at hfree
      obtain ⟨collections, hins, rfl⟩ := Option.map_eq_some_iff.mp hok
      exact h.insertCollection (by simpa using hfree.1) hins
  | putDocument id path newCollectionId commit => exact h.putDocument hok
  | updateDocument id commit =>
    rw [Vault.perform] at hok
    split at hok
    · cases hok
    · obtain rfl := Option.some.inj hok
      refine h.revise (f := fun a => if a.id = id then { a with currentCommit := commit } else a) ?_ ?_ ?_ ?_
      · intro d
        rw [Table.mem_updateWhere]
        constructor
        · rintro (⟨a, ha, hid, rfl⟩ | ⟨hd, hid⟩)
          · exact ⟨a, ha, by rw [if_pos (of_decide_eq_true hid)]⟩
          · exact ⟨d, hd, by rw [if_neg (of_decide_eq_false hid)]⟩
        · rintro ⟨a, ha, rfl⟩
          by_cases hid : a.id = id
          · rw [if_pos hid]
            exact Or.inl ⟨a, ha, decide_eq_true hid, rfl⟩
          · rw [if_neg hid]
            exact Or.inr ⟨ha, decide_eq_false hid⟩
      all_goals
        intro a
        split <;> rfl
  | moveDocument id path newCollectionId commit => exact h.moveDocument hok
  | deleteDocument id =>
    rw [Vault.perform] at hok
    split at hok
    · cases hok
    · obtain ⟨d, -, hdel⟩ := Option.bind_eq_some_iff.mp hok
      split at hdel
      · cases hdel
      · exact h.deleteLegacy (ok_of_toOption hdel)
  | createFile row collection newCollectionId => exact h.createFile hok
  | adoptFile id collection newCollectionId => exact h.adoptFile hok
  | deleteFile id nativeText =>
    obtain ⟨f, -, hdel⟩ := Option.bind_eq_some_iff.mp hok
    exact h.deleteFile (ok_of_toOption hdel)
  | createTable row collection newCollectionId => exact h.createTable hok
  | alterTable id references =>
    obtain rfl := Option.some.inj hok
    refine h.thin rfl rfl rfl rfl rfl rfl (fun _ hp => hp)
      (h.leaves.thin (fun f hf => ⟨f, hf, rfl, rfl, fun hn => hn⟩) fun t ht => ?_)
    change t ∈ Table.updateWhere v.tables _ (fun t => { t with references }) (fun _ => rfl) at ht
    rcases Table.mem_updateWhere.mp ht with ⟨a, ha, -, rfl⟩ | ⟨ht, -⟩
    · exact ⟨a, ha, rfl, rfl⟩
    · exact ⟨t, ht, rfl, rfl⟩
  | dropTable id =>
    obtain ⟨t, -, hdel⟩ := Option.bind_eq_some_iff.mp hok
    exact h.deleteTable (ok_of_toOption hdel)
  | publishDocument slug id => exact h.publishDocument hok
  | publishUnbound slug resourceUri =>
    obtain rfl := Option.some.inj hok
    exact h.addPublication (Or.inl rfl) (fun i hi => by cases hi) (fun i hi => by cases hi)
  | unpublish slug =>
    obtain rfl := Option.some.inj hok
    exact h.thin rfl rfl rfl rfl rfl rfl (fun _ hp => (List.mem_filter.mp hp).1) h.leaves
  | rewrite edges chunks =>
    obtain rfl := Option.some.inj hok
    exact h.thin rfl rfl rfl rfl rfl rfl (fun _ hp => hp) h.leaves
  | deleteCollection q =>
    rw [Vault.perform] at hok
    split at hok
    · rename_i u hdel
      obtain rfl := Option.some.inj hok
      exact (h.delete q).2 _ hdel
    · rename_i r hdel
      obtain rfl := Option.some.inj hok
      exact (h.delete q).1 r hdel
  | cutover rebound revisionId => exact h.cutover hok
  | nativeCreate resourceId path revisionId => exact h.nativeCreate hok
  | nativeReplace resourceId revisionId => exact h.nativeReplace hok
  | nativeMove resourceId path revisionId => exact h.nativeMove hok
  | nativeDelete resourceId revisionId =>
    obtain ⟨r, -, hdel⟩ := Option.bind_eq_some_iff.mp hok
    split at hdel
    · cases hdel
    · obtain rfl := Option.some.inj hdel
      exact h.publishDelete resourceId revisionId

theorem WellFormed.next (h : WellFormed v) (op : Op) : WellFormed (v.next op) := by
  rw [Vault.next]
  cases hok : v.perform op with
  | none => exact h
  | some w => exact h.perform hok

theorem Reachable.wellFormed (h : Reachable v) : WellFormed v := by
  obtain ⟨name, native, ops, rfl⟩ := h
  generalize hs : emptyVault name native = s
  have hstart : WellFormed s := hs ▸ wellFormed_empty name native
  clear hs
  induction ops generalizing s with
  | nil => exact hstart
  | cons op ops ih => exact ih _ (hstart.next op)

end Akb.Collections
