import Akb.Assets.Superseded

/-! Over every interleaving of writes, uploads, discards and collector passes, an image of a current body is not deleted,
and one of an older body not before its retention period has elapsed. -/
namespace Akb.Assets
open Akb.Library
variable {B : Type*} {cfg : Settings} {images : B → List Id} {s t : State B}

theorem Inv.finalize (h : Inv cfg images s) {id : Id} (hstep : s.finalize id = some t) : Inv cfg images t := by
  unfold State.finalize at hstep
  split at hstep
  · cases hstep
    exact h.of_grown (Nat.le_refl _) (grown_finalizeFile _ _ _) rfl rfl rfl rfl (fun _ hw => hw) (fun _ hp => hp)
  · cases hstep

theorem covered_deleteFiles {revisions : RevisionRefs} {ids : List Id} {vault a : Id} {time : Time}
    (h : Covered revisions vault a time) (ha : a ∉ ids) : Covered (revisions.deleteWhere fun r => r.asset ∈ ids) vault a time := by
  obtain ⟨r, hr, hv, rfl, hle⟩ := h
  exact ⟨r, Table.mem_deleteWhere.mpr ⟨hr, decide_eq_false ha⟩, hv, rfl, hle⟩

theorem removeUpload_eq_some {uploadState : UploadState} {id vault createdBy : Id}
    (hstep : s.removeUpload uploadState id vault createdBy = some t) :
    ∃ f ∈ s.tables.files, f.id = id ∧ f.attachmentClaimedAt = none ∧ id ∉ s.locked ∧
      t = { s with tables := { s.tables.deleteFiles [id] with outbox := s.tables.outbox ++ [⟨f.s3Key, s.now⟩] } } := by
  obtain ⟨f, hget, hf⟩ := Option.bind_eq_some_iff.mp hstep
  obtain ⟨hmem, hid⟩ := Table.mem_of_get? hget
  split at hf
  · rename_i hremovable
    cases hf
    exact ⟨f, hmem, hid, hremovable.1.2.2.1, hremovable.2, rfl⟩
  · cases hf

/-- An upload that no write has claimed is needed by no body that is still retained. -/
theorem Inv.unclaimed_past (h : Inv cfg images s) {f : FileRow} (hf : f ∈ s.tables.files) (hclaimed : f.attachmentClaimedAt = none)
    {r : Shown B} (hr : r ∈ s.shown) (ha : f.id ∈ r.available) : Past cfg s.now r := by
  refine (h.safe r hr f.id ha).resolve_right fun hp => ?_
  obtain ⟨g, hg, hid, -, -, hk⟩ := hp.kept
  cases Table.eq_of_key hg hf hid
  exact hk hclaimed

theorem Inv.removeUpload (h : Inv cfg images s) {uploadState : UploadState} {id vault createdBy : Id}
    (hstep : s.removeUpload uploadState id vault createdBy = some t) : Inv cfg images t := by
  obtain ⟨f, hf, rfl, hclaimed, hfree, rfl⟩ := removeUpload_eq_some hstep
  refine h.deleteFiles [f.id] rfl rfl rfl rfl rfl rfl (fun _ hp => hp) (fun _ hr => (Table.mem_deleteWhere.mp hr).1)
    (fun r _ a _ ha u _ hc => .inr (covered_deleteFiles hc ha)) (fun w hw a ha hid => hfree ?_) (fun r hr a ha hid => ?_)
  · exact mem_locked.mpr (.inl ⟨w, hw, List.mem_singleton.mp hid ▸ ha⟩)
  · exact h.unclaimed_past hf hclaimed hr (List.mem_singleton.mp hid ▸ ha)

/-- What a pass has read does not depend on the transactions that are open. -/
theorem Passing.of_open {p : Pass} (h : Passing cfg s p) (writes : Table (Write B) Write.owner) (passes : Table Pass Pass.worker) :
    Passing cfg { s with writes := writes, passes := passes } p := ⟨h.started, h.expired, h.picked⟩

/-- A native write finds the images of the document it starts from. -/
theorem Inv.parents_found (h : Inv cfg images s) {owner : DocumentAssetOwner} {vault : Id} {request : Request B}
    (hnative : owner.isNative) (happlies : request.Applies owner (s.tables.documents.get? owner))
    (hvault : ∀ d ∈ s.tables.documents.get? owner, d.vault = vault) {r : Shown B} (hr : r ∈ s.shown) (ho : r.supersededAt = none)
    (howner : r.owner = owner) {a : Id} (ha : a ∈ r.available) :
    a ∈ claimable s.tables.files vault (request.wanted images owner (s.tables.documents.get? owner)) := by
  obtain ⟨d, hd, hof⟩ := h.recorded.current r hr ho
  have hget : s.tables.documents.get? owner = some d := Table.get?_eq_some.mpr ⟨hd, hof.1.trans howner⟩
  have himage : a ∈ images d.body := hof.2.2.2.2.1 ▸ h.recorded.within r hr a ha
  obtain ⟨f, hf, hid, hv, hc, -⟩ := (h.open_safe hr ho ha).kept
  refine mem_claimable.mpr ⟨?_, f, hf, hid, hv.trans (hof.2.1.symm.trans (hvault d hget)), hc⟩
  rw [hget] at happlies ⊢
  obtain ⟨id, rfl⟩ : ∃ id, owner = .native id := by
    cases owner with
    | git id => cases hnative
    | native id => exact ⟨id, rfl⟩
  cases request with
  | put path body allow => cases happlies
  | replace body => exact List.mem_append_right _ himage
  | move path => exact himage
  | delete => exact himage
  | restore body =>
    obtain ⟨-, e, he, hdead⟩ := happlies
    cases Option.mem_some_iff.mp he
    rw [hof.2.2.2.2.2] at hdead
    cases hdead

theorem Inv.begin (h : Inv cfg images s) {owner : DocumentAssetOwner} {vault : Id} {started : Time} {request : Request B}
    (hstep : s.begin images owner vault started request = some t) : Inv cfg images t := by
  unfold State.begin at hstep
  dsimp only at hstep
  split at hstep
  · rename_i hbegin
    obtain ⟨happlies, hvault, -, -, hfree⟩ := hbegin
    obtain ⟨writes, hinsert, rfl⟩ := Option.map_eq_some_iff.mp hstep
    refine { h with writes := fun w hw => ?_, passes := fun p hp => (h.passes p hp).of_open _ _ }
    rcases ((Table.insert?_eq_some hinsert).2 w).mp hw with rfl | hw
    · refine ⟨happlies, fun d hd ho => hvault d (Table.get?_eq_some.mpr ⟨hd, ho⟩), fun a ha => (mem_claimable.mp ha).2,
        fun hn r hr ho howner a ha => h.parents_found hn happlies hvault hr ho howner ha, fun p hp a ha hpicked => ?_⟩
      exact hfree a ha (mem_locked.mpr (.inr ⟨p, hp, hpicked⟩))
    · exact (h.writes w hw).of_grown (Grown.refl _) rfl rfl (h.writes w hw).unpicked
  · cases hstep

theorem publish_eq_some {owner : DocumentAssetOwner} {commit : Text} (hstep : s.publish cfg images owner commit = some t) :
    ∃ w ∈ s.writes, w.owner = owner ∧ ∃ tables, publish images s.tables w commit (s.now + cfg.revisionRetention) = some tables ∧
      commit ≠ [] ∧ (∀ p ∈ s.passes, ∀ k ∈ p.expired, tables.revisions.get? k = s.tables.revisions.get? k) ∧
      t = { s with
        tables := tables
        writes := s.writes.deleteWhere fun v => v.owner = w.owner
        shown := record images s.now s.shown w commit (s.tables.documents.get? w.owner) } := by
  obtain ⟨w, hget, hw⟩ := Option.bind_eq_some_iff.mp hstep
  obtain ⟨hmem, rfl⟩ := Table.mem_of_get? hget
  obtain ⟨tables, hpub, hlocked⟩ := Option.bind_eq_some_iff.mp hw
  split at hlocked
  · rename_i hguard
    exact ⟨w, hmem, rfl, tables, hpub, hguard.1, hguard.2, (Option.some_inj.mp hlocked).symm⟩
  · cases hlocked

theorem Inv.publishStep (h : Inv cfg images s) {owner : DocumentAssetOwner} {commit : Text}
    (hstep : s.publish cfg images owner commit = some t) : Inv cfg images t := by
  obtain ⟨w, hw, -, tables, hpub, hcommit, hlocked, rfl⟩ := publish_eq_some hstep
  exact h.publish hw hpub hcommit hlocked

theorem Inv.expire (h : Inv cfg images s) {worker : Id} {started : Time} {keys : List (Id × Text × Text × Id)}
    (hstep : s.expire worker started keys = some t) : Inv cfg images t := by
  unfold State.expire at hstep
  split at hstep
  · rename_i hguard
    obtain ⟨hstarted, -, hkeys⟩ := hguard
    obtain ⟨passes, hinsert, rfl⟩ := Option.map_eq_some_iff.mp hstep
    have hmem := (Table.insert?_eq_some hinsert).2
    refine { h with
      writes := fun w hw => { h.writes w hw with unpicked := fun p hp a ha => ?_ }
      passes := fun p hp => ?_ }
    · rcases (hmem p).mp hp with rfl | hp
      · exact List.not_mem_nil
      · exact (h.writes w hw).unpicked p hp a ha
    · rcases (hmem p).mp hp with rfl | hp
      · refine ⟨hstarted, fun r hr hk => ?_, fun a ha => absurd ha List.not_mem_nil⟩
        obtain ⟨⟨r', hr', hle⟩, -⟩ := hkeys r.key hk
        cases (Table.get?_eq_some.mpr ⟨hr, rfl⟩).symm.trans hr'
        exact hle
      · exact (h.passes p hp).of_open _ _
  · cases hstep

/-- A candidate of the collector is needed by no body that is still retained. -/
theorem Inv.candidate_past (h : Inv cfg images s) {p : Pass} (hp : p.started ≤ s.now) {f : FileRow} (hf : f ∈ s.tables.files)
    (hcandidate : Candidate cfg s.tables p.started f) {r : Shown B} (hr : r ∈ s.shown) (ha : f.id ∈ r.available) :
    Past cfg s.now r := by
  refine (h.safe r hr f.id ha).elim id fun hsafe => ?_
  obtain ⟨g, hg, hid, hv, hc, -⟩ := hsafe.kept
  cases Table.eq_of_key hg hf hid
  rcases hcandidate with ⟨-, hlive, hrevisions, -⟩ | ⟨hkind, -⟩
  · cases hu : r.supersededAt with
    | none => exact absurd ⟨rfl, hv.symm⟩ (hlive _ (hsafe.live hu))
    | some u =>
      obtain ⟨ref, href, hrv, hra, hle⟩ := hsafe.covered u hu
      have hexpired : ¬ p.started < ref.retainUntil := fun hlt => hrevisions ref href ⟨hra, hrv.trans hv.symm, hlt⟩
      exact ⟨u, hu, Nat.le_trans hle (Nat.le_trans (Nat.le_of_not_lt hexpired) hp)⟩
  · rw [hc.1] at hkind
    cases hkind

theorem Inv.pick (h : Inv cfg images s) {worker : Id} {ids : List Id} (hstep : s.pick cfg worker ids = some t) :
    Inv cfg images t := by
  obtain ⟨p, hget, hpick⟩ := Option.bind_eq_some_iff.mp hstep
  obtain ⟨hp, rfl⟩ := Table.mem_of_get? hget
  split at hpick
  · rename_i hguard
    obtain ⟨-, -, hids⟩ := hguard
    cases hpick
    refine { h with
      writes := fun w hw => { h.writes w hw with unpicked := fun q hq a ha => ?_ }
      passes := fun q hq => ?_ }
    · rcases Table.mem_upsert.mp hq with rfl | ⟨hq, -⟩
      · exact fun hpicked => (hids a hpicked).2 (mem_locked.mpr (.inl ⟨w, hw, ha⟩))
      · exact (h.writes w hw).unpicked q hq a ha
    · rcases Table.mem_upsert.mp hq with rfl | ⟨hq, -⟩
      · refine { h.passes p hp with picked := fun a ha r hr har => ?_ }
        obtain ⟨⟨f, hfile, hcandidate⟩, -⟩ := hids a ha
        obtain ⟨hf, rfl⟩ := Table.mem_of_get? (Option.mem_def.mp hfile)
        exact h.candidate_past (h.passes p hp).started hf hcandidate hr har
      · exact (h.passes q hq).of_open _ _
  · cases hpick

theorem Inv.collect (h : Inv cfg images s) {worker : Id} (hstep : s.collect worker = some t) : Inv cfg images t := by
  obtain ⟨p, hget, rfl⟩ := Option.map_eq_some_iff.mp hstep
  have hp := (Table.mem_of_get? hget).1
  refine h.deleteFiles p.picked rfl rfl rfl rfl rfl rfl (fun _ hq => (Table.mem_deleteWhere.mp hq).1)
    (fun r hr => (Table.mem_deleteWhere.mp (Table.mem_deleteWhere.mp hr).1).1) (fun r hr a ha hid u hu hc => ?_)
    (fun w hw a ha => (h.writes w hw).unpicked p hp a ha) fun r hr a ha hid => (h.passes p hp).picked a hid r hr ha
  obtain ⟨ref, href, hv, hra, hle⟩ := hc
  by_cases hexpired : ref.key ∈ p.expired
  · have hpast := Nat.le_trans ((h.passes p hp).expired ref href hexpired) (h.passes p hp).started
    exact .inl ⟨u, hu, Nat.le_trans hle hpast⟩
  · exact .inr (covered_deleteFiles ⟨ref, Table.mem_deleteWhere.mpr ⟨href, decide_eq_false hexpired⟩, hv, hra, hle⟩ hid)

theorem Inv.step (h : Inv cfg images s) {a : Action B} (hstep : Step cfg images s a t) : Inv cfg images t := by
  cases a with
  | tick elapsed =>
    cases hstep
    exact h.of_grown (Nat.le_add_right _ _) (Grown.refl _) rfl rfl rfl rfl (fun _ hw => hw) (fun _ hp => hp)
  | upload id vault kind s3Key createdBy =>
    obtain ⟨files, hinsert, rfl⟩ := Option.map_eq_some_iff.mp hstep
    refine h.of_grown (Nat.le_refl _) (fun f hf => ?_) rfl rfl rfl rfl (fun _ hw => hw) (fun _ hp => hp)
    exact ⟨f, ((Table.insert?_eq_some hinsert).2 f).mpr (.inr hf), rfl, rfl, fun h => h, fun h => h⟩
  | finalize id => exact h.finalize hstep
  | removeUpload uploadState id vault createdBy => exact h.removeUpload hstep
  | begin owner vault started request => exact h.begin hstep
  | abort owner =>
    cases hstep
    exact h.of_grown (Nat.le_refl _) (Grown.refl _) rfl rfl rfl rfl (fun _ hw => (Table.mem_deleteWhere.mp hw).1) (fun _ hp => hp)
  | publish owner commit => exact h.publishStep hstep
  | expire worker started keys => exact h.expire hstep
  | pick worker ids => exact h.pick hstep
  | rollback worker =>
    cases hstep
    exact h.of_grown (Nat.le_refl _) (Grown.refl _) rfl rfl rfl rfl (fun _ hw => hw) (fun _ hp => (Table.mem_deleteWhere.mp hp).1)
  | collect worker => exact h.collect hstep

theorem reached {as : List (Action B)} (hrun : Run (Step cfg images) State.empty as s) : Inv cfg images s :=
  hrun.invariant (fun _ _ _ h hstep => h.step hstep) Inv.empty

/-- The row is deleted by the step. -/
def Deleted (s t : State B) (f : FileRow) : Prop := f ∈ s.tables.files ∧ ∀ g ∈ t.tables.files, g.id ≠ f.id

theorem Grown.not_deleted {f : FileRow} (h : Grown s.tables.files t.tables.files) : ¬ Deleted s t f := by
  rintro ⟨hf, hgone⟩
  obtain ⟨g, hg, hid, -⟩ := h f hf
  exact hgone g hg hid

/-- A step deletes what no retained body needs, and queues the objects of what it deletes. -/
structure Retains (cfg : Settings) (s t : State B) : Prop where
  past : ∀ f, Deleted s t f → ∀ r ∈ s.shown, f.id ∈ r.available → Past cfg s.now r
  queued : ∃ rows, t.tables.outbox = s.tables.outbox ++ rows ∧ ∀ f, Deleted s t f → ∃ row ∈ rows, row.s3Key = f.s3Key

theorem Retains.of_grown (h : Grown s.tables.files t.tables.files) (houtbox : t.tables.outbox = s.tables.outbox) :
    Retains cfg s t where
  past _ hf := absurd hf h.not_deleted
  queued := ⟨[], by rw [houtbox, List.append_nil], fun _ hf => absurd hf h.not_deleted⟩

theorem publish_outbox {w : Write B} {commit : Text} {retainUntil : Time} {tables tables' : Tables B}
    (hpub : publish images tables w commit retainUntil = some tables') : tables'.outbox = tables.outbox := by
  unfold publish at hpub
  split at hpub
  · unfold publishGit at hpub
    split at hpub <;> cases hpub <;> rfl
  · unfold publishNativeWrite at hpub
    split at hpub <;> cases hpub <;> rfl

theorem mem_of_deleteFiles {ids : List Id} {f : FileRow} (hf : f ∈ s.tables.files)
    (hgone : ∀ g ∈ (s.tables.deleteFiles ids).files, g.id ≠ f.id) : f.id ∈ ids := by
  by_contra hid
  exact hgone f (Table.mem_deleteWhere.mpr ⟨hf, decide_eq_false hid⟩) rfl

theorem Inv.retains (h : Inv cfg images s) {a : Action B} (hstep : Step cfg images s a t) : Retains cfg s t := by
  cases a with
  | tick elapsed =>
    cases hstep
    exact .of_grown (Grown.refl _) rfl
  | upload id vault kind s3Key createdBy =>
    obtain ⟨files, hinsert, rfl⟩ := Option.map_eq_some_iff.mp hstep
    exact .of_grown (fun f hf => ⟨f, ((Table.insert?_eq_some hinsert).2 f).mpr (.inr hf), rfl, rfl, fun h => h, fun h => h⟩) rfl
  | finalize id =>
    have hfinalize : s.finalize id = some t := hstep
    unfold State.finalize at hfinalize
    split at hfinalize
    · cases hfinalize
      exact .of_grown (grown_finalizeFile _ _ _) rfl
    · cases hfinalize
  | removeUpload uploadState id vault createdBy =>
    obtain ⟨f, hf, rfl, hclaimed, -, rfl⟩ := removeUpload_eq_some hstep
    have hsame (g : FileRow) (hg : g ∈ s.tables.files) (hid : g.id ∈ [f.id]) : g = f :=
      Table.eq_of_key hg hf (List.mem_singleton.mp hid)
    refine ⟨fun g hg r hr ha => ?_, [_], rfl, fun g hg => ⟨_, List.mem_singleton_self _, ?_⟩⟩
    · obtain rfl := hsame g hg.1 (mem_of_deleteFiles hg.1 hg.2)
      exact h.unclaimed_past hf hclaimed hr ha
    · rw [hsame g hg.1 (mem_of_deleteFiles hg.1 hg.2)]
  | begin owner vault started request =>
    have hbegin : s.begin images owner vault started request = some t := hstep
    unfold State.begin at hbegin
    dsimp only at hbegin
    split at hbegin
    · obtain ⟨writes, -, rfl⟩ := Option.map_eq_some_iff.mp hbegin
      exact .of_grown (Grown.refl _) rfl
    · cases hbegin
  | abort owner =>
    cases hstep
    exact .of_grown (Grown.refl _) rfl
  | publish owner commit =>
    obtain ⟨w, hw, -, tables, hpub, -, -, rfl⟩ := publish_eq_some hstep
    exact .of_grown (h.published hw hpub).files (publish_outbox hpub)
  | expire worker started keys =>
    have hexpire : s.expire worker started keys = some t := hstep
    unfold State.expire at hexpire
    split at hexpire
    · obtain ⟨passes, -, rfl⟩ := Option.map_eq_some_iff.mp hexpire
      exact .of_grown (Grown.refl _) rfl
    · cases hexpire
  | pick worker ids =>
    obtain ⟨p, -, hpick⟩ := Option.bind_eq_some_iff.mp (show s.pick cfg worker ids = some t from hstep)
    split at hpick
    · cases hpick
      exact .of_grown (Grown.refl _) rfl
    · cases hpick
  | rollback worker =>
    cases hstep
    exact .of_grown (Grown.refl _) rfl
  | collect worker =>
    obtain ⟨p, hget, rfl⟩ := Option.map_eq_some_iff.mp (show s.collect worker = some t from hstep)
    have hp := (Table.mem_of_get? hget).1
    have hpicked (f : FileRow) (hf : f ∈ s.tables.files) (hgone : ∀ g ∈ (s.tables.collect p).files, g.id ≠ f.id) : f.id ∈ p.picked :=
      mem_of_deleteFiles hf hgone
    refine ⟨fun f hf r hr ha => (h.passes p hp).picked _ (hpicked f hf.1 hf.2) r hr ha, _, rfl, fun f hf => ?_⟩
    have hqueued : ∃ row ∈ enqueue p.started f, row.s3Key = f.s3Key := by
      unfold enqueue
      split
      · exact ⟨_, List.mem_cons_self, rfl⟩
      · exact ⟨_, List.mem_singleton_self _, rfl⟩
    obtain ⟨row, hrow, hkey⟩ := hqueued
    refine ⟨row, List.mem_flatMap.mpr ⟨f, List.mem_filter.mpr ⟨hf.1, decide_eq_true (hpicked f hf.1 hf.2)⟩, hrow⟩, hkey⟩

/-- In every state that can be reached, the current body of each document has its record, no step deletes an attachment
that was available to the write of a body before the retention period since the body's end has elapsed, and the object of
each deleted row is queued in the same step. -/
theorem images_retained (cfg : Settings) (images : B → List Id) {as : List (Action B)}
    (hrun : Run (Step cfg images) State.empty as s) {a : Action B} (hstep : Step cfg images s a t) :
    (∀ d ∈ s.tables.documents, d.live = true → ∃ r ∈ s.shown, r.supersededAt = none ∧ r.Of d) ∧
    (∀ f, Deleted s t f → ∀ r ∈ s.shown, f.id ∈ r.available → ∃ u ∈ r.supersededAt, u + cfg.revisionRetention ≤ s.now) ∧
    ∃ rows, t.tables.outbox = s.tables.outbox ++ rows ∧ ∀ f, Deleted s t f → ∃ row ∈ rows, row.s3Key = f.s3Key :=
  ⟨(reached hrun).recorded.recorded, ((reached hrun).retains hstep).past, ((reached hrun).retains hstep).queued⟩

def shortLived : Settings := ⟨5, 10, 5⟩

/-- An image that is written into a document, written out of it at time 4, and picked at time 15. -/
def imageLife : List (Action (List Id)) :=
  [.upload 1 0 .attachment "k".toList 9, .finalize 1, .begin (.git 3) 0 0 (.put "a.md".toList [1] false),
    .publish (.git 3) "c1".toList, .tick 4, .begin (.git 3) 0 4 (.replace []), .publish (.git 3) "c2".toList, .tick 11,
    .expire 7 15 [(0, "a.md".toList, "c1".toList, 1)], .pick 7 [1]]

def after (script : List (Action (List Id))) : State (List Id) := (execute (next shortLived id) State.empty script).getD State.empty

def oldBody : Shown (List Id) := ⟨.git 3, 0, "a.md".toList, "c1".toList, [1], [1], some 4⟩

theorem old_image_collected : (∃ u ∈ oldBody.supersededAt, u + 10 ≤ 15) ∧ (after imageLife).tables.files.rows.length = 1 := by
  have hsome : (execute (next shortLived id) State.empty imageLife).isSome := by decide
  obtain ⟨s, hs⟩ := Option.isSome_iff_exists.mp hsome
  have hafter : s = after imageLife := by rw [after, hs, Option.getD_some]
  subst hafter
  have hlast : (next shortLived id (after imageLife) (.collect 7)).isSome := by decide
  obtain ⟨t, ht⟩ := Option.isSome_iff_exists.mp hlast
  have hgone : ((next shortLived id (after imageLife) (.collect 7)).getD State.empty).tables.files.rows = [] := by decide +kernel
  rw [ht, Option.getD_some] at hgone
  have hfile : ⟨1, 0, .attachment, .confirmed, some 0, "k".toList, 9, some 0, 0, 0⟩ ∈ (after imageLife).tables.files.rows := by
    decide
  have hdeleted : Deleted (after imageLife) t ⟨1, 0, .attachment, .confirmed, some 0, "k".toList, 9, some 0, 0, 0⟩ :=
    ⟨hfile, fun g hg => absurd (hgone ▸ Table.mem_def.mp hg) List.not_mem_nil⟩
  have hshown : oldBody ∈ (after imageLife).shown := by decide
  have hretained := (images_retained shortLived id (run_of_execute hs) ht).2.1 _ hdeleted oldBody hshown (by decide)
  have hnow : (after imageLife).now = 15 := by decide +kernel
  exact ⟨hnow ▸ hretained, by decide⟩

end Akb.Assets
