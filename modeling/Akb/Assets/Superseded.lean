import Akb.Assets.Published

/-! Every image of a body that is current, or was not long ago, is referred to. -/
namespace Akb.Assets
open Akb.Library
variable {B : Type*}

/-- The body was superseded, moved or deleted, and the retention period since then has elapsed. -/
def Past (cfg : Settings) (now : Time) (r : Shown B) : Prop := ∃ u ∈ r.supersededAt, u + cfg.revisionRetention ≤ now

/-- The references that keep an image of a body from being collected. -/
structure Protected (cfg : Settings) (t : Tables B) (r : Shown B) (a : Id) : Prop where
  kept : Kept t.files r.vault a
  live : r.supersededAt = none → ⟨r.owner, r.vault, a⟩ ∈ t.live
  covered : ∀ u ∈ r.supersededAt, Covered t.revisions r.vault a (u + cfg.revisionRetention)

/-- The record is about the document as it is. -/
def Shown.Of (r : Shown B) (d : Document B) : Prop :=
  d.owner = r.owner ∧ d.vault = r.vault ∧ d.path = r.path ∧ d.commit = r.commit ∧ d.body = r.body ∧ d.live = true

section Invariant
variable (cfg : Settings) (images : B → List Id)

/-- What the records of published bodies say about the documents. -/
structure Recorded (t : Tables B) (shown : List (Shown B)) : Prop where
  referenced : ∀ l ∈ t.live, ∃ d ∈ t.documents, d.owner = l.owner ∧ d.vault = l.vault
  committed : ∀ r ∈ shown, r.commit ≠ []
  within : ∀ r ∈ shown, ∀ a ∈ r.available, a ∈ images r.body
  current : ∀ r ∈ shown, r.supersededAt = none → ∃ d ∈ t.documents, r.Of d
  recorded : ∀ d ∈ t.documents, d.live = true → ∃ r ∈ shown, r.supersededAt = none ∧ r.Of d

/-- What an open write has read and locked. -/
structure Claimed (s : State B) (w : Write B) : Prop where
  applies : w.request.Applies w.owner (s.tables.documents.get? w.owner)
  vaults : ∀ d ∈ s.tables.documents, d.owner = w.owner → d.vault = w.vault
  found : ∀ a ∈ w.found, Available s.tables.files w.vault a
  parents : w.owner.isNative → ∀ r ∈ s.shown, r.supersededAt = none → r.owner = w.owner → ∀ a ∈ r.available, a ∈ w.found
  unpicked : ∀ p ∈ s.passes, ∀ a ∈ w.found, a ∉ p.picked

/-- What an open pass of the collector has read and locked. -/
structure Passing (s : State B) (p : Pass) : Prop where
  started : p.started ≤ s.now
  expired : ∀ r ∈ s.tables.revisions, r.key ∈ p.expired → r.retainUntil ≤ p.started
  picked : ∀ a ∈ p.picked, ∀ r ∈ s.shown, a ∈ r.available → Past cfg s.now r

structure Inv (s : State B) : Prop where
  recorded : Recorded images s.tables s.shown
  safe : ∀ r ∈ s.shown, ∀ a ∈ r.available, Past cfg s.now r ∨ Protected cfg s.tables r a
  writes : ∀ w ∈ s.writes, Claimed s w
  passes : ∀ p ∈ s.passes, Passing cfg s p

end Invariant

theorem Past.mono {cfg : Settings} {now now' : Time} {r : Shown B} (h : Past cfg now r) (hle : now ≤ now') : Past cfg now' r := by
  obtain ⟨u, hu, hpast⟩ := h
  exact ⟨u, hu, Nat.le_trans hpast hle⟩

variable {cfg : Settings} {images : B → List Id} {s s' : State B}

theorem Inv.empty : Inv cfg images (State.empty : State B) where
  recorded :=
    { referenced := fun l hl => absurd hl (Table.not_mem_empty l)
      committed := fun _ hr => absurd hr List.not_mem_nil
      within := fun _ hr => absurd hr List.not_mem_nil
      current := fun _ hr => absurd hr List.not_mem_nil
      recorded := fun d hd => absurd hd (Table.not_mem_empty d) }
  safe _ hr := absurd hr List.not_mem_nil
  writes w hw := absurd hw (Table.not_mem_empty w)
  passes p hp := absurd hp (Table.not_mem_empty p)

theorem Protected.of_grown {t t' : Tables B} {r : Shown B} {a : Id} (h : Protected cfg t r a) (hfiles : Grown t.files t'.files)
    (hlive : t'.live = t.live) (hrevisions : t'.revisions = t.revisions) : Protected cfg t' r a where
  kept := hfiles.kept h.kept
  live ho := hlive ▸ h.live ho
  covered u hu := hrevisions ▸ h.covered u hu

theorem Claimed.of_grown {w : Write B} (h : Claimed s w) (hfiles : Grown s.tables.files s'.tables.files)
    (hdocuments : s'.tables.documents = s.tables.documents) (hshown : s'.shown = s.shown)
    (hpasses : ∀ p ∈ s'.passes, ∀ a ∈ w.found, a ∉ p.picked) : Claimed s' w where
  applies := hdocuments ▸ h.applies
  vaults := hdocuments ▸ h.vaults
  found a ha := hfiles.available (h.found a ha)
  parents hn := hshown ▸ h.parents hn
  unpicked := hpasses

/-- Steps that only add to the uploads, and let time pass. -/
theorem Inv.of_grown (h : Inv cfg images s) (hnow : s.now ≤ s'.now) (hfiles : Grown s.tables.files s'.tables.files)
    (hlive : s'.tables.live = s.tables.live) (hrevisions : s'.tables.revisions = s.tables.revisions)
    (hdocuments : s'.tables.documents = s.tables.documents) (hshown : s'.shown = s.shown)
    (hwrites : ∀ w ∈ s'.writes, w ∈ s.writes) (hpasses : ∀ p ∈ s'.passes, p ∈ s.passes) : Inv cfg images s' where
  recorded :=
    { referenced := hlive ▸ hdocuments ▸ h.recorded.referenced
      committed := hshown ▸ h.recorded.committed
      within := hshown ▸ h.recorded.within
      current := hshown ▸ hdocuments ▸ h.recorded.current
      recorded := hshown ▸ hdocuments ▸ h.recorded.recorded }
  safe r hr a ha := by
    rcases h.safe r (hshown ▸ hr) a ha with hp | hp
    · exact .inl (hp.mono hnow)
    · exact .inr (hp.of_grown hfiles hlive hrevisions)
  writes w hw := (h.writes w (hwrites w hw)).of_grown hfiles hdocuments hshown
    fun p hp => (h.writes w (hwrites w hw)).unpicked p (hpasses p hp)
  passes p hp :=
    { started := Nat.le_trans (h.passes p (hpasses p hp)).started hnow
      expired := hrevisions ▸ (h.passes p (hpasses p hp)).expired
      picked := fun a ha r hr har => ((h.passes p (hpasses p hp)).picked a ha r (hshown ▸ hr) har).mono hnow }

theorem mem_locked {a : Id} : a ∈ s.locked ↔ (∃ w ∈ s.writes, a ∈ w.found) ∨ ∃ p ∈ s.passes, a ∈ p.picked := by
  rw [State.locked, List.mem_append, List.mem_flatMap, List.mem_flatMap]
  rfl

/-- Deleted rows that no body needs and no write has locked. -/
theorem Inv.deleteFiles (h : Inv cfg images s) (ids : List Id) (hfiles : s'.tables.files = (s.tables.deleteFiles ids).files)
    (hlive : s'.tables.live = (s.tables.deleteFiles ids).live) (hdocuments : s'.tables.documents = s.tables.documents)
    (hshown : s'.shown = s.shown) (hnow : s'.now = s.now) (hwrites : s'.writes = s.writes)
    (hpasses : ∀ p ∈ s'.passes, p ∈ s.passes) (hrevisions : ∀ r ∈ s'.tables.revisions, r ∈ s.tables.revisions)
    (hcovered : ∀ r ∈ s.shown, ∀ a ∈ r.available, a ∉ ids → ∀ u ∈ r.supersededAt,
      Covered s.tables.revisions r.vault a (u + cfg.revisionRetention) →
        Past cfg s.now r ∨ Covered s'.tables.revisions r.vault a (u + cfg.revisionRetention))
    (hfree : ∀ w ∈ s.writes, ∀ a ∈ w.found, a ∉ ids)
    (hneeded : ∀ r ∈ s.shown, ∀ a ∈ r.available, a ∈ ids → Past cfg s.now r) : Inv cfg images s' where
  recorded :=
    { referenced := fun l hl => by
        rw [hlive] at hl
        exact hdocuments ▸ h.recorded.referenced l (Table.mem_deleteWhere.mp hl).1
      committed := hshown ▸ h.recorded.committed
      within := hshown ▸ h.recorded.within
      current := hshown ▸ hdocuments ▸ h.recorded.current
      recorded := hshown ▸ hdocuments ▸ h.recorded.recorded }
  safe r hr a ha := by
    rw [hshown] at hr
    rw [hnow]
    by_cases hids : a ∈ ids
    · exact .inl (hneeded r hr a ha hids)
    rcases h.safe r hr a ha with hp | hp
    · exact .inl hp
    by_cases hpast : Past cfg s.now r
    · exact .inl hpast
    refine .inr ⟨?_, fun ho => ?_, fun u hu => (hcovered r hr a ha hids u hu (hp.covered u hu)).resolve_left hpast⟩
    · obtain ⟨f, hf, rfl, hk⟩ := hp.kept
      exact ⟨f, hfiles ▸ Table.mem_deleteWhere.mpr ⟨hf, decide_eq_false hids⟩, rfl, hk⟩
    · rw [hlive]
      exact Table.mem_deleteWhere.mpr ⟨hp.live ho, decide_eq_false hids⟩
  writes w hw := by
    rw [hwrites] at hw
    have hc := h.writes w hw
    refine ⟨hdocuments ▸ hc.applies, hdocuments ▸ hc.vaults, fun a ha => ?_, hshown ▸ hc.parents, fun p hp => hc.unpicked p (hpasses p hp)⟩
    obtain ⟨f, hf, rfl, hk⟩ := hc.found a ha
    exact ⟨f, hfiles ▸ Table.mem_deleteWhere.mpr ⟨hf, decide_eq_false (hfree w hw _ ha)⟩, rfl, hk⟩
  passes p hp :=
    { started := hnow ▸ (h.passes p (hpasses p hp)).started
      expired := fun r hr => (h.passes p (hpasses p hp)).expired r (hrevisions r hr)
      picked := fun a ha r hr har => hnow ▸ (h.passes p (hpasses p hp)).picked a ha r (hshown ▸ hr) har }

end Akb.Assets

/-! A write that commits keeps the invariant: what it supersedes is retained, what it shows is referred to. -/
namespace Akb.Assets
open Akb.Library
variable {B : Type*} {cfg : Settings} {images : B → List Id} {s : State B} {w : Write B} {commit : Text} {t : Tables B}

theorem mem_supersede {owner : DocumentAssetOwner} {now : Time} {shown : List (Shown B)} {r : Shown B} :
    r ∈ supersede owner now shown ↔ (r ∈ shown ∧ ¬ (r.owner = owner ∧ r.supersededAt = none)) ∨
      ∃ r₀ ∈ shown, r₀.owner = owner ∧ r₀.supersededAt = none ∧ r = { r₀ with supersededAt := some now } := by
  rw [supersede, List.mem_map]
  constructor
  · rintro ⟨r₀, hr₀, rfl⟩
    by_cases h : r₀.owner = owner ∧ r₀.supersededAt = none
    · exact .inr ⟨r₀, hr₀, h.1, h.2, if_pos h⟩
    · rw [if_neg h]
      exact .inl ⟨hr₀, h⟩
  · rintro (⟨hr, h⟩ | ⟨r₀, hr₀, ho, hn, rfl⟩)
    · exact ⟨r, hr, if_neg h⟩
    · exact ⟨r₀, hr₀, if_pos ⟨ho, hn⟩⟩

/-- An open body is not past. -/
theorem Inv.open_safe (h : Inv cfg images s) {r : Shown B} (hr : r ∈ s.shown) (ho : r.supersededAt = none) {a : Id}
    (ha : a ∈ r.available) : Protected cfg s.tables r a := by
  refine (h.safe r hr a ha).resolve_left ?_
  rintro ⟨u, hu, -⟩
  rw [ho] at hu
  cases hu

/-- The images of the body that a write supersedes are carried over. -/
theorem Inv.carried (h : Inv cfg images s) (hw : w ∈ s.writes) {r : Shown B} (hr : r ∈ s.shown) (ho : r.supersededAt = none)
    (howner : r.owner = w.owner) {d : Document B} (hd : r.Of d) {a : Id} (ha : a ∈ r.available) :
    Carried images s.tables w d a := by
  obtain ⟨hdo, hdv, -, hdc, hdb, -⟩ := hd
  rw [Carried]
  split
  · rename_i hn
    exact ⟨(h.writes w hw).parents hn r hr ho howner a ha, hdb ▸ h.recorded.within r hr a ha⟩
  · exact ⟨hdc ▸ h.recorded.committed r hr, hdo ▸ hdv ▸ (h.open_safe hr ho ha).live ho⟩

theorem shows_owner {parent : Option (Document B)} {d : Document B} (hparent : ∀ p ∈ parent, p.owner = w.owner)
    (hvault : ∀ p ∈ parent, p.vault = w.vault) (hd : d ∈ w.shows commit parent) : d.owner = w.owner ∧ d.vault = w.vault := by
  cases hrequest : w.request <;> rw [Write.shows, hrequest] at hd
  case put =>
    cases Option.mem_some_iff.mp hd
    exact ⟨rfl, rfl⟩
  case delete => cases hd
  all_goals
    obtain ⟨p, hp, rfl⟩ := Option.map_eq_some_iff.mp hd
    exact ⟨hparent p hp, hvault p hp⟩

/-- The body that a write shows. -/
structure Written (s : State B) (w : Write B) (commit : Text) (images : B → List Id) (r : Shown B) : Prop where
  current : r.supersededAt = none
  committed : r.commit = commit
  shown : ∃ d ∈ w.shows commit (s.tables.documents.get? w.owner), r.Of d
  within : ∀ a ∈ r.available, a ∈ images r.body
  referred : ∀ a ∈ r.available, Referred images s.tables w a
  source : ∀ a ∈ r.available, (a ∈ w.found ∧ (∀ path, w.request ≠ .move path) ∧ w.request ≠ .delete) ∨
    ∃ r₀ ∈ s.shown, r₀.supersededAt = none ∧ r₀.vault = r.vault ∧ a ∈ r₀.available

theorem Inv.written (h : Inv cfg images s) (hw : w ∈ s.writes) {r : Shown B}
    (hr : r ∈ Assets.written images s.shown w commit (s.tables.documents.get? w.owner)) : Written s w commit images r := by
  have happlies := (h.writes w hw).applies
  have hfilter {body : B} (a : Id) (ha : a ∈ w.found.filter fun a => a ∈ images body) : a ∈ w.found ∧ a ∈ images body :=
    ⟨(List.mem_filter.mp ha).1, of_decide_eq_true (List.mem_filter.mp ha).2⟩
  have hparent (p : Document B) (hp : s.tables.documents.get? w.owner = some p) : p.owner = w.owner ∧ p.vault = w.vault :=
    ⟨(Table.mem_of_get? hp).2, (h.writes w hw).vaults p (Table.mem_of_get? hp).1 (Table.mem_of_get? hp).2⟩
  cases hrequest : w.request <;> rw [Assets.written, hrequest] at hr
  case put path body _ =>
    cases List.mem_singleton.mp hr
    refine ⟨rfl, rfl, ?_, fun a ha => (hfilter a ha).2, fun a ha => ?_, fun a ha => .inl ⟨(hfilter a ha).1, ?_, ?_⟩⟩
    · rw [Write.shows, hrequest]
      exact ⟨_, rfl, rfl, rfl, rfl, rfl, rfl, rfl⟩
    · rw [Referred, hrequest]
      exact hfilter a ha
    all_goals simp only [hrequest, ne_eq, reduceCtorEq, not_false_eq_true, implies_true]
  case replace body =>
    rw [hrequest] at happlies
    obtain ⟨p, hp, hlive⟩ := happlies
    cases List.mem_singleton.mp hr
    refine ⟨rfl, rfl, ?_, fun a ha => (hfilter a ha).2, fun a ha => ?_, fun a ha => .inl ⟨(hfilter a ha).1, ?_, ?_⟩⟩
    · rw [Write.shows, hrequest, Option.mem_def.mp hp]
      exact ⟨_, rfl, (hparent p hp).1, (hparent p hp).2, rfl, rfl, rfl, hlive⟩
    · rw [Referred, hrequest]
      exact hfilter a ha
    all_goals simp only [hrequest, ne_eq, reduceCtorEq, not_false_eq_true, implies_true]
  case restore body =>
    rw [hrequest] at happlies
    obtain ⟨-, p, hp, -⟩ := happlies
    cases List.mem_singleton.mp hr
    refine ⟨rfl, rfl, ?_, fun a ha => (hfilter a ha).2, fun a ha => ?_, fun a ha => .inl ⟨(hfilter a ha).1, ?_, ?_⟩⟩
    · rw [Write.shows, hrequest, Option.mem_def.mp hp]
      exact ⟨_, rfl, (hparent p hp).1, (hparent p hp).2, rfl, rfl, rfl, rfl⟩
    · rw [Referred, hrequest]
      exact hfilter a ha
    all_goals simp only [hrequest, ne_eq, reduceCtorEq, not_false_eq_true, implies_true]
  case move path =>
    obtain ⟨r₀, hr₀, rfl⟩ := List.mem_map.mp hr
    obtain ⟨hr₀, hopen⟩ := List.mem_filter.mp hr₀
    obtain ⟨howner, ho⟩ := of_decide_eq_true hopen
    obtain ⟨p, hp, hof⟩ := h.recorded.current r₀ hr₀ ho
    have hget : s.tables.documents.get? w.owner = some p := Table.get?_eq_some.mpr ⟨hp, hof.1.trans howner⟩
    refine ⟨ho, rfl, ?_, h.recorded.within r₀ hr₀, fun a ha => ?_, fun a ha => .inr ⟨r₀, hr₀, ho, rfl, ha⟩⟩
    · rw [Write.shows, hrequest, hget]
      exact ⟨_, rfl, hof.1, hof.2.1, rfl, rfl, hof.2.2.2.2.1, hof.2.2.2.2.2⟩
    · rw [Referred, hrequest]
      exact ⟨p, hget, h.carried hw hr₀ ho howner hof ha⟩
  case delete => cases hr

/-- Each document that a write shows has its record. -/
theorem Inv.shows_written (h : Inv cfg images s) (hw : w ∈ s.writes) {d : Document B}
    (hd : d ∈ w.shows commit (s.tables.documents.get? w.owner)) :
    ∃ r ∈ Assets.written images s.shown w commit (s.tables.documents.get? w.owner), r.supersededAt = none ∧ r.Of d := by
  have happlies := (h.writes w hw).applies
  have hparent (p : Document B) (hp : s.tables.documents.get? w.owner = some p) : p.owner = w.owner ∧ p.vault = w.vault :=
    ⟨(Table.mem_of_get? hp).2, (h.writes w hw).vaults p (Table.mem_of_get? hp).1 (Table.mem_of_get? hp).2⟩
  cases hrequest : w.request <;> rw [Write.shows, hrequest] at hd <;> rw [hrequest] at happlies <;> rw [Assets.written, hrequest]
  case put path body _ =>
    cases Option.mem_some_iff.mp hd
    exact ⟨_, List.mem_singleton_self _, rfl, rfl, rfl, rfl, rfl, rfl, rfl⟩
  case replace body =>
    obtain ⟨p, hp, hlive⟩ := happlies
    rw [Option.mem_def.mp hp] at hd ⊢
    cases Option.mem_some_iff.mp hd
    exact ⟨_, List.mem_singleton_self _, rfl, (hparent p hp).1, (hparent p hp).2, rfl, rfl, rfl, hlive⟩
  case restore body =>
    obtain ⟨-, p, hp, -⟩ := happlies
    rw [Option.mem_def.mp hp] at hd ⊢
    cases Option.mem_some_iff.mp hd
    exact ⟨_, List.mem_singleton_self _, rfl, (hparent p hp).1, (hparent p hp).2, rfl, rfl, rfl, rfl⟩
  case move path =>
    obtain ⟨p, hp, hlive⟩ := happlies
    rw [Option.mem_def.mp hp] at hd
    cases Option.mem_some_iff.mp hd
    obtain ⟨r, hr, ho, hof⟩ := h.recorded.recorded p (Table.mem_of_get? hp).1 hlive
    refine ⟨_, List.mem_map_of_mem (List.mem_filter.mpr ⟨hr, decide_eq_true ⟨hof.1.symm.trans (hparent p hp).1, ho⟩⟩), ho, ?_⟩
    exact ⟨hof.1, hof.2.1, rfl, rfl, hof.2.2.2.2.1, hlive⟩
  case delete => cases hd

theorem publish_files {retainUntil : Time} (hpub : publish images s.tables w commit retainUntil = some t)
    (hmove : ∀ path, w.request ≠ .move path) (hdelete : w.request ≠ .delete) :
    t.files = claimReferences s.tables.files w.vault w.found w.started := by
  unfold publish at hpub
  split at hpub
  · unfold publishGit at hpub
    split at hpub
    · cases hpub
      rfl
    · cases hpub
      rfl
    · exact absurd ‹_› (hmove _)
    · exact absurd ‹_› hdelete
    · cases hpub
  · unfold publishNativeWrite at hpub
    split at hpub
    · cases hpub
      rfl
    · cases hpub
      rfl
    · exact absurd ‹_› (hmove _)
    · cases hpub
      rfl
    · exact absurd ‹_› hdelete
    · cases hpub

theorem Inv.shown_vault (h : Inv cfg images s) (hw : w ∈ s.writes) {d : Document B} (hd : d ∈ w.shows commit (s.tables.documents.get? w.owner)) :
    d.owner = w.owner ∧ d.vault = w.vault :=
  shows_owner (fun _ hp => (Table.mem_of_get? hp).2)
    (fun p hp => (h.writes w hw).vaults p (Table.mem_of_get? hp).1 (Table.mem_of_get? hp).2) hd

section Publish
variable (h : Inv cfg images s) (hw : w ∈ s.writes)
  (hpub : publish images s.tables w commit (s.now + cfg.revisionRetention) = some t)
include h hw hpub

theorem Inv.published : Published s.tables t w.owner (s.now + cfg.revisionRetention)
    (w.shows commit (s.tables.documents.get? w.owner)) (Referred images s.tables w) (Carried images s.tables w) :=
  publish_spec images hpub (h.writes w hw).applies h.recorded.referenced (h.writes w hw).vaults

/-- The image of a body that was current, once its document has changed. -/
theorem Inv.superseded_safe {r : Shown B} (hr : r ∈ s.shown) (ho : r.supersededAt = none) (howner : r.owner = w.owner) {a : Id}
    (ha : a ∈ r.available) : Protected cfg t { r with supersededAt := some s.now } a where
  kept := (h.published hw hpub).files.kept (h.open_safe hr ho ha).kept
  live hn := absurd hn (Option.some_ne_none _)
  covered u hu := by
    cases Option.mem_some_iff.mp hu
    obtain ⟨d, hd, hof⟩ := h.recorded.current r hr ho
    have hcovered := (h.published hw hpub).retained d hd (hof.1.trans howner) hof.2.2.2.2.2 a (h.carried hw hr ho howner hof ha)
    exact hof.2.1 ▸ hcovered

theorem Inv.unchanged_safe {r : Shown B} (hr : r ∈ s.shown) (hopen : ¬ (r.owner = w.owner ∧ r.supersededAt = none)) {a : Id}
    (ha : a ∈ r.available) : Past cfg s.now r ∨ Protected cfg t r a := by
  refine (h.safe r hr a ha).imp_right fun hp => ⟨(h.published hw hpub).files.kept hp.kept, fun ho => ?_, fun u hu => ?_⟩
  · exact (h.published hw hpub).live_other _ (hp.live ho) fun howner => hopen ⟨howner, ho⟩
  · exact (h.published hw hpub).covered _ _ _ (hp.covered u hu)

theorem Inv.written_safe {r : Shown B} (hr : Written s w commit images r) {a : Id} (ha : a ∈ r.available) :
    Protected cfg t r a := by
  obtain ⟨d, hd, hof⟩ := hr.shown
  obtain ⟨hdo, hdv⟩ := h.shown_vault hw hd
  refine ⟨?_, fun _ => ?_, fun u hu => ?_⟩
  · rcases hr.source a ha with ⟨hfound, hmove, hdelete⟩ | ⟨r₀, hr₀, ho, hvault, ha⟩
    · rw [publish_files hpub hmove hdelete, ← hof.2.1, hdv]
      exact kept_claimReferences ((h.writes w hw).found a hfound) hfound
    · exact hvault ▸ (h.published hw hpub).files.kept (h.open_safe hr₀ ho ha).kept
  · rw [← hof.1, ← hof.2.1, hdo]
    exact (h.published hw hpub).live_shown d hd a (hr.referred a ha)
  · rw [hr.current] at hu
    cases hu

theorem Inv.recorded_publish (hcommit : commit ≠ []) :
    Recorded images t (record images s.now s.shown w commit (s.tables.documents.get? w.owner)) where
  referenced l hl := by
    rcases (h.published hw hpub).live_from l hl with ⟨hl, hshows⟩ | ⟨d, hd, ho, hv⟩
    · obtain ⟨d, hd, hdo, hdv⟩ := h.recorded.referenced l hl
      by_cases howner : l.owner = w.owner
      · cases hnew : w.shows commit (s.tables.documents.get? w.owner) with
        | none => exact absurd howner (hshows hnew)
        | some e =>
          obtain ⟨heo, hev⟩ := h.shown_vault hw hnew
          refine ⟨e, ((h.published hw hpub).document_shown e heo).mpr hnew |>.1, heo.trans howner.symm, ?_⟩
          rw [hev, ← hdv, (h.writes w hw).vaults d hd (hdo.trans howner)]
      · exact ⟨d, ((h.published hw hpub).documents_other d fun hd => howner (hdo.symm.trans hd)).mpr hd, hdo, hdv⟩
    · have hdo := (h.shown_vault hw hd).1
      exact ⟨d, (((h.published hw hpub).document_shown d hdo).mpr hd).1, hdo.trans ho.symm, hv.symm⟩
  committed r hr := by
    rcases List.mem_append.mp hr with hr | hr
    · rcases mem_supersede.mp hr with ⟨hr, -⟩ | ⟨r₀, hr₀, -, -, rfl⟩
      · exact h.recorded.committed r hr
      · exact h.recorded.committed r₀ hr₀
    · exact (h.written hw hr).committed ▸ hcommit
  within r hr := by
    rcases List.mem_append.mp hr with hr | hr
    · rcases mem_supersede.mp hr with ⟨hr, -⟩ | ⟨r₀, hr₀, -, -, rfl⟩
      · exact h.recorded.within r hr
      · exact h.recorded.within r₀ hr₀
    · exact (h.written hw hr).within
  current r hr ho := by
    rcases List.mem_append.mp hr with hr | hr
    · rcases mem_supersede.mp hr with ⟨hr, hopen⟩ | ⟨r₀, -, -, -, rfl⟩
      · obtain ⟨d, hd, hof⟩ := h.recorded.current r hr ho
        exact ⟨d, ((h.published hw hpub).documents_other d fun hd => hopen ⟨hof.1.symm.trans hd, ho⟩).mpr hd, hof⟩
      · cases ho
    · obtain ⟨d, hd, hof⟩ := (h.written hw hr).shown
      exact ⟨d, (((h.published hw hpub).document_shown d (h.shown_vault hw hd).1).mpr hd).1, hof⟩
  recorded d hd hl := by
    by_cases howner : d.owner = w.owner
    · obtain ⟨r, hr, ho, hof⟩ := h.shows_written hw (((h.published hw hpub).document_shown d howner).mp ⟨hd, hl⟩)
      exact ⟨r, List.mem_append_right _ hr, ho, hof⟩
    · obtain ⟨r, hr, ho, hof⟩ := h.recorded.recorded d (((h.published hw hpub).documents_other d howner).mp hd) hl
      refine ⟨r, List.mem_append_left _ (mem_supersede.mpr (.inl ⟨hr, fun hopen => howner (hof.1.trans hopen.1)⟩)), ho, hof⟩

/-- A write that commits. -/
theorem Inv.publish (hcommit : commit ≠ [])
    (hlocked : ∀ p ∈ s.passes, ∀ k ∈ p.expired, t.revisions.get? k = s.tables.revisions.get? k) :
    Inv cfg images
      { s with
        tables := t
        writes := s.writes.deleteWhere fun v => v.owner = w.owner
        shown := record images s.now s.shown w commit (s.tables.documents.get? w.owner) } where
  recorded := h.recorded_publish hw hpub hcommit
  safe r hr a ha := by
    rcases List.mem_append.mp hr with hr | hr
    · rcases mem_supersede.mp hr with ⟨hr, hopen⟩ | ⟨r₀, hr₀, howner, ho, rfl⟩
      · exact h.unchanged_safe hw hpub hr hopen ha
      · exact .inr (h.superseded_safe hw hpub hr₀ ho howner ha)
    · exact .inr (h.written_safe hw hpub (h.written hw hr) ha)
  writes v hv := by
    obtain ⟨hv, hne⟩ := Table.mem_deleteWhere.mp hv
    have hne : v.owner ≠ w.owner := of_decide_eq_false hne
    have hc := h.writes v hv
    have hother (d : Document B) (hd : d.owner = v.owner) : d ∈ t.documents ↔ d ∈ s.tables.documents :=
      (h.published hw hpub).documents_other d (hd ▸ hne)
    have hget : t.documents.get? v.owner = s.tables.documents.get? v.owner := by
      apply Option.ext
      intro d
      rw [Table.get?_eq_some, Table.get?_eq_some]
      exact and_congr_left (hother d)
    refine ⟨hget ▸ hc.applies, fun d hd ho => hc.vaults d ((hother d ho).mp hd) ho,
      fun a ha => (h.published hw hpub).files.available (hc.found a ha), fun hn r hr ho howner => ?_, hc.unpicked⟩
    rcases List.mem_append.mp hr with hr | hr
    · rcases mem_supersede.mp hr with ⟨hr, -⟩ | ⟨r₀, -, -, -, rfl⟩
      · exact hc.parents hn r hr ho howner
      · cases ho
    · obtain ⟨d, hd, hof⟩ := (h.written hw hr).shown
      exact absurd (howner.symm.trans (hof.1.symm.trans (h.shown_vault hw hd).1)) hne
  passes p hp :=
    { started := (h.passes p hp).started
      expired := fun r hr hk => by
        have hget := hlocked p hp _ hk
        rw [Table.get?_eq_some.mpr ⟨hr, rfl⟩] at hget
        exact (h.passes p hp).expired r (Table.mem_of_get? hget.symm).1 hk
      picked := fun a ha r hr har => by
        have hopen {r₀ : Shown B} (hr₀ : r₀ ∈ s.shown) (ho : r₀.supersededAt = none) (ha₀ : a ∈ r₀.available) : False := by
          obtain ⟨u, hu, -⟩ := (h.passes p hp).picked a ha r₀ hr₀ ha₀
          rw [ho] at hu
          cases hu
        rcases List.mem_append.mp hr with hr | hr
        · rcases mem_supersede.mp hr with ⟨hr, -⟩ | ⟨r₀, hr₀, -, ho, rfl⟩
          · exact (h.passes p hp).picked a ha r hr har
          · exact (hopen hr₀ ho har).elim
        · rcases (h.written hw hr).source a har with ⟨hfound, -⟩ | ⟨r₀, hr₀, ho, -, ha₀⟩
          · exact absurd ha ((h.writes w hw).unpicked p hp a hfound)
          · exact (hopen hr₀ ho ha₀).elim }

end Publish
end Akb.Assets
