import Akb.Native.Namespace

/-! What a reference resolves to, told by the history of a namespace: which Resource holds the path, and
if none does, which one left it by a move. -/
namespace Akb.Native
open Akb.Library

/-- What a committed mutation did to the place of its Resource. -/
inductive Change where
  /-- Creation and restoration. -/
  | appeared (namespaceId resourceId : Uuid) (path : String)
  | moved (namespaceId resourceId : Uuid) (pathFrom pathTo : String)
  | deleted (resourceId : Uuid)
  deriving DecidableEq

namespace Change

def resourceId : Change → Uuid
  | .appeared _ id _ => id
  | .moved _ id _ _ => id
  | .deleted id => id

/-- A move away from the path. -/
def Leaves (namespaceId : Uuid) (path : String) : Change → Prop
  | .moved n _ pathFrom _ => n = namespaceId ∧ pathFrom = path
  | _ => False

def ComesTo (namespaceId : Uuid) (path : String) : Change → Prop
  | .appeared n _ p => n = namespaceId ∧ p = path
  | .moved n _ _ pathTo => n = namespaceId ∧ pathTo = path
  | .deleted _ => False

def Deletes (id : Uuid) : Change → Prop
  | .deleted i => i = id
  | _ => False

instance (namespaceId : Uuid) (path : String) (c : Change) : Decidable (c.Leaves namespaceId path) := by
  cases c <;> (unfold Leaves; infer_instance)

instance (namespaceId : Uuid) (path : String) (c : Change) : Decidable (c.ComesTo namespaceId path) := by
  cases c <;> (unfold ComesTo; infer_instance)

theorem not_leaves_appeared (namespaceId : Uuid) (path : String) (n id : Uuid) (p : String) :
    ¬ (appeared n id p).Leaves namespaceId path := fun h => h

theorem not_leaves_deleted (namespaceId : Uuid) (path : String) (id : Uuid) : ¬ (deleted id).Leaves namespaceId path :=
  fun h => h

end Change

/-- The change between two rows of one Resource. -/
def changeOf (before after : Option Resource) : Option Change :=
  match before.filter Resource.Live, after.filter Resource.Live with
  | none, some r => some (.appeared r.namespaceId r.resourceId r.currentPath)
  | some r, some s =>
    if r.currentPath = s.currentPath then none else some (.moved r.namespaceId r.resourceId r.currentPath s.currentPath)
  | some r, none => some (.deleted r.resourceId)
  | none, none => none

/-- A ledger with its history, newest first. -/
structure Recorded where
  ledger : Ledger
  changes : List Change

/-- `perform`, with the change of the Resource that the call returns. -/
def record (rt : Runtime) (s : Recorded) (step : Draws × NativeCall) : Recorded :=
  match step.2.run rt s.ledger step.1 with
  | .ok (res, l) =>
    ⟨l, (changeOf (s.ledger.resources.get? res.resourceId) (l.resources.get? res.resourceId)).toList ++ s.changes⟩
  | .error _ => s

def recordAll (rt : Runtime) (s : Recorded) (steps : List (Draws × NativeCall)) : Recorded := steps.foldl (record rt) s

theorem record_ledger (rt : Runtime) (s : Recorded) (step : Draws × NativeCall) :
    (record rt s step).ledger = perform rt s.ledger step := by
  unfold record perform
  cases step.2.run rt s.ledger step.1 with
  | error e => rfl
  | ok out => rfl

theorem recordAll_ledger (rt : Runtime) (s : Recorded) (steps : List (Draws × NativeCall)) :
    (recordAll rt s steps).ledger = performAll rt s.ledger steps := by
  induction steps generalizing s with
  | nil => rfl
  | cons step steps ih =>
    change (recordAll rt (record rt s step) steps).ledger = performAll rt (perform rt s.ledger step) steps
    rw [ih, record_ledger]

section History
variable (namespaceId : Uuid) (path : String) (id : Uuid)

/-- The Resource was the last to leave the path by a move, and no other came to the path since. -/
def LastLeft : List Change → Prop
  | [] => False
  | c :: older =>
    if c.Leaves namespaceId path then c.resourceId = id
    else ¬ (c.ComesTo namespaceId path ∧ c.resourceId ≠ id) ∧ LastLeft older

/-- The Resource was deleted since the path was last left by a move. -/
def DeletedSince : List Change → Prop
  | [] => False
  | c :: older => ¬ c.Leaves namespaceId path ∧ (c.Deletes id ∨ DeletedSince older)

/-- The Resource left the path by a move, and since then nothing came to the path and it was not
deleted. -/
def Remembered : List Change → Prop
  | [] => False
  | c :: older =>
    if c.Leaves namespaceId path then c.resourceId = id
    else ¬ c.ComesTo namespaceId path ∧ ¬ c.Deletes id ∧ Remembered older

end History

theorem Remembered.lastLeft {namespaceId id : Uuid} {path : String} {changes : List Change}
    (h : Remembered namespaceId path id changes) :
    LastLeft namespaceId path id changes ∧ ¬ DeletedSince namespaceId path id changes := by
  induction changes with
  | nil => exact h.elim
  | cons c older ih =>
    rw [Remembered] at h
    rw [LastLeft, DeletedSince]
    split at h
    · rename_i hleaves
      rw [if_pos hleaves]
      exact ⟨h, fun hd => hd.1 hleaves⟩
    · rename_i hstays
      obtain ⟨hcomes, hdeletes, holder⟩ := h
      rw [if_neg hstays]
      exact ⟨⟨fun hc => hcomes hc.1, (ih holder).1⟩, fun hd => hd.2.elim hdeletes (ih holder).2⟩

/-- No live Resource of any surface has the path. -/
def Vacant (l : Ledger) (namespaceId : Uuid) (path : String) : Prop :=
  ∀ r ∈ l.resources, r.Live → r.namespaceId = namespaceId → r.currentPath ≠ path

/-- The live Resource that a path stands for. -/
def Answers (s : Recorded) (namespaceId : Uuid) (surface : Surface) (path : String) (r : Resource) : Prop :=
  (r ∈ s.ledger.resources ∧ r.namespaceId = namespaceId ∧ r.surface = surface ∧ r.Live) ∧
    (r.currentPath = path ∨ (Vacant s.ledger namespaceId path ∧ LastLeft namespaceId path r.resourceId s.changes ∧
      ¬ DeletedSince namespaceId path r.resourceId s.changes))

/-! ### Live aliases remember the history -/

def Ledger.AliasOf (l : Ledger) (namespaceId : Uuid) (path : String) (id : Uuid) : Prop :=
  ∃ a, l.HasLiveAlias a ∧ a.namespaceId = namespaceId ∧ a.oldPath = path ∧ a.resourceId = id

structure ReferenceInvariant (s : Recorded) : Prop where
  aliases : ∀ namespaceId path id, s.ledger.AliasOf namespaceId path id ↔ Remembered namespaceId path id s.changes
  placed : ∀ namespaceId path id, LastLeft namespaceId path id s.changes → ¬ DeletedSince namespaceId path id s.changes →
    ∃ r ∈ s.ledger.resources, r.Live ∧ r.resourceId = id ∧
      (Remembered namespaceId path id s.changes ∨ (r.namespaceId = namespaceId ∧ r.currentPath = path))

theorem referenceInvariant_empty : ReferenceInvariant ⟨.empty, []⟩ where
  aliases namespaceId path id := by
    refine iff_of_false ?_ (fun h => h.elim)
    rintro ⟨a, ha, -⟩
    exact Table.not_mem_empty a ha.1
  placed namespaceId path id h := h.elim

section Step
variable {l l' : Ledger} {resource : Resource} {rev : Revision} {changes : List Change}

theorem get?_resource (hext : Extends l l' resource rev) : l'.resources.get? resource.resourceId = some resource :=
  Table.get?_eq_some.mpr ⟨(hext.resources resource).mpr (Or.inl rfl), rfl⟩

/-- A Resource of the ledger that the step does not touch, or the one it touches. -/
theorem succ_of_mem (hext : Extends l l' resource rev) {r : Resource} (hr : r ∈ l.resources)
    (hne : r.resourceId ≠ resource.resourceId) : r ∈ l'.resources := (hext.resources r).mpr (Or.inr ⟨hr, hne⟩)

theorem filter_live {r : Resource} (h : r.Live) : (some r).filter Resource.Live = some r := by
  rw [Option.filter_some, if_pos (decide_eq_true h)]

theorem filter_dead {r : Resource} (h : ¬ r.Live) : (some r).filter Resource.Live = none := by
  rw [Option.filter_some, if_neg (by simpa using h)]

/-- How the history grows, by the path change of the step. -/
inductive Grows (l l' : Ledger) (resource : Resource) (changes : List Change) : List Change → Prop where
  | appeared (live : resource.Live) (idle : ∀ r ∈ l.resources, r.Live → r.resourceId ≠ resource.resourceId)
      (aliases : ∀ a, l'.HasLiveAlias a ↔ l.HasLiveAlias a ∧
        ¬ (a.namespaceId = resource.namespaceId ∧ a.oldPath = resource.currentPath)) :
      Grows l l' resource changes (.appeared resource.namespaceId resource.resourceId resource.currentPath :: changes)
  | kept (live : resource.Live) (old : Resource) (succeeds : Succeeds l old resource)
      (samePath : old.currentPath = resource.currentPath) (aliases : ∀ a, l'.HasLiveAlias a ↔ l.HasLiveAlias a) :
      Grows l l' resource changes changes
  | moved (live : resource.Live) (old : Resource) (succeeds : Succeeds l old resource) (oldLive : old.Live)
      (left : PathAlias)
      (leftAt : left.namespaceId = resource.namespaceId ∧ left.surface = resource.surface ∧
        left.oldPath = old.currentPath ∧ left.resourceId = resource.resourceId)
      (aliases : ∀ a, l'.HasLiveAlias a ↔ a = left ∨ (l.HasLiveAlias a ∧
        ¬ (a.namespaceId = resource.namespaceId ∧ a.oldPath = resource.currentPath))) :
      Grows l l' resource changes
        (.moved resource.namespaceId resource.resourceId old.currentPath resource.currentPath :: changes)
  | deleted (old : Resource) (succeeds : Succeeds l old resource) (oldLive : old.Live)
      (aliases : ∀ a, l'.HasLiveAlias a ↔ l.HasLiveAlias a ∧
        ¬ (a.namespaceId = resource.namespaceId ∧ a.surface = resource.surface ∧ a.resourceId = resource.resourceId)) :
      Grows l l' resource changes (.deleted resource.resourceId :: changes)
  | idle (old : Resource) (succeeds : Succeeds l old resource) (oldDead : ¬ old.Live)
      (aliases : ∀ a, l'.HasLiveAlias a ↔ l.HasLiveAlias a ∧
        ¬ (a.namespaceId = resource.namespaceId ∧ a.surface = resource.surface ∧ a.resourceId = resource.resourceId)) :
      Grows l l' resource changes changes

theorem grows_of_pathChange (hext : Extends l l' resource rev) (hpath : PathChange l l' resource) :
    Grows l l' resource changes ((changeOf (l.resources.get? resource.resourceId)
      (l'.resources.get? resource.resourceId)).toList ++ changes) := by
  rw [get?_resource hext, changeOf]
  cases hpath with
  | taken live free idle aliases =>
    have hbefore : (l.resources.get? resource.resourceId).filter Resource.Live = none := by
      cases hget : l.resources.get? resource.resourceId with
      | none => rfl
      | some r =>
        obtain ⟨hr, hid⟩ := Table.get?_eq_some.mp hget
        exact filter_dead fun hlive => idle r hr hlive hid
    rw [hbefore, filter_live live]
    exact .appeared live idle aliases
  | kept live old succeeds oldLive samePath aliases =>
    rw [Table.get?_eq_some.mpr ⟨succeeds.1, succeeds.2.1⟩, filter_live oldLive, filter_live live]
    dsimp only
    rw [if_pos samePath]
    exact .kept live old succeeds samePath aliases
  | moved live old succeeds oldLive free left leftAt aliases =>
    rw [Table.get?_eq_some.mpr ⟨succeeds.1, succeeds.2.1⟩, filter_live oldLive, filter_live live]
    dsimp only
    rw [if_neg (free old succeeds.1 oldLive succeeds.2.2.1), succeeds.2.1, succeeds.2.2.1]
    exact .moved live old succeeds oldLive left leftAt aliases
  | dropped dead old succeeds aliases =>
    rw [Table.get?_eq_some.mpr ⟨succeeds.1, succeeds.2.1⟩, filter_dead dead]
    by_cases oldLive : old.Live
    · rw [filter_live oldLive]
      dsimp only
      rw [succeeds.2.1]
      exact .deleted old succeeds oldLive aliases
    · rw [filter_dead oldLive]
      exact .idle old succeeds oldLive aliases

/-- A live alias belongs to a live Resource: a Resource that dies takes all of its aliases. -/
theorem alias_of_owner (h : NamespaceInvariant l) {old : Resource} (hold : Succeeds l old resource) {a : PathAlias}
    (ha : l.HasLiveAlias a) (hid : a.resourceId = resource.resourceId) :
    old.Live ∧ a.namespaceId = resource.namespaceId ∧ a.surface = resource.surface := by
  obtain ⟨r, hr, hlive, hrid, hns, hsurface⟩ := h.owner a ha
  obtain rfl := Table.eq_of_key hr hold.1 (hrid.trans (hid.trans hold.2.1.symm))
  exact ⟨hlive, hns.symm.trans hold.2.2.1, hsurface.symm.trans hold.2.2.2⟩

theorem aliases_step (h : NamespaceInvariant l) {changes' : List Change} (hgrows : Grows l l' resource changes changes')
    (hold : ∀ namespaceId path id, l.AliasOf namespaceId path id ↔ Remembered namespaceId path id changes)
    (namespaceId : Uuid) (path : String) (id : Uuid) :
    l'.AliasOf namespaceId path id ↔ Remembered namespaceId path id changes' := by
  cases hgrows with
  | appeared live idle aliases =>
    rw [Remembered, if_neg (Change.not_leaves_appeared _ _ _ _ _), ← hold]
    constructor
    · rintro ⟨a, ha, rfl, rfl, hid⟩
      obtain ⟨ha, hout⟩ := (aliases a).mp ha
      exact ⟨fun hc => hout ⟨hc.1.symm, hc.2.symm⟩, fun hc => hc, a, ha, rfl, rfl, hid⟩
    · rintro ⟨hcomes, -, a, ha, rfl, rfl, hid⟩
      exact ⟨a, (aliases a).mpr ⟨ha, fun hc => hcomes ⟨hc.1.symm, hc.2.symm⟩⟩, rfl, rfl, hid⟩
  | kept live old succeeds samePath aliases =>
    rw [← hold]
    exact exists_congr fun a => and_congr_left' (aliases a)
  | moved live old succeeds oldLive left leftAt aliases =>
    rw [Remembered]
    split
    · rename_i hleaves
      obtain ⟨rfl, rfl⟩ := hleaves
      constructor
      · rintro ⟨a, ha, hns, hpath, hid⟩
        rcases (aliases a).mp ha with rfl | ⟨ha, -⟩
        · exact leftAt.2.2.2.symm.trans hid
        · exact absurd hpath (h.disjoint a ha old succeeds.1 oldLive (hns.trans succeeds.2.2.1.symm))
      · intro hid
        exact ⟨left, (aliases left).mpr (Or.inl rfl), leftAt.1, leftAt.2.2.1, leftAt.2.2.2.trans hid⟩
    · rename_i hstays
      rw [← hold]
      constructor
      · rintro ⟨a, ha, rfl, rfl, hid⟩
        rcases (aliases a).mp ha with rfl | ⟨ha, hout⟩
        · exact absurd ⟨leftAt.1.symm, leftAt.2.2.1.symm⟩ hstays
        · exact ⟨fun hc => hout ⟨hc.1.symm, hc.2.symm⟩, fun hc => hc, a, ha, rfl, rfl, hid⟩
      · rintro ⟨hcomes, -, a, ha, rfl, rfl, hid⟩
        exact ⟨a, (aliases a).mpr (Or.inr ⟨ha, fun hc => hcomes ⟨hc.1.symm, hc.2.symm⟩⟩), rfl, rfl, hid⟩
  | deleted old succeeds oldLive aliases =>
    rw [Remembered, if_neg (Change.not_leaves_deleted _ _ _), ← hold]
    constructor
    · rintro ⟨a, ha, rfl, rfl, rfl⟩
      obtain ⟨ha, hout⟩ := (aliases a).mp ha
      refine ⟨fun hc => hc, fun hid => hout ?_, a, ha, rfl, rfl, rfl⟩
      obtain ⟨-, hns, hsurface⟩ := alias_of_owner h succeeds ha hid.symm
      exact ⟨hns, hsurface, hid.symm⟩
    · rintro ⟨-, hdeletes, a, ha, rfl, rfl, rfl⟩
      exact ⟨a, (aliases a).mpr ⟨ha, fun hc => hdeletes hc.2.2.symm⟩, rfl, rfl, rfl⟩
  | idle old succeeds oldDead aliases =>
    rw [← hold]
    refine exists_congr fun a => and_congr_left' ?_
    rw [aliases]
    exact and_iff_left_of_imp fun ha hc => oldDead (alias_of_owner h succeeds ha hc.2.2).1

theorem placed_step (hext : Extends l l' resource rev) {changes' : List Change}
    (hgrows : Grows l l' resource changes changes') (namespaceId : Uuid) (path : String) (id : Uuid)
    (hold : LastLeft namespaceId path id changes → ¬ DeletedSince namespaceId path id changes →
      ∃ r ∈ l.resources, r.Live ∧ r.resourceId = id ∧
        (Remembered namespaceId path id changes ∨ (r.namespaceId = namespaceId ∧ r.currentPath = path)))
    (hleft : LastLeft namespaceId path id changes') (hkept : ¬ DeletedSince namespaceId path id changes') :
    ∃ r ∈ l'.resources, r.Live ∧ r.resourceId = id ∧
      (Remembered namespaceId path id changes' ∨ (r.namespaceId = namespaceId ∧ r.currentPath = path)) := by
  have hself : resource ∈ l'.resources := (hext.resources resource).mpr (Or.inl rfl)
  cases hgrows with
  | appeared live idle aliases =>
    rw [LastLeft, if_neg (Change.not_leaves_appeared _ _ _ _ _)] at hleft
    rw [DeletedSince] at hkept
    obtain ⟨r, hr, hlive, rfl, hwhere⟩ := hold hleft.2 (fun hd => hkept ⟨fun hc => hc, Or.inr hd⟩)
    have hne := idle r hr hlive
    refine ⟨r, succ_of_mem hext hr hne, hlive, rfl, hwhere.imp_left fun hrem => ?_⟩
    rw [Remembered, if_neg (Change.not_leaves_appeared _ _ _ _ _)]
    exact ⟨fun hc => hleft.1 ⟨hc, hne.symm⟩, fun hc => hc, hrem⟩
  | kept live old succeeds samePath aliases =>
    obtain ⟨r, hr, hlive, rfl, hwhere⟩ := hold hleft hkept
    by_cases hid : r.resourceId = resource.resourceId
    · obtain rfl := Table.eq_of_key hr succeeds.1 (hid.trans succeeds.2.1.symm)
      rw [succeeds.2.2.1, samePath] at hwhere
      exact ⟨resource, hself, live, hid.symm, hwhere⟩
    · exact ⟨r, succ_of_mem hext hr hid, hlive, rfl, hwhere⟩
  | moved live old succeeds oldLive left leftAt aliases =>
    rw [LastLeft] at hleft
    rw [DeletedSince] at hkept
    rw [Remembered]
    split at hleft
    · rename_i hleaves
      rw [if_pos hleaves]
      exact ⟨resource, hself, live, hleft, Or.inl hleft⟩
    · rename_i hstays
      rw [if_neg hstays]
      obtain ⟨r, hr, hlive, rfl, hwhere⟩ := hold hleft.2 (fun hd => hkept ⟨hstays, Or.inr hd⟩)
      by_cases hid : r.resourceId = resource.resourceId
      · obtain rfl := Table.eq_of_key hr succeeds.1 (hid.trans succeeds.2.1.symm)
        have hrem : Remembered namespaceId path r.resourceId changes := by
          rcases hwhere with hrem | ⟨hns, hpath⟩
          · exact hrem
          · exact absurd ⟨succeeds.2.2.1.symm.trans hns, hpath⟩ hstays
        refine ⟨resource, hself, live, hid.symm, ?_⟩
        by_cases hcomes : resource.namespaceId = namespaceId ∧ resource.currentPath = path
        · exact Or.inr hcomes
        · exact Or.inl ⟨hcomes, fun hc => hc, hrem⟩
      · refine ⟨r, succ_of_mem hext hr hid, hlive, rfl, hwhere.imp_left fun hrem => ?_⟩
        exact ⟨fun hc => hleft.1 ⟨hc, fun he => hid he.symm⟩, fun hc => hc, hrem⟩
  | deleted old succeeds oldLive aliases =>
    rw [LastLeft, if_neg (Change.not_leaves_deleted _ _ _)] at hleft
    rw [DeletedSince] at hkept
    have hdeletes : resource.resourceId ≠ id := fun hc => hkept ⟨fun hc => hc, Or.inl hc⟩
    obtain ⟨r, hr, hlive, rfl, hwhere⟩ := hold hleft.2 (fun hd => hkept ⟨fun hc => hc, Or.inr hd⟩)
    refine ⟨r, succ_of_mem hext hr hdeletes.symm, hlive, rfl, hwhere.imp_left fun hrem => ?_⟩
    rw [Remembered, if_neg (Change.not_leaves_deleted _ _ _)]
    exact ⟨fun hc => hc, hdeletes, hrem⟩
  | idle old succeeds oldDead aliases =>
    obtain ⟨r, hr, hlive, rfl, hwhere⟩ := hold hleft hkept
    refine ⟨r, succ_of_mem hext hr (fun hid => oldDead ?_), hlive, rfl, hwhere⟩
    rw [← Table.eq_of_key hr succeeds.1 (hid.trans succeeds.2.1.symm)]
    exact hlive

end Step

/-- What a call returns names the Resource that it touched. -/
theorem record_cases (rt : Runtime) (s : Recorded) (step : Draws × NativeCall) :
    record rt s step = s ∨ ∃ resource rev, Extends s.ledger (record rt s step).ledger resource rev ∧
      PathChange s.ledger (record rt s step).ledger resource ∧
      Grows s.ledger (record rt s step).ledger resource s.changes (record rt s step).changes := by
  unfold record
  cases hrun : step.2.run rt s.ledger step.1 with
  | error e => exact Or.inl rfl
  | ok out =>
    obtain ⟨res, l'⟩ := out
    rcases run_cases hrun with ⟨prior, -, -, rfl, rfl⟩ | ⟨-, resource, rev, hext, hpath, -, -, -, rfl⟩
    · left
      have hnone : ∀ r : Option Resource, changeOf r r = none := by
        intro r
        unfold changeOf
        cases r.filter Resource.Live with
        | none => rfl
        | some r => exact if_pos rfl
      dsimp only
      rw [hnone]
      rfl
    · refine Or.inr ⟨resource, rev, hext, hpath, ?_⟩
      have hid : (fromRow rev false).resourceId = resource.resourceId := hext.same_resource
      dsimp only
      rw [hid]
      exact grows_of_pathChange hext hpath

theorem recordAll_invariant (rt : Runtime) {s : Recorded} (steps : List (Draws × NativeCall))
    (hns : NamespaceInvariant s.ledger) (h : ReferenceInvariant s) :
    NamespaceInvariant (recordAll rt s steps).ledger ∧ ReferenceInvariant (recordAll rt s steps) := by
  induction steps generalizing s with
  | nil => exact ⟨hns, h⟩
  | cons step steps ih =>
    change NamespaceInvariant (recordAll rt (record rt s step) steps).ledger ∧ ReferenceInvariant (recordAll rt (record rt s step) steps)
    rcases record_cases rt s step with he | ⟨resource, rev, hext, hpath, hgrows⟩
    · rw [he]
      exact ih hns h
    · refine ih ⟨live_path_step hns hext hpath, alias_path_step hns hpath, disjoint_step hns hext hpath,
        owner_step hns hext hpath⟩ ⟨?_, ?_⟩
      · exact aliases_step hns hgrows h.aliases
      · intro namespaceId path id hleft hkept
        exact placed_step hext hgrows namespaceId path id (h.placed namespaceId path id) hleft hkept

/-! ### The queries -/

/-- A Resource whose path or live alias is the reference. -/
def Owns (l : Ledger) (path : String) (r : Resource) : Prop :=
  r.currentPath = path ∨ l.AliasOf r.namespaceId path r.resourceId

theorem owner_unique {l : Ledger} (h : NamespaceInvariant l) {path : String} {r s : Resource} (hr : r ∈ l.resources)
    (hs : s ∈ l.resources) (hrl : r.Live) (hsl : s.Live) (hn : r.namespaceId = s.namespaceId) (hro : Owns l path r)
    (hso : Owns l path s) : r = s := by
  rcases hro with hr' | ⟨a, ha, han, hap, hai⟩
  · rcases hso with hs' | ⟨b, hb, hbn, hbp, -⟩
    · exact h.live_path r hr s hs hrl hsl hn (hr'.trans hs'.symm)
    · exact absurd (hbp.trans hr'.symm) (h.disjoint b hb r hr hrl (hbn.trans hn.symm))
  · rcases hso with hs' | ⟨b, hb, hbn, hbp, hbi⟩
    · exact absurd (hap.trans hs'.symm) (h.disjoint a ha s hs hsl (han.trans hn))
    · have hab := h.alias_path a b ha hb (han.trans (hn.trans hbn.symm)) (hap.trans hbp.symm)
      exact Table.eq_of_key hr hs (hai.symm.trans (hab ▸ hbi))

/-- The alias of a live Resource is of its surface. -/
theorem aliased_iff {l : Ledger} (h : NamespaceInvariant l) {path : String} {r : Resource} (hr : r ∈ l.resources) :
    (l.aliases.rows.any (fun a => a.namespaceId = r.namespaceId ∧ a.surface = r.surface ∧
      a.resourceId = r.resourceId ∧ a.oldPath = path ∧ a.Live)) = true ↔ l.AliasOf r.namespaceId path r.resourceId := by
  rw [List.any_eq_true]
  constructor
  · rintro ⟨a, ha, hspec⟩
    obtain ⟨hn, -, hid, hp, hlive⟩ := of_decide_eq_true hspec
    exact ⟨a, ⟨ha, hlive⟩, hn, hp, hid⟩
  · rintro ⟨a, ⟨ha, hlive⟩, hn, hp, hid⟩
    obtain ⟨o, ho, -, hoid, -, hosurface⟩ := h.owner a ⟨ha, hlive⟩
    obtain rfl := Table.eq_of_key ho hr (hoid.trans hid)
    exact ⟨a, ha, decide_eq_true ⟨hn, hosurface.symm, hid, hp, hlive⟩⟩

theorem resolvePath_iff {l : Ledger} (h : NamespaceInvariant l) {namespaceId : Uuid} {surface : Surface} {path : String}
    {r : Resource} : resolvePath l namespaceId surface path = some r ↔
      (r ∈ l.resources ∧ r.namespaceId = namespaceId ∧ r.surface = surface ∧ r.Live) ∧ Owns l path r := by
  have hfound : ∀ s, resolvePath l namespaceId surface path = some s → Owns l path s := by
    intro s hs
    have hmem := (resolvePath_eq_some hs).1
    rcases Option.or_eq_some_iff.mp hs with hs | ⟨-, hs⟩
    · exact Or.inl (by simpa using List.find?_some hs)
    · have haliased := List.find?_some hs
      exact Or.inr ((aliased_iff h hmem).mp haliased)
  constructor
  · exact fun hr => ⟨resolvePath_eq_some hr, hfound r hr⟩
  · rintro ⟨⟨hr, hn, hs, hlive⟩, hown⟩
    have hcandidate : r ∈ l.resources.rows.filter
        (fun r => r.namespaceId = namespaceId ∧ r.surface = surface ∧ r.Live) :=
      List.mem_filter.mpr ⟨hr, decide_eq_true ⟨hn, hs, hlive⟩⟩
    cases hres : resolvePath l namespaceId surface path with
    | none =>
      obtain ⟨hpath, halias⟩ := Option.or_eq_none_iff.mp hres
      rcases hown with hown | hown
      · exact absurd hown (by simpa using List.find?_eq_none.mp hpath r hcandidate)
      · exact absurd ((aliased_iff h hr).mpr hown) (List.find?_eq_none.mp halias r hcandidate)
    | some s =>
      obtain ⟨hs', hsn, -, hsl⟩ := resolvePath_eq_some hres
      rw [owner_unique h hr hs' hlive hsl (hn.trans hsn.symm) hown (hfound s hres)]

/-- The Resource that a UUID-shaped reference names. -/
def HasId (rt : Runtime) (l : Ledger) (namespaceId : Uuid) (surface : Surface) (reference : String) (r : Resource) : Prop :=
  (r ∈ l.resources ∧ r.namespaceId = namespaceId ∧ r.surface = surface ∧ r.Live) ∧ rt.parseUuid reference = some r.resourceId

theorem byId_iff {rt : Runtime} {l : Ledger} {namespaceId : Uuid} {surface : Surface} {reference : String} {r : Resource} :
    (rt.parseUuid reference).bind (fun id => l.resources.rows.find? (fun r =>
      r.namespaceId = namespaceId ∧ r.surface = surface ∧ r.resourceId = id ∧ r.Live)) = some r ↔
      HasId rt l namespaceId surface reference r := by
  rw [Option.bind_eq_some_iff]
  constructor
  · rintro ⟨id, hid, hfind⟩
    have hspec := List.find?_some hfind
    obtain ⟨hn, hs, rfl, hlive⟩ := of_decide_eq_true hspec
    exact ⟨⟨List.mem_of_find?_eq_some hfind, hn, hs, hlive⟩, hid⟩
  · rintro ⟨⟨hr, hn, hs, hlive⟩, hid⟩
    refine ⟨r.resourceId, hid, ?_⟩
    cases hfind : l.resources.rows.find? (fun s => s.namespaceId = namespaceId ∧ s.surface = surface ∧
        s.resourceId = r.resourceId ∧ s.Live) with
    | none =>
      have hnot := List.find?_eq_none.mp hfind r hr
      exact absurd (decide_eq_true ⟨hn, hs, rfl, hlive⟩) hnot
    | some s =>
      have hspec := List.find?_some hfind
      obtain ⟨-, -, hid', -⟩ := of_decide_eq_true hspec
      rw [Table.eq_of_key (List.mem_of_find?_eq_some hfind) hr hid']

/-- An alias stands for the Resource that left its path last. -/
theorem owns_iff {s : Recorded} (hns : NamespaceInvariant s.ledger) (h : ReferenceInvariant s) {namespaceId : Uuid}
    {surface : Surface} {path : String} {r : Resource}
    (hr : r ∈ s.ledger.resources ∧ r.namespaceId = namespaceId ∧ r.surface = surface ∧ r.Live) :
    Owns s.ledger path r ↔ r.currentPath = path ∨ (Vacant s.ledger namespaceId path ∧
      LastLeft namespaceId path r.resourceId s.changes ∧ ¬ DeletedSince namespaceId path r.resourceId s.changes) := by
  obtain ⟨hmem, rfl, -, hlive⟩ := hr
  refine or_congr_right ?_
  rw [h.aliases]
  constructor
  · intro hrem
    obtain ⟨a, ha, han, hap, -⟩ := (h.aliases _ _ _).mpr hrem
    refine ⟨fun t ht htl htn htp => ?_, hrem.lastLeft⟩
    exact hns.disjoint a ha t ht htl (han.trans htn.symm) (hap.trans htp.symm)
  · rintro ⟨hvacant, hleft, hkept⟩
    obtain ⟨t, ht, htl, hid, hwhere⟩ := h.placed _ _ _ hleft hkept
    rcases hwhere with hrem | ⟨htn, htp⟩
    · exact hrem
    · exact absurd htp (hvacant t ht htl htn)

/-- `_resolve`, from what the two queries found. -/
def combine (reference : String) (byId byPath : Option Resource) : Except NativeError (Option Resource) :=
  match byId, byPath with
  | some r, some s => if r.resourceId ≠ s.resourceId then .error (.referenceAmbiguous reference) else .ok (some r)
  | some r, none => .ok (some r)
  | none, found => .ok found

theorem combine_spec (reference : String) {x y : Option Resource} {P Q : Resource → Prop} (hx : ∀ r, x = some r ↔ P r)
    (hy : ∀ r, y = some r ↔ Q r) (hsame : ∀ a b, P a → Q b → a.resourceId = b.resourceId → a = b) :
    (∀ r, combine reference x y = .ok (some r) ↔ (P r ∨ Q r) ∧ ¬ ∃ a b, P a ∧ Q b ∧ a ≠ b) ∧
      ∀ e, combine reference x y = .error e ↔ e = .referenceAmbiguous reference ∧ ∃ a b, P a ∧ Q b ∧ a ≠ b := by
  simp only [← hx, ← hy] at hsame ⊢
  cases x with
  | none => cases y <;> simp [combine, eq_comm]
  | some a =>
    cases y with
    | none => simp [combine, eq_comm]
    | some b =>
      have hab := hsame a b rfl rfl
      by_cases hid : a.resourceId = b.resourceId
      · obtain rfl := hab hid
        simp [combine, eq_comm]
      · have hne : a ≠ b := fun he => hid (congrArg Resource.resourceId he)
        simp [combine, hid, hne, eq_comm]

/-- What a reference resolves to after any sequence of mutations. -/
theorem reference_follows_history (rt : Runtime) (steps : List (Draws × NativeCall)) (namespaceId : Uuid)
    (surface : Surface) (reference : String) :
    let s := recordAll rt ⟨.empty, []⟩ steps
    let resolved := resolveLiveReference rt.parseUuid s.ledger namespaceId surface reference
    let byId := HasId rt s.ledger namespaceId surface reference
    let byPath := Answers s namespaceId surface reference
    (∀ r, resolved = .ok (some r) ↔ (byId r ∨ byPath r) ∧ ¬ ∃ a b, byId a ∧ byPath b ∧ a ≠ b) ∧
      ∀ e, resolved = .error e ↔ e = .referenceAmbiguous reference ∧ ∃ a b, byId a ∧ byPath b ∧ a ≠ b := by
  intro s resolved byId byPath
  obtain ⟨hns, hhist⟩ := recordAll_invariant rt steps namespaceInvariant_empty referenceInvariant_empty
  have hid : ∀ r, (rt.parseUuid reference).bind (fun id => s.ledger.resources.rows.find? (fun r =>
      r.namespaceId = namespaceId ∧ r.surface = surface ∧ r.resourceId = id ∧ r.Live)) = some r ↔ byId r :=
    fun r => byId_iff
  have hpath : ∀ r, resolvePath s.ledger namespaceId surface reference = some r ↔ byPath r := by
    intro r
    rw [resolvePath_iff hns]
    exact and_congr_right fun hr => owns_iff hns hhist hr
  have hresolved : resolved = combine reference
      ((rt.parseUuid reference).bind (fun id => s.ledger.resources.rows.find? (fun r =>
        r.namespaceId = namespaceId ∧ r.surface = surface ∧ r.resourceId = id ∧ r.Live)))
      (resolvePath s.ledger namespaceId surface reference) := rfl
  rw [hresolved]
  have hsame : ∀ a b, byId a → byPath b → a.resourceId = b.resourceId → a = b :=
    fun a b ha hb he => Table.eq_of_key ha.1.1 hb.1.1 he
  exact combine_spec reference hid hpath hsame

/-! ### A restored Resource -/

def restoredDigests : List (ByteArray × String) :=
  let x := "2d711642b726b04401627ca9fbac32f5c8530fb1903cc4db02258717921a4881"
  [("x".toUTF8, x),
    ((Json.dumps (bodyFields .create (sampleRequest 1) x 1 none none none false)).toUTF8,
      "cb9b0fad2b1f23329432979a8881a0d0df118f6ccec75ffcb6b86e9f1c397d59"),
    ((Json.dumps (lifecycleFields .move (sampleRequest 2) (some "old.txt") none none true)).toUTF8,
      "518e23fd14d789bb701ae88880e3e1e61dc42a91915277feb4bc230fde208510"),
    ((Json.dumps (lifecycleFields .delete { sampleRequest 3 with path := "old.txt" } none none none true)).toUTF8,
      "47de76b2f99d07f64174edd9aa3b846b3caad8735bd172c2f2201f8fa9a55b1e"),
    ((Json.dumps (bodyFields .replace { sampleRequest 4 with path := "old.txt" } x 1
      (some (sampleRevisionId '2' sampleId_two).text) none (some 0x10) false)).toUTF8,
      "a41774f5e3ebab9a1b558dc7c75edbdda4cad95bf3fd128cbc28fcea32e96b87")]

def restoredRuntime : Runtime where
  parseUuid _ := none
  sha256 bytes := (restoredDigests.find? (fun entry => entry.1 = bytes)).elim "" Prod.snd
  imageIds _ := some []

/-- Created, moved, deleted and restored where it was deleted. -/
def restoredSteps : List (Draws × NativeCall) :=
  [(sampleDraws (sampleRevisionId '0' sampleId_zero) 0x20 1, sampleCreate),
    (sampleDraws (sampleRevisionId '1' sampleId_one) 0x21 2, .move (sampleRequest 2) "old.txt" none none),
    (sampleDraws (sampleRevisionId '2' sampleId_two) 0x22 3,
      .delete { sampleRequest 3 with path := "old.txt" } none none true),
    (sampleDraws (sampleRevisionId '3' sampleId_three) 0x23 4,
      .restore ⟨{ sampleRequest 4 with path := "old.txt" }, .text "x", none, none⟩
        (sampleRevisionId '2' sampleId_two).text 0x10)]

/-- Deletion retires the alias, and restoration does not bring it back. -/
theorem restored_forgets_its_old_path :
    (recordAll restoredRuntime ⟨.empty, []⟩ restoredSteps).changes =
        [.appeared 1 0x10 "old.txt", .deleted 0x10, .moved 1 0x10 "notes.txt" "old.txt", .appeared 1 0x10 "notes.txt"] ∧
      LastLeft 1 "notes.txt" 0x10
        [.appeared 1 0x10 "old.txt", .deleted 0x10, .moved 1 0x10 "notes.txt" "old.txt", .appeared 1 0x10 "notes.txt"] ∧
      (recordAll restoredRuntime ⟨.empty, []⟩ restoredSteps).ledger.resources.rows.map
        (fun r => (r.resourceId, r.surface, r.currentPath, r.lifecycle)) = [(0x10, .file, "old.txt", .live)] ∧
      (resolveLiveReference restoredRuntime.parseUuid (recordAll restoredRuntime ⟨.empty, []⟩ restoredSteps).ledger 1 .file
        "notes.txt").toOption = some none := by
  refine ⟨by decide +kernel, ?_, by decide +kernel, by decide +kernel⟩
  simp [LastLeft, Change.Leaves, Change.ComesTo, Change.resourceId]

end Akb.Native
