import Akb.FileProjection.Effects

/-! What a worker knows in each phase, as long as its intent is the one in the outbox. -/
namespace Akb.FileProjection
open Akb.Library Akb.Native

/-- The columns of an outbox row that make up its intent. -/
structure OutboxRow.Same (a b : OutboxRow) : Prop where
  intentId : a.intentId = b.intentId
  fileId : a.fileId = b.fileId
  namespaceId : a.namespaceId = b.namespaceId
  source : a.source = b.source
  logicalPath : a.logicalPath = b.logicalPath

theorem OutboxRow.Same.refl (a : OutboxRow) : a.Same a := ⟨rfl, rfl, rfl, rfl, rfl⟩

theorem OutboxRow.Same.symm {a b : OutboxRow} (h : a.Same b) : b.Same a :=
  ⟨h.1.symm, h.2.symm, h.3.symm, h.4.symm, h.5.symm⟩

theorem OutboxRow.Same.trans {a b c : OutboxRow} (h : a.Same b) (h' : b.Same c) : a.Same c :=
  ⟨h.1.trans h'.1, h.2.trans h'.2, h.3.trans h'.3, h.4.trans h'.4, h.5.trans h'.5⟩

/-- The path and digest the Resource of a File owes to an intent, none where it may not be live. -/
def Env.goal (env : Env) (intent : OutboxRow) : Option (String × String) :=
  intent.source.bind fun source =>
    if isNativeTextFile source.mimeType source.byteSize && (env.readPayload source).isOk then
      some (intent.logicalPath, source.contentHash)
    else none

theorem goal_same {env : Env} {a b : OutboxRow} (h : a.Same b) : env.goal a = env.goal b := by
  rw [Env.goal, Env.goal, h.source, h.logicalPath]

theorem goal_absent {env : Env} {intent : OutboxRow} (h : intent.source = none) : env.goal intent = none := by
  rw [Env.goal, h, Option.bind_none]

theorem goal_not_text {env : Env} {intent : OutboxRow} {source : Source} (h : intent.source = some source)
    (htext : isNativeTextFile source.mimeType source.byteSize = false) : env.goal intent = none := by
  simp [Env.goal, h, htext]

theorem goal_unreadable {env : Env} {intent : OutboxRow} {source : Source} {e : String} (h : intent.source = some source)
    (hread : env.readPayload source = .error e) : env.goal intent = none := by
  simp [Env.goal, h, hread, Except.isOk, Except.toBool]

theorem goal_text {env : Env} {intent : OutboxRow} {source : Source} {payload : ByteArray}
    (h : intent.source = some source) (htext : isNativeTextFile source.mimeType source.byteSize = true)
    (hread : env.readPayload source = .ok payload) :
    env.goal intent = some (intent.logicalPath, source.contentHash) := by
  simp [Env.goal, h, htext, hread, Except.isOk, Except.toBool]

/-- The Resource is as an intent wants it. -/
inductive Shows (row : Option ResourceRow) : Option (String × String) → Prop where
  | absent (gone : ∀ r, row = some r → r.lifecycle = .deleted) : Shows row none
  | present {r : ResourceRow} {path digest : String} (found : row = some r) (live : r.lifecycle = .live)
      (path_eq : r.currentPath = path) (digest_eq : r.digest = some digest) : Shows row (some (path, digest))

/-- What a recorded stage of an intent leaves behind, until a newer intent arrives. -/
inductive Reached (env : Env) (l : Ledger) (intent : OutboxRow) : Stage → Prop where
  | shown {st : Stage} (shows : Shows (resourceRow l intent.fileId) (env.goal intent)) : Reached env l intent st
  | restored {path digest : String} {r : ResourceRow} (goal : env.goal intent = some (path, digest))
      (found : resourceRow l intent.fileId = some r) (live : r.lifecycle = .live) (digest_eq : r.digest = some digest) :
      Reached env l intent .restore
  | moved {path digest : String} {r : ResourceRow} (goal : env.goal intent = some (path, digest))
      (found : resourceRow l intent.fileId = some r) (live : r.lifecycle = .live) (path_eq : r.currentPath = path) :
      Reached env l intent .move

/-- The three stages that end a pass. -/
def Stage.last : Stage → Bool
  | .restore => false
  | .move => false
  | _ => true

theorem Reached.shows {env : Env} {l : Ledger} {intent : OutboxRow} {st : Stage} (h : Reached env l intent st)
    (hlast : st.last = true) : Shows (resourceRow l intent.fileId) (env.goal intent) := by
  cases h with
  | shown h => exact h
  | restored | moved => cases hlast

theorem Reached.same {env : Env} {l : Ledger} {a b : OutboxRow} (h : a.Same b) {st : Stage} (hr : Reached env l a st) :
    Reached env l b st := by
  cases hr with
  | shown hshows => exact .shown (h.fileId ▸ goal_same h ▸ hshows)
  | restored hg hf hlive hd => exact .restored (goal_same h ▸ hg) (h.fileId ▸ hf) hlive hd
  | moved hg hf hlive hp => exact .moved (goal_same h ▸ hg) (h.fileId ▸ hf) hlive hp

/-- A row as it was once read: either the Resource is still so, or its head has moved on. -/
structure Seen (l : Ledger) (fileId : Uuid) (r : ResourceRow) : Prop where
  head : ∃ rev ∈ l.revisions, r.headRevisionId = some rev.revisionId
  same : ∀ now, resourceRow l fileId = some now → now.headRevisionId = r.headRevisionId → now = r

theorem seen_now {l : Ledger} (hl : HistoryInvariant l) {fileId : Uuid} {r : ResourceRow}
    (h : resourceRow l fileId = some r) : Seen l fileId r :=
  ⟨recorded_head hl h, fun now hnow _ => by rw [h] at hnow; exact (Option.some.inj hnow).symm⟩

/-- A commit, of the File or of another one, leaves every earlier reading a reading. -/
theorem Seen.commit {l l' : Ledger} {fileId other mutationId : Uuid} {now r : ResourceRow}
    (hc : Commits l l' other mutationId now) (h : Seen l fileId r) : Seen l' fileId r := by
  obtain ⟨rev, -, hnow, hfresh, hrevs⟩ := hc.revision
  obtain ⟨⟨head, hhead, heq⟩, hsame⟩ := h
  refine ⟨⟨head, (hrevs head).mpr (.inr hhead), heq⟩, fun x hx hxhead => ?_⟩
  by_cases hid : fileId = other
  · subst hid
    rw [hc.row] at hx
    cases hx
    rw [hnow, heq] at hxhead
    exact absurd (Option.some.inj hxhead).symm (hfresh head hhead)
  · rw [hc.frame fileId hid] at hx
    exact hsame x hx hxhead

/-- What a worker may rely on of the Resource it read at the start of its pass. -/
structure Held (env : Env) (l : Ledger) (current : Prop) (intent : OutboxRow) (res : Option ResourceRow) : Prop where
  seen : ∀ r, res = some r → Seen l intent.fileId r
  shown : current → Shows res (env.goal intent) → Shows (resourceRow l intent.fileId) (env.goal intent)

/-- The intent asks for text, and its source was found in the catalogue. -/
structure Ready (env : Env) (current matched : Prop) (intent : OutboxRow) (source : Source) : Prop where
  source_eq : intent.source = some source
  goal : env.goal intent = some (intent.logicalPath, source.contentHash)
  matched_of : current → matched

/-- What a worker knows in a phase, where `current` says that the outbox row still has its intent
and `matched` that the catalogue has the source of the intent. -/
def PhaseSound (env : Env) (l : Ledger) (current matched : Prop) (intent : OutboxRow) : Phase → Prop
  | .checkIntent => True
  | .readResource => True
  | .failed => True
  | .readSource source res => intent.source = some source ∧ Held env l current intent res
  | .readPayload source res =>
    intent.source = some source ∧ isNativeTextFile source.mimeType source.byteSize ∧ (current → matched) ∧
      Held env l current intent res
  | .checkIntentAgain source _ res => Ready env current matched intent source ∧ Held env l current intent res
  | .readSourceAgain source _ res => Ready env current matched intent source ∧ Held env l current intent res
  | .create source _ => Ready env current matched intent source
  | .restore source _ r => Ready env current matched intent source ∧ Seen l intent.fileId r
  | .rereadRestored source _ => Ready env current matched intent source ∧ (current → Reached env l intent .restore)
  | .move source _ r =>
    Ready env current matched intent source ∧ Seen l intent.fileId r ∧ r.currentPath ≠ intent.logicalPath
  | .rereadMoved source _ => Ready env current matched intent source ∧ (current → Reached env l intent .move)
  | .replace source _ r =>
    Ready env current matched intent source ∧ Seen l intent.fileId r ∧ r.digest ≠ some source.contentHash ∧
      (current → r.currentPath = intent.logicalPath)
  | .delete r => env.goal intent = none ∧ (current → intent.source.isSome → matched) ∧ Seen l intent.fileId r
  | .finish outcome =>
    current → outcome ≠ .superseded →
      Shows (resourceRow l intent.fileId) (env.goal intent) ∧ (intent.source.isSome → matched)

section
variable {env : Env} {l l' : Ledger} {current current' matched matched' : Prop} {intent : OutboxRow} {source : Source}

theorem Held.mono {res : Option ResourceRow} (h : Held env l current intent res) (hcur : current' → current)
    (hseen : ∀ r, Seen l intent.fileId r → Seen l' intent.fileId r)
    (hreached : current' → ∀ st, Reached env l intent st → Reached env l' intent st) : Held env l' current' intent res :=
  ⟨fun r hr => hseen r (h.seen r hr),
    fun hc hs => (hreached hc .create (.shown (h.shown (hcur hc) hs))).shows rfl⟩

theorem Ready.mono (h : Ready env current matched intent source) (hcur : current' → current)
    (hmatched : current' → matched → matched') : Ready env current' matched' intent source :=
  ⟨h.source_eq, h.goal, fun hc => hmatched hc (h.matched_of (hcur hc))⟩

/-- What the others do leaves the knowledge of a worker, if it leaves what its intent has reached. -/
theorem PhaseSound.mono {phase : Phase} (h : PhaseSound env l current matched intent phase)
    (hcur : current' → current) (hmatched : current' → matched → matched')
    (hseen : ∀ r, Seen l intent.fileId r → Seen l' intent.fileId r)
    (hreached : current' → ∀ st, Reached env l intent st → Reached env l' intent st) :
    PhaseSound env l' current' matched' intent phase := by
  cases phase with
  | checkIntent | readResource | failed => trivial
  | readSource source res => exact ⟨h.1, h.2.mono hcur hseen hreached⟩
  | readPayload source res =>
    exact ⟨h.1, h.2.1, fun hc => hmatched hc (h.2.2.1 (hcur hc)), h.2.2.2.mono hcur hseen hreached⟩
  | checkIntentAgain source payload res | readSourceAgain source payload res =>
    exact ⟨h.1.mono hcur hmatched, h.2.mono hcur hseen hreached⟩
  | create source payload => exact Ready.mono h hcur hmatched
  | restore source payload r => exact ⟨h.1.mono hcur hmatched, hseen r h.2⟩
  | rereadRestored source payload | rereadMoved source payload =>
    exact ⟨h.1.mono hcur hmatched, fun hc => hreached hc _ (h.2 (hcur hc))⟩
  | move source payload r => exact ⟨h.1.mono hcur hmatched, hseen r h.2.1, h.2.2⟩
  | replace source payload r => exact ⟨h.1.mono hcur hmatched, hseen r h.2.1, h.2.2.1, fun hc => h.2.2.2 (hcur hc)⟩
  | delete r => exact ⟨h.1, fun hc hs => hmatched hc (h.2.1 (hcur hc) hs), hseen r h.2.2⟩
  | finish outcome =>
    intro hc hne
    obtain ⟨hshows, hm⟩ := h (hcur hc) hne
    exact ⟨(hreached hc .create (.shown hshows)).shows rfl, fun hs => hmatched hc (hm hs)⟩

/-- Nothing more to do, or a deletion is due. -/
theorem ensureAbsent_sound {res : Option ResourceRow} (hgoal : env.goal intent = none)
    (hmatched : current → intent.source.isSome → matched) (h : Held env l current intent res) :
    PhaseSound env l current matched intent (ensureAbsent intent res) := by
  have hdone (hres : ∀ r, res = some r → r.lifecycle = .deleted) :
      PhaseSound env l current matched intent (.finish .alreadyAbsent) := by
    intro hc _
    exact ⟨h.shown hc (hgoal ▸ .absent hres), hmatched hc⟩
  cases res with
  | none => exact hdone (fun r hr => by cases hr)
  | some r =>
    simp only [ensureAbsent]
    split
    · rename_i hdeleted
      exact hdone (fun x hx => Option.some.inj hx ▸ hdeleted)
    · split
      · exact ⟨hgoal, hmatched, h.seen r rfl⟩
      · trivial

theorem replaceUnlessEqual_sound {payload : ByteArray} {r : ResourceRow} {outcome : Outcome}
    (hready : Ready env current matched intent source) (hseen : Seen l intent.fileId r)
    (hplace : current → r.lifecycle = .live ∧ r.currentPath = intent.logicalPath)
    (hshown : current → Shows (some r) (env.goal intent) → Shows (resourceRow l intent.fileId) (env.goal intent)) :
    PhaseSound env l current matched intent (replaceUnlessEqual source payload r outcome) := by
  simp only [replaceUnlessEqual]
  split
  · rename_i hdigest
    exact ⟨hready, hseen, hdigest, fun hc => (hplace hc).2⟩
  · rename_i hdigest
    intro hc _
    obtain ⟨hlive, hpath⟩ := hplace hc
    refine ⟨hshown hc ?_, fun _ => hready.matched_of hc⟩
    rw [hready.goal]
    exact .present rfl hlive hpath (not_not.mp hdigest)

theorem moveUnlessThere_sound {payload : ByteArray} {r : ResourceRow} {outcome : Outcome}
    (hready : Ready env current matched intent source) (hseen : Seen l intent.fileId r)
    (hlive : current → r.lifecycle = .live)
    (hshown : current → Shows (some r) (env.goal intent) → Shows (resourceRow l intent.fileId) (env.goal intent)) :
    PhaseSound env l current matched intent (moveUnlessThere intent source payload r outcome) := by
  simp only [moveUnlessThere]
  split
  · rename_i hpath
    exact ⟨hready, hseen, hpath⟩
  · rename_i hpath
    exact replaceUnlessEqual_sound hready hseen (fun hc => ⟨hlive hc, not_not.mp hpath⟩) hshown

theorem project_sound {payload : ByteArray} {res : Option ResourceRow} (hready : Ready env current matched intent source)
    (h : Held env l current intent res) : PhaseSound env l current matched intent (project intent source payload res) := by
  cases res with
  | none => exact hready
  | some r =>
    simp only [project]
    split
    · trivial
    · split
      · exact ⟨hready, h.seen r rfl⟩
      · rename_i hdeleted
        refine moveUnlessThere_sound hready (h.seen r rfl) (fun _ => ?_) h.shown
        cases hc : r.lifecycle with
        | live => rfl
        | deleted => exact absurd hc hdeleted

/-- An effective native call of the current intent: what it reaches, and that it undoes nothing the intent had reached. -/
theorem effect_reached {phase : Phase} {st : Stage} {mutationId : Uuid} {now : ResourceRow}
    (hsound : PhaseSound env l current matched intent phase) (hcurrent : current) (hst : phase.stage = some st)
    (hc : Commits l l' intent.fileId mutationId now) (heff : Effect intent (resourceRow l intent.fileId) now phase) :
    Reached env l' intent st ∧ ∀ st', Reached env l intent st' → Reached env l' intent st' := by
  cases heff with
  | @create source payload habsent hlive hpath hdigest =>
    have hready : Ready env current matched intent source := hsound
    cases hst
    have hshows : Shows (resourceRow l' intent.fileId) (env.goal intent) := by
      rw [hready.goal]
      exact .present hc.row hlive hpath hdigest
    exact ⟨.shown hshows, fun st' _ => .shown hshows⟩
  | @restore source payload r o hfound hhead hdeleted hlive hdigest =>
    obtain ⟨hready, -⟩ := hsound
    cases hst
    refine ⟨.restored hready.goal hc.row hlive hdigest, fun st' h => ?_⟩
    -- A live Resource is not restored.
    have hno {r' : ResourceRow} (hr' : resourceRow l intent.fileId = some r') (hl : r'.lifecycle = .live) : False := by
      rw [hfound] at hr'
      cases hr'
      rw [hl] at hdeleted
      cases hdeleted
    cases h with
    | shown hshows =>
      rw [hready.goal] at hshows
      cases hshows with
      | present hr' hl => exact (hno hr' hl).elim
    | restored _ hr' hl => exact (hno hr' hl).elim
    | moved _ hr' hl => exact (hno hr' hl).elim
  | @move source payload r o hfound hhead hwas hlive hpath hdigest =>
    obtain ⟨hready, hseen, hne⟩ := hsound
    cases hst
    have ho : o = r := hseen.same o hfound hhead
    refine ⟨.moved hready.goal hc.row hlive hpath, fun st' h => ?_⟩
    cases h with
    | shown hshows =>
      rw [hready.goal, hfound] at hshows
      cases hshows with
      | present hr' _ hp => exact absurd (by rw [← ho, Option.some.inj hr']; exact hp) hne
    | restored hg hr' _ hd =>
      rw [hfound] at hr'
      cases hr'
      exact .restored hg hc.row hlive (hdigest.trans hd)
    | moved hg hr' _ hp =>
      rw [hfound] at hr'
      cases hr'
      rw [hready.goal] at hg
      cases hg
      exact absurd (ho ▸ hp) hne
  | @replace source payload r o hfound hhead hwas hlive hpath hdigest =>
    obtain ⟨hready, hseen, hne, hplace⟩ := hsound
    cases hst
    have ho : o = r := hseen.same o hfound hhead
    have hshows : Shows (resourceRow l' intent.fileId) (env.goal intent) := by
      rw [hready.goal]
      exact .present hc.row hlive (hpath.trans (ho ▸ hplace hcurrent)) hdigest
    exact ⟨.shown hshows, fun st' _ => .shown hshows⟩
  | @delete r o hfound hhead hwas hdeleted =>
    obtain ⟨hgoal, -⟩ := hsound
    cases hst
    have hshows : Shows (resourceRow l' intent.fileId) (env.goal intent) := by
      rw [hgoal]
      refine .absent (fun x hx => ?_)
      rw [hc.row] at hx
      cases hx
      exact hdeleted
    exact ⟨.shown hshows, fun st' _ => .shown hshows⟩

/-- The phase after a native call that left its stage reached. -/
theorem after_sound {x : Worker} {call : NativeCall} {after : Phase} {st : Stage}
    (hcall : x.nativeCall env = some (call, after)) (hst : x.phase.stage = some st)
    (hsound : PhaseSound env l current matched x.intent x.phase) (hreached : current → Reached env l' x.intent st) :
    PhaseSound env l' current matched x.intent after := by
  obtain ⟨intent, phase⟩ := x
  cases phase with
  | create source payload =>
    cases hcall
    cases hst
    exact fun hc _ => ⟨(hreached hc).shows rfl, fun _ => hsound.matched_of hc⟩
  | restore source payload r =>
    cases hcall
    cases hst
    exact ⟨hsound.1, hreached⟩
  | move source payload r =>
    cases hcall
    cases hst
    exact ⟨hsound.1, hreached⟩
  | replace source payload r =>
    cases hcall
    cases hst
    exact fun hc _ => ⟨(hreached hc).shows rfl, fun _ => hsound.1.matched_of hc⟩
  | delete r =>
    cases hcall
    cases hst
    exact fun hc _ => ⟨(hreached hc).shows rfl, hsound.2.1 hc⟩
  | checkIntent | readResource | readSource _ _ | readPayload _ _ | checkIntentAgain _ _ _ | readSourceAgain _ _ _
  | rereadRestored _ _ | rereadMoved _ _ | finish _ | failed => cases hcall

end

end Akb.FileProjection
