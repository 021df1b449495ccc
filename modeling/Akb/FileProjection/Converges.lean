import Akb.FileProjection.Steps

/-! The projection converges to the catalogue, as long as no worker mutates the
Resource of a File for an intent that a newer one has replaced. -/
namespace Akb.FileProjection
open Akb.Library Akb.Native
variable {ω : Type} {env : Env} {s : Projection ω}

namespace Projection

/-- Where an intent is completed and nobody is at work on the File, its Resource is live exactly for
a confirmed File of eligible text, and has its path and digest. -/
def Converged (env : Env) (s : Projection ω) : Prop :=
  ∀ row ∈ s.outbox, ∀ outcome, row.outcome = some outcome → outcome ≠ .abandoned →
    (∀ w x, s.workers w = some x → x.intent.fileId = row.fileId → x.applying = false) →
    ((∃ r, resourceRow s.ledger row.fileId = some r ∧ r.lifecycle = .live) ↔
      ∃ f ∈ s.files, f.id = row.fileId ∧ f.uploadState = .confirmed ∧ f.EligibleText env) ∧
    ∀ f ∈ s.files, f.id = row.fileId → f.uploadState = .confirmed → f.EligibleText env →
      ∃ r, resourceRow s.ledger row.fileId = some r ∧ r.currentPath = f.logicalPath ∧ r.digest = f.contentHash

/-- A File with the source of an intent is eligible text exactly when the intent wants it projected. -/
theorem eligible_iff {intent : OutboxRow} {source : Source} {f : VaultFile} (hsource : intent.source = some source)
    (hmime : orOctetStream f.mimeType = source.mimeType) (hhash : f.contentHash = some source.contentHash)
    (hsize : f.sizeBytes = some source.byteSize) (hkey : f.s3Key = source.s3Key) :
    f.EligibleText env ↔ env.goal intent = some (intent.logicalPath, source.contentHash) := by
  constructor
  · rintro ⟨contentHash, byteSize, hhash', hsize', htext, payload, hread⟩
    rw [hhash] at hhash'
    rw [hsize] at hsize'
    cases hhash'
    cases hsize'
    rw [hmime] at htext
    rw [hmime, hkey] at hread
    exact goal_text hsource htext hread
  · intro hgoal
    refine ⟨source.contentHash, source.byteSize, hhash, hsize, ?_, ?_⟩
    · rw [hmime]
      by_contra htext
      rw [goal_not_text hsource (by simpa using htext)] at hgoal
      cases hgoal
    · rw [hmime, hkey]
      cases hread : env.readPayload source with
      | ok payload => exact ⟨payload, rfl⟩
      | error e =>
        rw [goal_unreadable hsource hread] at hgoal
        cases hgoal

theorem Sound.converged (hs : s.Sound env) : s.Converged env := by
  intro row hrow outcome hout hne _
  obtain ⟨hshows, hmatched⟩ := hs.completed row hrow outcome hout hne
  cases hsource : row.source with
  | none =>
    rw [goal_absent hsource] at hshows
    cases hshows with
    | absent hgone =>
    have hnone {f : VaultFile} (hf : f ∈ s.files) (hid : f.id = row.fileId) : f.uploadState ≠ .confirmed := by
      rw [hs.absent row hrow hsource f hf hid]
      rintro ⟨⟩
    refine ⟨⟨?_, ?_⟩, fun f hf hid hconfirmed => absurd hconfirmed (hnone hf hid)⟩
    · rintro ⟨r, hr, hlive⟩
      rw [hgone r hr] at hlive
      cases hlive
    · rintro ⟨f, hf, hid, hconfirmed, -⟩
      exact absurd hconfirmed (hnone hf hid)
  | some source =>
    obtain ⟨source', f, hsource', hf, hid, hconfirmed, hpath, hmime, hhash, hsize, hkey, -⟩ :=
      (hmatched (by rw [hsource]; rfl)).file
    rw [hsource] at hsource'
    cases hsource'
    have helig : f.EligibleText env ↔ env.goal row = some (row.logicalPath, source.contentHash) :=
      eligible_iff hsource hmime hhash hsize hkey
    have hunique {g : VaultFile} (hg : g ∈ s.files) (hgid : g.id = row.fileId) : g = f :=
      s.files.eq_of_key hg hf (hgid.trans hid.symm)
    cases hgoal : env.goal row with
    | none =>
      rw [hgoal] at hshows helig
      cases hshows with
      | absent hgone =>
      refine ⟨⟨?_, ?_⟩, ?_⟩
      · rintro ⟨r, hr, hlive⟩
        rw [hgone r hr] at hlive
        cases hlive
      · rintro ⟨g, hg, hgid, -, he⟩
        cases helig.mp (hunique hg hgid ▸ he)
      · intro g hg hgid _ he
        cases helig.mp (hunique hg hgid ▸ he)
    | some goal =>
      rw [Env.goal, hsource, Option.bind_some] at hgoal
      obtain ⟨-, hgoal'⟩ := Option.ite_none_right_eq_some.mp hgoal
      cases hgoal'
      have hall : env.goal row = some (row.logicalPath, source.contentHash) := by
        rw [Env.goal, hsource, Option.bind_some]
        exact hgoal
      rw [hall] at hshows
      cases hshows with
      | @present r _ _ hfound hlive hrpath hdigest =>
      refine ⟨⟨fun _ => ⟨f, hf, hid, hconfirmed, helig.mpr hall⟩, fun _ => ⟨r, hfound, hlive⟩⟩, ?_⟩
      intro g hg hgid _ _
      rw [hunique hg hgid]
      exact ⟨r, hfound, hrpath.trans hpath.symm, hdigest.trans hhash.symm⟩

end Projection

variable [DecidableEq ω]

/-- In every run of File mutations and workers in which no worker mutates the Resource for a replaced
intent while it is still as the worker read it, and none closes an intent that was reopened behind
it, every state is converged. -/
theorem projection_converges {now : Int} {as : List (Action ω)}
    (hrun : Run (Guarded (Projection.step env) Projection.Undisturbed) (.initial ω now) as s) : s.Converged env := by
  have hsound : s.Sound env := hrun.invariant (I := Projection.Sound env)
    (fun _ _ _ hs hstep => Projection.sound_step hs hstep.1 hstep.2) (Projection.sound_initial now)
  exact hsound.converged

/-! ### A deletion that overtakes a creation -/

namespace Projection

instance decidableCarries (s : Projection ω) (intent : OutboxRow) : Decidable (s.Carries intent) :=
  inferInstanceAs (Decidable (∃ row ∈ s.outbox.rows, row.intentId = intent.intentId))

instance decidableUndisturbed (s : Projection ω) (a : Action ω) : Decidable (s.Undisturbed a) :=
  match a with
  | .advance w d =>
    match h : s.workers w with
    | none => isTrue (by
      intro x hx
      rw [h] at hx
      cases hx)
    | some x => @decidable_of_iff _
      ((x.phase.stage.isSome → s.Carries x.intent ∨ s.Overtaken x) ∧
        (x.phase = .finish .superseded → s.intentIsCurrent x.intent = false))
      ⟨fun hp y hy => by
        rw [h] at hy
        cases hy
        exact hp, fun hall => hall x h⟩
      (@instDecidableAnd _ _ (@instDecidableForall _ _ _ (@instDecidableOr _ _ _ (inferInstanceAs (Decidable (_ ≠ _)))))
        inferInstance)
  | .register _ | .confirm .. | .replaceContents .. | .remove .. | .cancel .. | .claim .. | .fault _ | .crash _
  | .rescue | .requeue .. | .tick _ => isTrue trivial

end Projection

def sampleDigest : String := "2d711642b726b04401627ca9fbac32f5c8530fb1903cc4db02258717921a4881"

/-- One object of one byte, and one creation that fingerprints a request. -/
def sampleEnv : Env where
  native := {
    parseUuid _ := none
    sha256 bytes :=
      if bytes = "x".toUTF8 then sampleDigest
      else "b6813f714c6fba91155d49b4a007d37b5531db8a2e8a2e4d7e2f77d56b584ca9"
    imageIds _ := some [] }
  body _ := "x".toUTF8
  mutationId intent
    | .create => if intent = 1 then 0xc5d9223b5455526abde1c6f1769fce9 else 0x8d3ba7f8fd0750cdb801674387789583
    | .restore => if intent = 1 then 0xd829a5634d8e5702a6eef0ef632353a0 else 0x1bd775cb5c5d5753bc7e1b8dac77725d
    | .move => if intent = 1 then 0xcd62abade3db5568a1a1fd8cc320722e else 0xb86ab033b2c25d00b3aa3025a8c84993
    | .replace => if intent = 1 then 0x58e7fb8b00539bbed2eb46cac82f6a else 0xe740b99218e35774ad3fcddddbd0ad1d
    | .delete => if intent = 1 then 0x8c09c179c87052139899badaa26658c4 else 0xc05ecdccbeef5da58eab9b9520109bd7

def sampleDraws : Draws := Native.sampleDraws (sampleRevisionId '0' sampleId_zero) 0x10 0

/-- A File is registered and confirmed, and worker `false` comes as far as the native creation. -/
def untilCreation : List (Action Bool) :=
  [.register ⟨0xf, 0xa, "file", .pending, none, "notes.txt", some "text/plain", none, none, "v/notes.txt", false⟩,
    .confirm 0xa 0xf 1 sampleDigest "ann" 1, .claim false 0xf] ++ List.replicate 6 (.advance false sampleDraws)

/-- The File is removed, and worker `true` has nothing to delete yet; then worker `false` goes on. -/
def removedMeanwhile : List (Action Bool) :=
  untilCreation ++ [.remove 0xa 0xf "ann" 2, .claim true 0xf] ++ List.replicate 3 (.advance true sampleDraws) ++
    List.replicate 2 (.advance false sampleDraws)

/-- A removed File keeps a live projection for good: its removal is completed, and nobody is at work. -/
theorem removed_file_stays_live : ∃ s, Run (Projection.step sampleEnv) (.initial Bool 0) removedMeanwhile s ∧
    s.files.rows = [] ∧ (∀ w, s.workers w = none) ∧ ¬ s.Converged sampleEnv := by
  have hexec : (execute (Projection.next sampleEnv) (.initial Bool 0) removedMeanwhile).any (fun s =>
      decide (s.files.rows = []) && decide (s.workers false = none) && decide (s.workers true = none) &&
      s.outbox.rows.any (fun row => row.outcome = some .alreadyAbsent ∧
        (resourceRow s.ledger row.fileId).any (fun r => r.lifecycle = .live))) = true := by decide +kernel
  cases hrun : execute (Projection.next sampleEnv) (.initial Bool 0) removedMeanwhile with
  | none =>
    rw [hrun] at hexec
    cases hexec
  | some s =>
    rw [hrun, Option.any_some, Bool.and_eq_true, Bool.and_eq_true, Bool.and_eq_true, List.any_eq_true] at hexec
    obtain ⟨⟨⟨hfiles, hfalse⟩, htrue⟩, row, hrow, hlive⟩ := hexec
    simp only [decide_eq_true_eq] at hfiles hfalse htrue hlive
    obtain ⟨hout, hlive⟩ := hlive
    have hidle : ∀ w, s.workers w = none := by
      rintro (_ | _)
      · exact hfalse
      · exact htrue
    refine ⟨s, run_of_execute hrun, hfiles, hidle, fun hconv => ?_⟩
    have hwork : ∀ w x, s.workers w = some x → x.intent.fileId = row.fileId → x.applying = false := by
      intro w x hx
      rw [hidle w] at hx
      cases hx
    obtain ⟨⟨hfile, -⟩, -⟩ := hconv row hrow _ hout (by rintro ⟨⟩) hwork
    cases hr : resourceRow s.ledger row.fileId with
    | none =>
      rw [hr] at hlive
      cases hlive
    | some r =>
      rw [hr, Option.any_some, decide_eq_true_eq] at hlive
      obtain ⟨f, hf, -⟩ := hfile ⟨r, hr, hlive⟩
      rw [Table.mem_def, hfiles] at hf
      cases hf

/-- Without the removal the File is projected, and every state on the way is converged. -/
theorem confirmed_file_projected : ∃ as s,
    Run (Guarded (Projection.step sampleEnv) Projection.Undisturbed) (.initial Bool 0) as s ∧ s.Converged sampleEnv ∧
    (resourceRow s.ledger 0xf).any (fun r => r.lifecycle = .live ∧ r.digest = some sampleDigest) = true := by
  have hexec : (execute (fun s a => if s.Undisturbed a then Projection.next sampleEnv s a else none) (.initial Bool 0)
      (untilCreation ++ List.replicate 2 (.advance false sampleDraws))).any (fun s =>
        (resourceRow s.ledger 0xf).any (fun r => r.lifecycle = .live ∧ r.digest = some sampleDigest)) = true := by
    decide +kernel
  cases hrun : execute (fun s a => if s.Undisturbed a then Projection.next sampleEnv s a else none) (.initial Bool 0)
      (untilCreation ++ List.replicate 2 (.advance false sampleDraws)) with
  | none =>
    rw [hrun] at hexec
    cases hexec
  | some s =>
    rw [hrun, Option.any_some] at hexec
    have hguarded := guarded_run_of_execute hrun
    exact ⟨_, s, hguarded, projection_converges hguarded, hexec⟩

end Akb.FileProjection
