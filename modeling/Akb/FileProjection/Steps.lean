import Akb.FileProjection.Progress

/-! The invariant of the projection: what is recorded of an intent has been reached,
as long as no newer intent has taken over its row. -/
namespace Akb.FileProjection
open Akb.Library Akb.Native
variable {ω : Type} {env : Env} {s s' : Projection ω}

namespace Projection

/-- The outbox row of the File still has the intent. -/
def Carries (s : Projection ω) (intent : OutboxRow) : Prop := ∃ row ∈ s.outbox, row.intentId = intent.intentId

/-- The catalogue has the source of the intent. -/
def Matched (s : Projection ω) (intent : OutboxRow) : Prop :=
  ∃ source, intent.source = some source ∧ sourceMatches intent source (s.findSource intent) = true

structure Sound (env : Env) (s : Projection ω) : Prop where
  history : HistoryInvariant s.ledger
  rowIssued : ∀ row ∈ s.outbox, row.intentId ∈ s.issued
  rowOnce : ∀ row ∈ s.outbox, ∀ row' ∈ s.outbox, row.intentId = row'.intentId → row = row'
  /-- A removed File can be back at most as an unconfirmed reservation. -/
  absent : ∀ row ∈ s.outbox, row.source = none → ∀ f ∈ s.files, f.id = row.fileId → f.uploadState = .pending
  distinct : ∀ i ∈ s.issued, ∀ j ∈ s.issued, ∀ st st', env.mutationId i st = env.mutationId j st' → i = j ∧ st = st'
  recorded : ∀ rev ∈ s.ledger.revisions, ∃ i ∈ s.issued, ∃ st, rev.mutationId = env.mutationId i st ∧
    ∀ row ∈ s.outbox, row.intentId = i → Reached env s.ledger row st
  completed : ∀ row ∈ s.outbox, ∀ outcome, row.outcome = some outcome → outcome ≠ .abandoned →
    Shows (resourceRow s.ledger row.fileId) (env.goal row) ∧ (row.source.isSome → s.Matched row)
  workerIssued : ∀ w x, s.workers w = some x → x.intent.intentId ∈ s.issued
  workerSame : ∀ w x, s.workers w = some x → ∀ row ∈ s.outbox, row.intentId = x.intent.intentId → row.Same x.intent
  workerSound : ∀ w x, s.workers w = some x →
    PhaseSound env s.ledger (s.Carries x.intent) (s.Matched x.intent) x.intent x.phase

theorem findSource_same (s : Projection ω) {a b : OutboxRow} (h : a.Same b) : s.findSource a = s.findSource b := by
  rw [findSource, findSource, h.fileId, h.namespaceId]

theorem Matched.same {a b : OutboxRow} (h : a.Same b) (hm : s.Matched a) : s.Matched b := by
  obtain ⟨source, hsource, hmatch⟩ := hm
  refine ⟨source, h.source ▸ hsource, ?_⟩
  rw [← findSource_same s h]
  rw [sourceMatches] at hmatch ⊢
  rw [← h.logicalPath]
  exact hmatch

theorem sound_initial (now : Int) : (Projection.initial ω now).Sound env where
  history := historyInvariant_empty
  rowIssued row hrow := absurd hrow (Table.not_mem_empty row)
  rowOnce row hrow := absurd hrow (Table.not_mem_empty row)
  absent row hrow := absurd hrow (Table.not_mem_empty row)
  distinct i hi := absurd hi List.not_mem_nil
  recorded rev hrev := absurd hrev (Table.not_mem_empty rev)
  completed row hrow := absurd hrow (Table.not_mem_empty row)
  workerIssued w x hx := by cases hx
  workerSame w x hx := by cases hx
  workerSound w x hx := by cases hx

section Workers
variable [DecidableEq ω]

theorem setWorker_cases {w v : ω} {x : Option Worker} {y : Worker} (h : s.setWorker w x v = some y) :
    (v = w ∧ x = some y) ∨ (v ≠ w ∧ s.workers v = some y) := by
  rw [setWorker] at h
  split at h
  · rename_i hv
    exact .inl ⟨hv, h⟩
  · rename_i hv
    exact .inr ⟨hv, h⟩

/-- A worker changes, and knows what its phase says. -/
theorem Sound.setWorker (hs : s.Sound env) {w : ω} {x : Worker} (hissued : x.intent.intentId ∈ s.issued)
    (hsame : ∀ row ∈ s.outbox, row.intentId = x.intent.intentId → row.Same x.intent)
    (hsound : PhaseSound env s.ledger (s.Carries x.intent) (s.Matched x.intent) x.intent x.phase) :
    ({ s with workers := s.setWorker w (some x) } : Projection ω).Sound env :=
  { hs with
    workerIssued := fun v y hy => by
      rcases setWorker_cases hy with ⟨-, hxy⟩ | ⟨-, hy⟩
      · cases hxy
        exact hissued
      · exact hs.workerIssued v y hy
    workerSame := fun v y hy => by
      rcases setWorker_cases hy with ⟨-, hxy⟩ | ⟨-, hy⟩
      · cases hxy
        exact hsame
      · exact hs.workerSame v y hy
    workerSound := fun v y hy => by
      rcases setWorker_cases hy with ⟨-, hxy⟩ | ⟨-, hy⟩
      · cases hxy
        exact hsound
      · exact hs.workerSound v y hy }

theorem Sound.clearWorker (hs : s.Sound env) (w : ω) :
    ({ s with workers := s.setWorker w none } : Projection ω).Sound env := by
  have hold {v : ω} {y : Worker} (hy : s.setWorker w none v = some y) : s.workers v = some y := by
    rcases setWorker_cases hy with ⟨-, hxy⟩ | ⟨-, hy⟩
    · cases hxy
    · exact hy
  exact { hs with
    workerIssued := fun v y hy => hs.workerIssued v y (hold hy)
    workerSame := fun v y hy => hs.workerSame v y (hold hy)
    workerSound := fun v y hy => hs.workerSound v y (hold hy) }

/-- A worker goes on to another phase with the intent it has. -/
theorem Sound.setPhase (hs : s.Sound env) {w : ω} {x : Worker} (hx : s.workers w = some x) {phase : Phase}
    (hsound : PhaseSound env s.ledger (s.Carries x.intent) (s.Matched x.intent) x.intent phase) :
    ({ s with workers := s.setWorker w (some { x with phase := phase }) } : Projection ω).Sound env :=
  hs.setWorker (hs.workerIssued w x hx) (hs.workerSame w x hx) hsound

end Workers

/-- The outbox keeps its intents; a row is completed anew only where its intent is reached. -/
theorem Sound.setOutbox (hs : s.Sound env) {outbox : Table OutboxRow OutboxRow.fileId}
    (hrows : ∀ row' ∈ outbox, ∃ row ∈ s.outbox, row'.Same row ∧
      (∀ outcome, row'.outcome = some outcome → outcome ≠ .abandoned → row.outcome = some outcome ∨
        (Shows (resourceRow s.ledger row.fileId) (env.goal row) ∧ (row.source.isSome → s.Matched row)))) :
    ({ s with outbox := outbox } : Projection ω).Sound env where
  history := hs.history
  rowIssued row' hrow' := by
    obtain ⟨row, hrow, hsame, -⟩ := hrows row' hrow'
    exact hsame.intentId ▸ hs.rowIssued row hrow
  rowOnce a' ha' b' hb' hid := by
    obtain ⟨a, ha, hasame, -⟩ := hrows a' ha'
    obtain ⟨b, hb, hbsame, -⟩ := hrows b' hb'
    have hab : a = b := hs.rowOnce a ha b hb (hasame.intentId.symm.trans (hid.trans hbsame.intentId))
    exact outbox.eq_of_key ha' hb' (hasame.fileId.trans (hab ▸ hbsame.fileId.symm))
  absent row' hrow' hsource f hf hid := by
    obtain ⟨row, hrow, hsame, -⟩ := hrows row' hrow'
    exact hs.absent row hrow (hsame.source ▸ hsource) f hf (hid.trans hsame.fileId)
  distinct := hs.distinct
  recorded rev hrev := by
    obtain ⟨i, hi, st, hm, hreached⟩ := hs.recorded rev hrev
    refine ⟨i, hi, st, hm, fun row' hrow' hid => ?_⟩
    obtain ⟨row, hrow, hsame, -⟩ := hrows row' hrow'
    exact (hreached row hrow (hsame.intentId ▸ hid)).same hsame.symm
  completed row' hrow' outcome hout hne := by
    obtain ⟨row, hrow, hsame, hold⟩ := hrows row' hrow'
    have hdone : Shows (resourceRow s.ledger row.fileId) (env.goal row) ∧ (row.source.isSome → s.Matched row) := by
      rcases hold outcome hout hne with hdone | hdone
      · exact hs.completed row hrow outcome hdone hne
      · exact hdone
    rw [hsame.fileId, goal_same hsame, hsame.source]
    exact ⟨hdone.1, fun hs' => Matched.same hsame.symm (hdone.2 hs')⟩
  workerIssued := hs.workerIssued
  workerSame w x hx row' hrow' hid := by
    obtain ⟨row, hrow, hsame, -⟩ := hrows row' hrow'
    exact hsame.trans (hs.workerSame w x hx row hrow (hsame.intentId ▸ hid))
  workerSound w x hx := by
    refine (hs.workerSound w x hx).mono ?_ (fun _ h => h) (fun _ h => h) (fun _ _ h => h)
    rintro ⟨row', hrow', hid⟩
    obtain ⟨row, hrow, hsame, -⟩ := hrows row' hrow'
    exact ⟨row, hrow, hsame.intentId ▸ hid⟩

/-- A statement that rewrites the selected rows under their intents, and completes none. -/
theorem Sound.updateOutbox (hs : s.Sound env) {p : OutboxRow → Bool} {f : OutboxRow → OutboxRow}
    {hf : ∀ row, (f row).fileId = row.fileId} (hsame : ∀ row, (f row).Same row)
    (hout : ∀ row ∈ s.outbox, p row → ∀ outcome, (f row).outcome = some outcome → outcome ≠ .abandoned →
      row.outcome = some outcome ∨
        (Shows (resourceRow s.ledger row.fileId) (env.goal row) ∧ (row.source.isSome → s.Matched row))) :
    ({ s with outbox := s.outbox.updateWhere p f hf } : Projection ω).Sound env := by
  refine hs.setOutbox (fun row' hrow' => ?_)
  rcases Table.mem_updateWhere.mp hrow' with ⟨row, hrow, hp, rfl⟩ | ⟨hrow, -⟩
  · exact ⟨row, hrow, hsame row, hout row hrow hp⟩
  · exact ⟨row', hrow, .refl row', fun outcome h _ => .inl h⟩

/-- A catalogue change that keeps every source that an intent in the outbox has found, and
confirms no File whose removal is recorded. -/
theorem Sound.setFiles (hs : s.Sound env) {files : Table VaultFile VaultFile.id}
    (habsent : ∀ f ∈ files, f ∈ s.files ∨ f.uploadState = .pending)
    (hmatched : ∀ intent, s.Matched intent → ({ s with files := files } : Projection ω).Matched intent) :
    ({ s with files := files } : Projection ω).Sound env :=
  { hs with
    absent := fun row hrow hsource f hf hid => by
      rcases habsent f hf with hf | hpending
      · exact hs.absent row hrow hsource f hf hid
      · exact hpending
    completed := fun row hrow outcome hout hne => by
      obtain ⟨hshows, hm⟩ := hs.completed row hrow outcome hout hne
      exact ⟨hshows, fun hs' => hmatched row (hm hs')⟩
    workerSound := fun w x hx =>
      (hs.workerSound w x hx).mono id (fun _ h => hmatched x.intent h) (fun _ h => h) (fun _ _ h => h) }

/-- A found source is a confirmed File of the catalogue. -/
theorem Matched.file {intent : OutboxRow} (h : s.Matched intent) : ∃ source f, intent.source = some source ∧ f ∈ s.files ∧
    f.id = intent.fileId ∧ f.uploadState = .confirmed ∧ f.logicalPath = intent.logicalPath ∧
    orOctetStream f.mimeType = source.mimeType ∧ f.contentHash = some source.contentHash ∧
    f.sizeBytes = some source.byteSize ∧ f.s3Key = source.s3Key ∧ s.findSource intent = some f := by
  obtain ⟨source, hsource, hmatch⟩ := h
  cases hf : s.findSource intent with
  | none =>
    rw [sourceMatches, hf] at hmatch
    cases hmatch
  | some f =>
  rw [sourceMatches, hf, Option.any_some, decide_eq_true_eq] at hmatch
  obtain ⟨-, hconfirmed, -, hpath, hmime, hhash, hsize, hkey⟩ := hmatch
  have hget := (Option.filter_eq_some_iff.mp hf).1
  exact ⟨source, f, hsource, (Table.mem_of_get? hget).1, (Table.mem_of_get? hget).2, hconfirmed, hpath, hmime, hhash,
    hsize, hkey, rfl⟩

end Projection

end Akb.FileProjection

/-! Each step of the system keeps the invariant, as long as no worker mutates the
Resource of a File for an intent that a newer one has replaced. -/
namespace Akb.FileProjection
open Akb.Library Akb.Native
variable {ω : Type} {env : Env} {s s' : Projection ω}

namespace Projection

theorem freshIntent_spec {issued : List Uuid} {i : Uuid} (h : env.freshIntent issued i = true) :
    i ∉ issued ∧ (∀ st st', env.mutationId i st = env.mutationId i st' → st = st') ∧
      ∀ j ∈ issued, ∀ st st', env.mutationId i st ≠ env.mutationId j st' := by
  have hall (st : Stage) : st ∈ Stage.all := by cases st <;> decide
  rw [Env.freshIntent, Bool.and_eq_true, Bool.not_eq_true', List.all_eq_true] at h
  obtain ⟨hnew, hstages⟩ := h
  have hpair (st st' : Stage) := List.all_eq_true.mp (hstages st (hall st)) st' (hall st')
  simp only [Bool.and_eq_true, decide_eq_true_eq, List.all_eq_true] at hpair
  refine ⟨fun hi => by simp [hi] at hnew, fun st st' he => (hpair st st').1 he, fun j hj st st' => ?_⟩
  simpa using (hpair st st').2 j hj

/-- A new intent takes over the row of its File; no worker has it yet, and no worker's intent is left there. -/
theorem Sound.enqueue (hs : s.Sound env) {files : Table VaultFile VaultFile.id} {row : OutboxRow}
    (h : s.enqueue env files row = some s') (hfiles : ∀ id, id ≠ row.fileId → files.get? id = s.files.get? id)
    (habsent : row.source = none → ∀ f ∈ files, f.id ≠ row.fileId) (hopen : row.outcome = none) : s'.Sound env := by
  obtain ⟨hfresh, rfl⟩ : env.freshIntent s.issued row.intentId = true ∧
      { s with files := files, outbox := s.outbox.upsert row, issued := row.intentId :: s.issued } = s' := by
    obtain ⟨hif, h⟩ := Option.ite_none_right_eq_some.mp h
    exact ⟨(Bool.and_eq_true_iff.mp hif).2, Option.some.inj h⟩
  obtain ⟨hnew, hstages, hothers⟩ := freshIntent_spec hfresh
  have hkept {row' : OutboxRow} (hrow' : row' ∈ s.outbox.upsert row) (hid : row'.intentId ∈ s.issued) :
      row' ∈ s.outbox ∧ row'.fileId ≠ row.fileId := by
    rcases Table.mem_upsert.mp hrow' with rfl | hold
    · exact absurd hid hnew
    · exact hold
  have hmatched {intent : OutboxRow} (hne : intent.fileId ≠ row.fileId) (hm : s.Matched intent) :
      ({ s with files := files, outbox := s.outbox.upsert row, issued := row.intentId :: s.issued } :
        Projection ω).Matched intent := by
    obtain ⟨source, hsource, hmatch⟩ := hm
    refine ⟨source, hsource, ?_⟩
    rw [findSource] at hmatch ⊢
    rw [hfiles _ hne]
    exact hmatch
  exact {
    history := hs.history
    rowIssued := fun row' hrow' => by
      rcases Table.mem_upsert.mp hrow' with rfl | ⟨hrow', -⟩
      · exact List.mem_cons_self
      · exact List.mem_cons_of_mem _ (hs.rowIssued row' hrow')
    rowOnce := fun a ha b hb hid => by
      rcases Table.mem_upsert.mp ha with rfl | ⟨holdA, -⟩
      · rcases Table.mem_upsert.mp hb with rfl | ⟨holdB, -⟩
        · rfl
        · exact absurd (hid ▸ hs.rowIssued b holdB) hnew
      · rcases Table.mem_upsert.mp hb with rfl | ⟨holdB, -⟩
        · exact absurd (hid ▸ hs.rowIssued a holdA) hnew
        · exact hs.rowOnce a holdA b holdB hid
    absent := fun row' hrow' hsource f hf hid => by
      rcases Table.mem_upsert.mp hrow' with rfl | ⟨hrow', hne⟩
      · exact absurd hid (habsent hsource f hf)
      · have hget := Table.get?_eq_some.mpr ⟨hf, hid⟩
        rw [hfiles _ hne] at hget
        exact hs.absent row' hrow' hsource f (Table.mem_of_get? hget).1 hid
    distinct := fun i hi j hj st st' he => by
      rcases List.mem_cons.mp hi with rfl | hi
      · rcases List.mem_cons.mp hj with rfl | hj
        · exact ⟨rfl, hstages st st' he⟩
        · exact absurd he (hothers j hj st st')
      · rcases List.mem_cons.mp hj with rfl | hj
        · exact absurd he.symm (hothers i hi st' st)
        · exact hs.distinct i hi j hj st st' he
    recorded := fun rev hrev => by
      obtain ⟨i, hi, st, hm, hreached⟩ := hs.recorded rev hrev
      exact ⟨i, List.mem_cons_of_mem _ hi, st, hm,
        fun row' hrow' hid => hreached row' (hkept hrow' (hid ▸ hi)).1 hid⟩
    completed := fun row' hrow' outcome hout hne => by
      rcases Table.mem_upsert.mp hrow' with rfl | ⟨hrow', hother⟩
      · rw [hopen] at hout
        cases hout
      · obtain ⟨hshows, hm⟩ := hs.completed row' hrow' outcome hout hne
        exact ⟨hshows, fun hsome => hmatched hother (hm hsome)⟩
    workerIssued := fun w x hx => List.mem_cons_of_mem _ (hs.workerIssued w x hx)
    workerSame := fun w x hx row' hrow' hid =>
      hs.workerSame w x hx row' (hkept hrow' (hid ▸ hs.workerIssued w x hx)).1 hid
    workerSound := fun w x hx => by
      have hcarried (hc : ∃ row' ∈ s.outbox.upsert row, row'.intentId = x.intent.intentId) :
          s.Carries x.intent ∧ x.intent.fileId ≠ row.fileId := by
        obtain ⟨row', hrow', hid⟩ := hc
        obtain ⟨hrow', hne⟩ := hkept hrow' (hid ▸ hs.workerIssued w x hx)
        exact ⟨⟨row', hrow', hid⟩, (hs.workerSame w x hx row' hrow' hid).fileId ▸ hne⟩
      exact (hs.workerSound w x hx).mono (fun hc => (hcarried hc).1)
        (fun hc hm => hmatched (hcarried hc).2 hm) (fun _ h => h) (fun _ _ h => h) }

/-- The head the worker read is not the head of the Resource any more. -/
def Overtaken (s : Projection ω) (x : Worker) : Prop :=
  (resourceRow s.ledger x.intent.fileId).map ResourceRow.headRevisionId ≠ x.phase.resource.map ResourceRow.headRevisionId

/-- A worker at its native call has the intent of the outbox row, unless the Resource is not as it
read it any more; and no worker that found its intent closed closes an open row of it. -/
def Undisturbed (s : Projection ω) : Action ω → Prop
  | .advance w _ => ∀ x, s.workers w = some x →
    (x.phase.stage.isSome → s.Carries x.intent ∨ s.Overtaken x) ∧
      (x.phase = .finish .superseded → s.intentIsCurrent x.intent = false)
  | _ => True

theorem Effect.not_overtaken {x : Worker} {now : ResourceRow}
    (h : Effect x.intent (resourceRow s.ledger x.intent.fileId) now x.phase) : ¬ s.Overtaken x := by
  refine not_not.mpr ?_
  obtain ⟨intent, phase⟩ := x
  cases h with
  | create habsent =>
    rw [habsent]
    rfl
  | restore hfound hhead | move hfound hhead | replace hfound hhead | delete hfound hhead =>
    rw [hfound]
    exact congrArg some hhead

/-- The Revision of a current intent goes into the ledger. -/
theorem Sound.commit (hs : s.Sound env) {w : ω} {x : Worker} (hx : s.workers w = some x) (hcarries : s.Carries x.intent)
    {l' : Ledger} {st : Stage} {now : ResourceRow} (hst : x.phase.stage = some st)
    (hc : Commits s.ledger l' x.intent.fileId (env.mutationId x.intent.intentId st) now)
    (heff : Effect x.intent (resourceRow s.ledger x.intent.fileId) now x.phase) :
    ({ s with ledger := l' } : Projection ω).Sound env ∧ Reached env l' x.intent st := by
  obtain ⟨hreached, hkeeps⟩ := effect_reached (hs.workerSound w x hx) hcarries hst hc heff
  have hrow {row : OutboxRow} (hrow : row ∈ s.outbox) {st' : Stage} (h : Reached env s.ledger row st') :
      Reached env l' row st' := by
    by_cases hid : row.fileId = x.intent.fileId
    · obtain ⟨row₀, hrow₀, hintent⟩ := hcarries
      have hsame := hs.workerSame w x hx row₀ hrow₀ hintent
      rw [s.outbox.eq_of_key hrow hrow₀ (hid.trans hsame.fileId.symm)] at h ⊢
      exact (hkeeps st' (h.same hsame)).same hsame.symm
    · have hframe := hc.frame row.fileId hid
      cases h with
      | shown h => exact .shown (by rw [hframe]; exact h)
      | restored hg hf hl hd => exact .restored hg (by rw [hframe]; exact hf) hl hd
      | moved hg hf hl hp => exact .moved hg (by rw [hframe]; exact hf) hl hp
  obtain ⟨rev, hmutation, -, -, hrevs⟩ := hc.revision
  refine ⟨{ hs with
    history := hc.history
    recorded := fun rev' hrev' => ?_
    completed := fun row hr outcome hout hne => ?_
    workerSound := fun v y hy => ?_ }, hreached⟩
  · rcases (hrevs rev').mp hrev' with rfl | hrev'
    · exact ⟨x.intent.intentId, hs.workerIssued w x hx, st, hmutation,
        fun row hr hid => hreached.same (hs.workerSame w x hx row hr hid).symm⟩
    · obtain ⟨i, hi, st', hm, hold⟩ := hs.recorded rev' hrev'
      exact ⟨i, hi, st', hm, fun row hr hid => hrow hr (hold row hr hid)⟩
  · obtain ⟨hshows, hm⟩ := hs.completed row hr outcome hout hne
    have hkept : Reached env l' row .create := hrow hr (.shown hshows)
    exact ⟨hkept.shows rfl, hm⟩
  · refine (hs.workerSound v y hy).mono id (fun _ h => h) (fun r h => h.commit hc) (fun hcy st' h => ?_)
    obtain ⟨row, hr, hid⟩ := hcy
    have hsame := hs.workerSame v y hy row hr hid
    exact (hrow hr (h.same hsame.symm)).same hsame

/-- The next read of a worker. -/
theorem Sound.read (hs : s.Sound env) {w : ω} {x : Worker} (hx : s.workers w = some x) :
    PhaseSound env s.ledger (s.Carries x.intent) (s.Matched x.intent) x.intent (s.read env x) := by
  have hsound := hs.workerSound w x hx
  have hheld : Held env s.ledger (s.Carries x.intent) x.intent (resourceRow s.ledger x.intent.fileId) :=
    ⟨fun r hr => seen_now hs.history hr, fun _ h => h⟩
  have hsuperseded : PhaseSound env s.ledger (s.Carries x.intent) (s.Matched x.intent) x.intent (.finish .superseded) :=
    fun _ hne => absurd rfl hne
  rw [Projection.read]
  cases hphase : x.phase with
  | checkIntent =>
    simp only
    split
    · trivial
    · exact hsuperseded
  | readResource =>
    simp only
    split
    · rename_i hsource
      refine ensureAbsent_sound (goal_absent hsource) (fun _ hsome => ?_) hheld
      rw [hsource] at hsome
      cases hsome
    · rename_i source hsource
      exact ⟨hsource, hheld⟩
  | readSource source res =>
    rw [hphase] at hsound
    obtain ⟨hsource, hres⟩ := hsound
    simp only
    split
    · trivial
    · rename_i hmatch
      have hm : s.Matched x.intent := ⟨source, hsource, by simpa using hmatch⟩
      split
      · rename_i htext
        exact ensureAbsent_sound (goal_not_text hsource (by simpa using htext)) (fun _ _ => hm) hres
      · rename_i htext
        exact ⟨hsource, by simpa using htext, fun _ => hm, hres⟩
  | readPayload source res =>
    rw [hphase] at hsound
    obtain ⟨hsource, htext, hm, hres⟩ := hsound
    simp only
    split
    · rename_i e hread
      exact ensureAbsent_sound (goal_unreadable hsource hread) (fun hc _ => hm hc) hres
    · rename_i payload hread
      exact ⟨⟨hsource, goal_text hsource htext hread, hm⟩, hres⟩
  | checkIntentAgain source payload res =>
    rw [hphase] at hsound
    simp only
    split
    · exact hsound
    · exact hsuperseded
  | readSourceAgain source payload res =>
    rw [hphase] at hsound
    simp only
    split
    · exact project_sound hsound.1 hsound.2
    · exact hsuperseded
  | rereadRestored source payload =>
    rw [hphase] at hsound
    obtain ⟨hready, hreached⟩ := hsound
    simp only
    split
    · trivial
    · rename_i r hr
      refine moveUnlessThere_sound hready (seen_now hs.history hr) (fun hc => ?_) (fun _ h => hr ▸ h)
      cases hreached hc with
      | shown h =>
        rw [hready.goal, hr] at h
        cases h with
        | present hf hl => exact Option.some.inj hf ▸ hl
      | restored _ hf hl =>
        rw [hr] at hf
        exact Option.some.inj hf ▸ hl
  | rereadMoved source payload =>
    rw [hphase] at hsound
    obtain ⟨hready, hreached⟩ := hsound
    simp only
    split
    · trivial
    · rename_i r hr
      refine replaceUnlessEqual_sound hready (seen_now hs.history hr) (fun hc => ?_) (fun _ h => hr ▸ h)
      cases hreached hc with
      | shown h =>
        rw [hready.goal, hr] at h
        cases h with
        | present hf hl hp => exact Option.some.inj hf ▸ ⟨hl, hp⟩
      | moved hg hf hl hp =>
        rw [hr] at hf
        rw [hready.goal] at hg
        cases hg
        exact Option.some.inj hf ▸ ⟨hl, hp⟩
  | create _ _ | restore _ _ _ | move _ _ _ | replace _ _ _ | delete _ | finish _ | failed =>
    rw [hphase] at hsound
    exact hsound

theorem fail_same (now : Int) (attempt : Nat) (row : OutboxRow) : (row.fail now attempt).Same row := by
  rw [OutboxRow.fail]
  split <;> exact ⟨rfl, rfl, rfl, rfl, rfl⟩

section Workers
variable [DecidableEq ω]

/-- A native call, replayed or published, and the phase after it. -/
theorem Sound.nativeCall (hs : s.Sound env) {w : ω} {x : Worker} (hx : s.workers w = some x) {call : NativeCall}
    {after : Phase} (hcall : x.nativeCall env = some (call, after))
    (hguard : x.phase.stage.isSome → s.Carries x.intent ∨ s.Overtaken x) {d : Draws} {res : NativeMutationResult}
    {l' : Ledger} (hrun : call.run env.native s.ledger d = .ok (res, l')) :
    ({ s with ledger := l', workers := s.setWorker w (some { x with phase := after }) } : Projection ω).Sound env := by
  have hsound := hs.workerSound w x hx
  have hhead : ∀ r, x.phase.resource = some r → ∃ e, r.headRevisionId = some e := by
    have hseen {r : ResourceRow} (h : Seen s.ledger x.intent.fileId r) : ∃ e, r.headRevisionId = some e := by
      obtain ⟨rev, -, he⟩ := h.head
      exact ⟨_, he⟩
    intro r hr
    cases hphase : x.phase with
    | restore _ _ r' =>
      rw [hphase] at hsound hr
      cases hr
      exact hseen hsound.2
    | move _ _ r' | replace _ _ r' =>
      rw [hphase] at hsound hr
      cases hr
      exact hseen hsound.2.1
    | delete r' =>
      rw [hphase] at hsound hr
      cases hr
      exact hseen hsound.2.2
    | checkIntent | readResource | readSource _ _ | readPayload _ _ | checkIntentAgain _ _ _ | readSourceAgain _ _ _
    | create _ _ | rereadRestored _ _ | rereadMoved _ _ | finish _ | failed =>
      rw [hphase] at hr
      cases hr
  obtain ⟨st, hst, ⟨rfl, prior, hprior, hmutation⟩ | ⟨now, hc, heff⟩⟩ := nativeCall_effect hs.history hcall hhead hrun
  · -- Answered from the record: some worker of this intent has been here before.
    refine hs.setPhase hx (after_sound hcall hst hsound (fun hcarries => ?_))
    obtain ⟨row, hrow, hid⟩ := hcarries
    obtain ⟨i, hi, st', hm, hreached⟩ := hs.recorded prior hprior
    obtain ⟨rfl, rfl⟩ := hs.distinct _ hi _ (hs.workerIssued w x hx) _ _ (hm.symm.trans hmutation)
    exact (hreached row hrow hid).same (hs.workerSame w x hx row hrow hid)
  · have hcarries : s.Carries x.intent :=
      (hguard (by rw [hst]; rfl)).resolve_right (Effect.not_overtaken heff)
    obtain ⟨hnew, hreached⟩ := hs.commit hx hcarries hst hc heff
    exact Sound.setPhase hnew hx (after_sound hcall hst hsound (fun _ => hreached))

theorem Sound.advance (hs : s.Sound env) {w : ω} {x : Worker} (hx : s.workers w = some x) (d : Draws)
    (hg : s.Undisturbed (.advance w d)) : (s.advance env w x d).Sound env := by
  have hsound := hs.workerSound w x hx
  obtain ⟨hguard, hsuperseded⟩ := hg x hx
  rw [Projection.advance]
  split
  · rename_i call after hcall
    split
    · rename_i res ledger hrun
      exact hs.nativeCall hx hcall hguard hrun
    · exact hs.setPhase hx trivial
  · split
    · rename_i outcome hphase
      rw [hphase] at hsound
      suffices hclosed : ({ s with outbox := s.closeOpen x.intent (OutboxRow.complete outcome) (complete_fileId outcome) } :
          Projection ω).Sound env from hclosed.clearWorker w
      refine hs.updateOutbox (fun _ => ⟨rfl, rfl, rfl, rfl, rfl⟩) (fun row hrow hp o ho _ => .inr ?_)
      simp only [decide_eq_true_eq] at hp
      obtain ⟨-, hid, hopen⟩ := hp
      have hsame := hs.workerSame w x hx row hrow hid
      have hne : outcome ≠ .superseded := by
        rintro rfl
        have hclosed := hsuperseded hphase
        rw [intentIsCurrent, List.any_eq_false] at hclosed
        exact hclosed row hrow (by simp [hsame.fileId, hid, hopen])
      obtain ⟨hshows, hm⟩ := hsound ⟨row, hrow, hid⟩ hne
      rw [hsame.fileId, goal_same hsame, hsame.source]
      exact ⟨hshows, fun hsome => Matched.same hsame.symm (hm hsome)⟩
    · suffices hclosed : ({ s with
          outbox := s.closeOpen x.intent (OutboxRow.fail s.now x.intent.retryCount) (fail_fileId s.now x.intent.retryCount) } :
          Projection ω).Sound env from hclosed.clearWorker w
      refine hs.updateOutbox (fail_same _ _) (fun row hrow hp o ho hne => ?_)
      rw [OutboxRow.fail] at ho
      split at ho
      · cases ho
        exact absurd rfl hne
      · exact .inl ho
    · exact hs.setPhase hx (hs.read hx)

/-- Each step of the system keeps the invariant. -/
theorem sound_step {a : Action ω} (hs : s.Sound env) (h : s.next env a = some s') (hg : s.Undisturbed a) :
    s'.Sound env := by
  have habandoned {f : OutboxRow → OutboxRow} {row : OutboxRow} (hf : (f row).outcome = some .abandoned) :
      ∀ o, (f row).outcome = some o → o ≠ .abandoned → row.outcome = some o ∨
        (Shows (resourceRow s.ledger row.fileId) (env.goal row) ∧ (row.source.isSome → s.Matched row)) := by
    intro o ho hne
    rw [hf] at ho
    exact absurd (Option.some.inj ho).symm hne
  cases a with
  | register f =>
    obtain ⟨hpending, h⟩ := Option.ite_none_right_eq_some.mp h
    obtain ⟨files, hfiles, rfl⟩ := Option.map_eq_some_iff.mp h
    obtain ⟨hfresh, hmem⟩ := Table.insert?_eq_some hfiles
    have hpendingOnly : ∀ g ∈ files, g ∈ s.files ∨ g.uploadState = .pending := by
      intro g hgm
      rcases (hmem g).mp hgm with rfl | hgm
      · exact .inr hpending
      · exact .inl hgm
    refine hs.setFiles hpendingOnly (fun intent hm => ?_)
    obtain ⟨source, g, hsource, hgm, hid, -, -, -, -, -, -, hfind⟩ := hm.file
    obtain ⟨source', hsource', hmatch⟩ := hm
    refine ⟨source', hsource', ?_⟩
    have hget : files.get? intent.fileId = s.files.get? intent.fileId := by
      rw [Table.get?_eq_some.mpr ⟨hgm, hid⟩, Table.get?_eq_some.mpr ⟨(hmem g).mpr (.inr hgm), hid⟩]
    rw [findSource] at hmatch ⊢
    rw [hget]
    exact hmatch
  | confirm vaultId fileId byteSize contentHash actor intentId =>
    obtain ⟨f, hf, h⟩ := Option.bind_eq_some_iff.mp h
    obtain ⟨-, h⟩ := Option.ite_none_right_eq_some.mp h
    exact hs.enqueue h (fun id hid => Table.get?_upsert_of_ne hid) (by rintro ⟨⟩) rfl
  | replaceContents vaultId fileId s3Key mimeType byteSize contentHash actor intentId =>
    obtain ⟨f, hf, h⟩ := Option.bind_eq_some_iff.mp h
    obtain ⟨-, h⟩ := Option.ite_none_right_eq_some.mp h
    exact hs.enqueue h (fun id hid => Table.get?_upsert_of_ne hid) (by rintro ⟨⟩) rfl
  | remove vaultId fileId actor intentId =>
    obtain ⟨f, hf, h⟩ := Option.bind_eq_some_iff.mp h
    refine hs.enqueue h (fun id hid => ?_) (fun _ g hgm => by simpa using (Table.mem_deleteWhere.mp hgm).2) rfl
    rw [Table.get?_deleteWhere]
    cases hget : s.files.get? id with
    | none => rfl
    | some g =>
      rw [Option.filter_some, if_pos]
      simpa [(Table.mem_of_get? hget).2] using hid
  | cancel vaultId fileId =>
    cases h
    refine hs.setFiles (fun f hf => .inl (Table.mem_deleteWhere.mp hf).1) (fun intent hm => ?_)
    obtain ⟨source, f, hsource, hfm, hid, hconfirmed, -⟩ := hm.file
    obtain ⟨source', hsource', hmatch⟩ := hm
    refine ⟨source', hsource', ?_⟩
    rw [findSource] at hmatch ⊢
    rw [Table.get?_deleteWhere, Table.get?_eq_some.mpr ⟨hfm, hid⟩, Option.filter_some, if_pos,
      ← Table.get?_eq_some.mpr ⟨hfm, hid⟩]
    · exact hmatch
    · simp [hconfirmed]
  | claim w fileId =>
    obtain ⟨-, h⟩ := Option.ite_none_right_eq_some.mp h
    obtain ⟨row, hrow, h⟩ := Option.bind_eq_some_iff.mp h
    obtain ⟨-, h⟩ := Option.ite_none_right_eq_some.mp h
    cases h
    obtain ⟨hmem, hid⟩ := Table.mem_of_get? hrow
    have hclaimed : ({ s with
        outbox := s.outbox.updateWhere (fun r => r.fileId = fileId) (OutboxRow.claim s.now) (fun _ => rfl) } :
        Projection ω).Sound env :=
      hs.updateOutbox (fun _ => ⟨rfl, rfl, rfl, rfl, rfl⟩) (fun r _ _ o ho _ => .inl ho)
    refine Sound.setWorker hclaimed (hs.rowIssued row hmem) (fun r hr hintent => ?_) trivial
    have hclaim : row.claim s.now ∈ s.outbox.updateWhere (fun r => r.fileId = fileId) (OutboxRow.claim s.now)
        (fun _ => rfl) := Table.mem_updateWhere.mpr (.inl ⟨row, hmem, by simpa using hid, rfl⟩)
    rw [hclaimed.rowOnce r hr _ hclaim hintent]
    exact .refl _
  | advance w d =>
    obtain ⟨x, hx, rfl⟩ := Option.map_eq_some_iff.mp h
    exact hs.advance hx d hg
  | fault w =>
    obtain ⟨x, hx, h⟩ := Option.bind_eq_some_iff.mp h
    obtain ⟨-, h⟩ := Option.ite_none_right_eq_some.mp h
    cases h
    exact hs.setPhase hx trivial
  | crash w =>
    cases h
    exact hs.clearWorker w
  | rescue =>
    cases h
    exact hs.updateOutbox (fun _ => ⟨rfl, rfl, rfl, rfl, rfl⟩) (fun row _ _ => habandoned rfl)
  | requeue namespaceId fileId =>
    cases h
    refine hs.updateOutbox (fun _ => ⟨rfl, rfl, rfl, rfl, rfl⟩) (fun row _ _ o ho _ => ?_)
    cases ho
  | tick seconds =>
    cases h
    exact { hs with }

end Workers

end Projection

end Akb.FileProjection
