import Akb.Rollout.OneLiveJob

/-! Every program that makes a job, and what it asks of the jobs that there are, for an installation to be
open in one of them at most. -/
namespace Akb.Rollout
open Akb.Library
variable {κ ω : Type} [LinearOrder κ]

namespace Ledger
variable {s s' : Ledger κ ω}

theorem insertJob_targets {appId releaseId jobId : κ} {entries : List (Entry κ)}
    (h : s.insertJob appId releaseId jobId entries = some s') {r : Target κ ω} (hr : r ∈ s'.targets) :
    r ∈ s.targets ∨ r.jobId = jobId ∧ ∃ e ∈ entries, r.installationId = e.installationId ∧
      (r.state.open = true → e.converged = false) := by
  obtain ⟨-, h⟩ := Option.ite_none_right_eq_some.mp h
  obtain ⟨jobs, -, h⟩ := Option.bind_eq_some_iff.mp h
  obtain ⟨targets, htargets, rfl⟩ := Option.map_eq_some_iff.mp h
  rcases (Table.mem_of_insertAll? htargets r).mp hr with hr | hr
  · obtain ⟨⟨e, n⟩, hen, rfl⟩ := List.mem_map.mp hr
    refine .inr ⟨rfl, e, (List.mem_zipIdx hen).2.2 ▸ List.getElem_mem _, rfl, fun hopen => ?_⟩
    by_contra hconv
    rw [Bool.not_eq_false] at hconv
    simp [Entry.target, hconv, TargetState.open] at hopen
  · exact .inl hr

/-- A new job opens what it names, and nothing that was open before. -/
theorem insertJob_opens (hjob : ∀ r ∈ s.targets, ∃ j ∈ s.jobs, j.id = r.jobId) {appId releaseId jobId : κ}
    {entries : List (Entry κ)} (h : s.insertJob appId releaseId jobId entries = some s')
    (hfree : ∀ e ∈ entries, e.converged = false → ∀ c, ¬ s.OpenIn e.installationId c) : s.Opens s' (some jobId) := by
  have hi := insertJob_spec h
  rintro x b ⟨⟨r, hr, hx, hb, hopen⟩, j, hj, hjb, hlive⟩
  rcases insertJob_targets h hr with hr | ⟨hrj, e, he, hre, hconv⟩
  · obtain ⟨j₀, hj₀, hid₀⟩ := hjob r hr
    rcases hi.jobs j hj with hj | ⟨hid, -⟩
    · exact .inl ⟨⟨r, hr, hx, hb, hopen⟩, j, hj, hjb, hlive⟩
    · exact absurd (hid₀.trans (hb.trans (hjb.symm.trans hid))) (hi.newJob j₀ hj₀)
  · refine .inr ⟨congrArg some (hrj.symm.trans hb), fun c hc => ?_⟩
    exact absurd (hre ▸ hx ▸ hc) (hfree e he (hconv hopen) c)

theorem insertJob_held (hs : s.Held) {appId releaseId jobId : κ} {entries : List (Entry κ)}
    (h : s.insertJob appId releaseId jobId entries = some s') : s'.Held := by
  have hi := insertJob_spec h
  refine hs.step none ?_ ?_ (by rintro _ ⟨⟩)
  · exact fun v _ id hid => ⟨hi.rowLocks ▸ hid, fun r hr _ => hi.oldTargets r hr⟩
  · exact fun v _ tx htx => ⟨tx, hi.workers ▸ htx, rfl, rfl⟩

end Ledger

namespace Control
variable {s s' : Control κ ω}

/-- The property, with what its proof rests on. -/
structure Linked (s : Control κ ω) : Prop where
  hasJob : ∀ r ∈ s.ledger.targets, ∃ j ∈ s.ledger.jobs, j.id = r.jobId
  hasInstallation : ∀ r ∈ s.ledger.targets, ∃ i ∈ s.ledger.installations, i.id = r.installationId
  read : ∀ a q, s.requests a = some q → ∀ x ∈ q.installationIds, ∃ i ∈ s.ledger.installations, i.id = x
  held : s.ledger.Held
  sole : ∀ x b c, s.ledger.OpenIn x b → s.ledger.OpenIn x c → b = c

omit [LinearOrder κ] in
private theorem sole_of_opens (hs : s.Linked) {opened : Option κ} (ho : s.ledger.Opens s'.ledger opened) :
    ∀ x b c, s'.ledger.OpenIn x b → s'.ledger.OpenIn x c → b = c := by
  intro x b c hb hc
  rcases ho x b hb with hb | ⟨hopened, hnewb⟩ <;> rcases ho x c hc with hc | ⟨hopened', hnewc⟩
  · exact hs.sole x b c hb hc
  · exact Option.some.inj ((hnewc b hb).symm.trans hopened')
  · exact Option.some.inj (hopened.symm.trans (hnewb c hc))
  · exact Option.some.inj (hopened.symm.trans hopened')

omit [LinearOrder κ] in
theorem Linked.moves (hs : s.Linked) (hm : s.ledger.Moves s'.ledger) {opened : Option κ} (ho : s.ledger.Opens s'.ledger opened)
    (hread : ∀ a q, s'.requests a = some q → s.requests a = some q ∨
      ∀ x ∈ q.installationIds, ∃ i ∈ s.ledger.installations, i.id = x) : s'.Linked := by
  have hinst : ∀ x, (∃ i ∈ s.ledger.installations, i.id = x) → ∃ i ∈ s'.ledger.installations, i.id = x := by
    rintro _ ⟨i, hi, rfl⟩
    exact hm.installations i hi
  refine ⟨?_, ?_, ?_, hm.held, sole_of_opens hs ho⟩
  · intro r' hr'
    obtain ⟨r, hr, hjob, -⟩ := hm.rows r' hr'
    obtain ⟨j, hj, hid⟩ := hs.hasJob r hr
    obtain ⟨j', hj', hid'⟩ := hm.jobs j hj
    exact ⟨j', hj', by rw [hid', hid, hjob]⟩
  · intro r' hr'
    obtain ⟨r, hr, -, hx⟩ := hm.rows r' hr'
    exact hx ▸ hinst _ (hs.hasInstallation r hr)
  · intro a q hq x hx
    rcases hread a q hq with hq | hrows
    · exact hinst x (hs.read a q hq x hx)
    · exact hinst x (hrows x hx)

omit [LinearOrder κ] in
/-- A step that changes neither targets nor jobs. -/
theorem Linked.same (hs : s.Linked) (htargets : s'.ledger.targets = s.ledger.targets)
    (hjobs : s'.ledger.jobs = s.ledger.jobs)
    (hinst : ∀ i ∈ s.ledger.installations, ∃ i' ∈ s'.ledger.installations, i'.id = i.id) (hheld : s'.ledger.Held)
    (hread : ∀ a q, s'.requests a = some q → s.requests a = some q ∨
      ∀ x ∈ q.installationIds, ∃ i ∈ s.ledger.installations, i.id = x) : s'.Linked := by
  have hopen : ∀ x b, s'.ledger.OpenIn x b ↔ s.ledger.OpenIn x b := fun x b => by
    rw [Ledger.OpenIn, htargets, hjobs, Ledger.OpenIn]
  have hrow : ∀ x, (∃ i ∈ s.ledger.installations, i.id = x) → ∃ i ∈ s'.ledger.installations, i.id = x := by
    rintro _ ⟨i, hi, rfl⟩
    exact hinst i hi
  refine ⟨?_, ?_, ?_, hheld, fun x b c hb hc => hs.sole x b c ((hopen x b).mp hb) ((hopen x c).mp hc)⟩
  · rw [htargets, hjobs]
    exact hs.hasJob
  · intro r hr
    exact hrow _ (hs.hasInstallation r (htargets ▸ hr))
  · intro a q hq x hx
    rcases hread a q hq with hq | hrows
    · exact hrow x (hs.read a q hq x hx)
    · exact hrow x (hrows x hx)

theorem Linked.insertJob (hs : s.Linked) {appId releaseId jobId : κ} {entries : List (Entry κ)}
    (h : s.ledger.insertJob appId releaseId jobId entries = some s'.ledger)
    (hrows : ∀ e ∈ entries, ∃ i ∈ s.ledger.installations, i.id = e.installationId)
    (hfree : ∀ e ∈ entries, e.converged = false → ∀ b, ¬ s.ledger.OpenIn e.installationId b)
    (hread : ∀ a q, s'.requests a = some q → s.requests a = some q) : s'.Linked := by
  have hi := Ledger.insertJob_spec h
  have hinst : ∀ x, (∃ i ∈ s.ledger.installations, i.id = x) → ∃ i ∈ s'.ledger.installations, i.id = x := by
    rintro _ ⟨i, hi, rfl⟩
    rw [Ledger.insertJob_installations h]
    refine ⟨_, List.mem_map.mpr ⟨i, hi, rfl⟩, ?_⟩
    split <;> rfl
  refine ⟨?_, ?_, fun a q hq x hx => hinst x (hs.read a q (hread a q hq) x hx), Ledger.insertJob_held hs.held h,
    sole_of_opens hs (Ledger.insertJob_opens hs.hasJob h hfree)⟩
  · intro r hr
    rcases Ledger.insertJob_targets h hr with hr | ⟨hjob, -⟩
    · obtain ⟨j, hj, hid⟩ := hs.hasJob r hr
      exact ⟨j, hi.oldJobs j hj, hid⟩
    · exact hjob ▸ hi.hasJob
  · intro r hr
    rcases Ledger.insertJob_targets h hr with hr | ⟨-, e, he, hx, -⟩
    · exact hinst _ (hs.hasInstallation r hr)
    · exact hx ▸ hinst _ (hrows e he)

/-- No job is made for an installation that is still open in an unfinished job, and none is taken up
again with one that another job has open. -/
def Waits (s : Control κ ω) : ControlAction κ ω → Prop
  | .command c d => ∀ i, s.loadInstallation c.appId c.vaultId = some i → c.mode = .fresh → s.replayed c i = false →
      s.jobKeys.any (fun k => k.1 = c.appId && k.2.1 = d.key) = false → ∀ b, ¬ s.ledger.OpenIn i.id b
  | .persistRequest appId _ _ => ∀ q, s.requests appId = some q → ∀ x ∈ q.installationIds, ∀ b, ¬ s.ledger.OpenIn x b
  | .resumeRollout _ sourceId releaseId _ _ _ => ∀ r ∈ s.ledger.targets, r.jobId = sourceId →
      ∀ i ∈ s.ledger.installations, i.id = r.installationId → i.currentReleaseId ≠ some releaseId →
        ∀ b, ¬ s.ledger.OpenIn i.id b
  | .processTarget w execution _ => ∀ t, s.ledger.workers w = .working t → s.ledger.blocks t execution = false →
      s.ledger.Reopens t execution
  | _ => True

theorem Linked.setInstallation (hs : s.Linked) {x : κ} {f : Installation κ → Installation κ} {hf : ∀ i, (f i).id = i.id}
    (h : s'.ledger = s.setInstallation x f hf) (hrequests : s'.requests = s.requests) : s'.Linked := by
  refine hs.same (by rw [h]; rfl) (by rw [h]; rfl) ?_ (hs.held.congr (by rw [h]; rfl) (by rw [h]; rfl) (by rw [h]; rfl))
    (fun a q hq => .inl (hrequests ▸ hq))
  intro i hi
  rw [h]
  exact row_setInstallation hf ⟨i, hi, rfl⟩

theorem Linked.insertGrant (hs : s.Linked) {g : Grant κ} (h : s.insertGrant g = some s') :
    s'.Linked ∧ s'.jobKeys = s.jobKeys ∧ ∀ x b, s'.ledger.OpenIn x b ↔ s.ledger.OpenIn x b := by
  obtain ⟨_, -, -, -, -, rfl⟩ := insertGrant_spec h
  exact ⟨hs.setInstallation rfl rfl, rfl, fun _ _ => Iff.rfl⟩

theorem Linked.persist (hs : s.Linked) {appId releaseId key jobId : κ} {targets : List (κ × κ)}
    (h : s.persistRolloutJob appId releaseId key jobId targets = some s')
    (hrows : ∀ t ∈ targets, ∃ i ∈ s.ledger.installations, i.id = t.2)
    (hfree : ∀ t ∈ targets, ∀ b, ¬ s.ledger.OpenIn t.2 b) : s'.Linked := by
  obtain ⟨-, h⟩ := Option.ite_none_left_eq_some.mp h
  obtain ⟨ledger, hledger, h⟩ := Option.bind_eq_some_iff.mp h
  obtain ⟨-, hs'⟩ := Option.ite_none_right_eq_some.mp h
  cases hs'
  refine hs.insertJob hledger ?_ ?_ (fun _ _ hq => hq)
  · intro e he
    obtain ⟨t, ht, rfl⟩ := List.mem_map.mp he
    exact hrows t ht
  · intro e he _
    obtain ⟨t, ht, rfl⟩ := List.mem_map.mp he
    exact hfree t ht

theorem Linked.enqueue (hs : s.Linked) {appId installationId releaseId key jobId targetId : κ}
    (h : s.enqueueInstallationRollout appId installationId releaseId key jobId targetId = some s')
    (hfree : s.jobKeys.any (fun k => k.1 = appId && k.2.1 = key) = false → ∀ b, ¬ s.ledger.OpenIn installationId b) :
    s'.Linked := by
  rw [enqueueInstallationRollout] at h
  split at h
  case h_1 => cases h
  case h_2 i hi =>
    obtain ⟨hmem, hid⟩ := Table.mem_of_get? hi
    obtain ⟨-, h⟩ := Option.ite_none_right_eq_some.mp h
    split at h
    case h_1 hkey =>
      refine hs.persist h ?_ ?_
      · intro t ht
        rw [List.mem_singleton.mp ht]
        exact ⟨i, hmem, hid⟩
      · intro t ht
        rw [List.mem_singleton.mp ht]
        refine hfree (List.any_eq_false.mpr ?_)
        exact List.find?_eq_none.mp hkey
    case h_2 =>
      obtain ⟨-, hs'⟩ := Option.ite_none_right_eq_some.mp h
      cases hs'
      exact hs

end Control
end Akb.Rollout

/-! One unfinished rollout for each installation, in every state of a run that waits for it. -/
namespace Akb.Rollout
open Akb.Library
variable {κ ω : Type} [LinearOrder κ]

namespace Control
variable {s s' : Control κ ω}

private theorem Linked.command (hs : s.Linked) {c : Command κ} {d : Drawn κ} (hg : s.Waits (.command c d))
    (h : s.commandInstallation c d = some s') : s'.Linked := by
  rw [commandInstallation] at h
  split at h
  case h_1 => cases h
  case h_2 release _ =>
    split at h
    case h_1 i hi =>
      by_cases hreplayed : s.replayed c i = true
      · rw [if_pos hreplayed] at h
        cases h
        exact hs
      rw [if_neg hreplayed] at h
      have hfree := hg i hi
      obtain ⟨-, h⟩ := Option.ite_none_left_eq_some.mp h
      cases hmode : c.mode with
      | install | initialGrantApproval =>
        rw [hmode] at h
        cases h
      | restore =>
        rw [hmode] at h
        obtain ⟨-, h⟩ := Option.ite_none_right_eq_some.mp h
        have hrestored : ({ s with
            resources := s.setResources i.id .owned
            ledger := s.setInstallation i.id (Installation.restore c.releaseId) (fun _ => rfl) } : Control κ ω).Linked :=
          hs.setInstallation rfl rfl
        exact (hrestored.insertGrant h).1
      | fresh =>
        rw [hmode] at h
        obtain ⟨-, h⟩ := Option.ite_none_left_eq_some.mp h
        obtain ⟨u, hu, hq⟩ := Option.bind_eq_some_iff.mp h
        have hrefreshed : ({ s with
            ledger := s.setInstallation i.id (Installation.refresh c.releaseId) (fun _ => rfl) } : Control κ ω).Linked :=
          hs.setInstallation rfl rfl
        obtain ⟨hlinked, hkeys, hopen⟩ := hrefreshed.insertGrant hu
        refine hlinked.enqueue hq (fun hkey b hb => ?_)
        rw [hkeys] at hkey
        exact hfree hmode (Bool.not_eq_true _ ▸ hreplayed) hkey b ((hopen i.id b).mp hb)
    case h_2 =>
      obtain ⟨-, h⟩ := Option.ite_none_left_eq_some.mp h
      obtain ⟨t, ht, h⟩ := Option.bind_eq_some_iff.mp h
      obtain ⟨u, hu, hq⟩ := Option.bind_eq_some_iff.mp h
      obtain ⟨hfresh, hmem⟩ := Table.insert?_eq_some ht
      have hinstalled : ({ s with
          ledger := { s.ledger with installations := t }
          placements := ⟨d.installationId, c.appId, c.vaultId⟩ :: s.placements } : Control κ ω).Linked :=
        hs.same rfl rfl (fun i hi => ⟨i, (hmem i).mpr (.inr hi), rfl⟩) (hs.held.congr rfl rfl rfl)
          (fun a q hq => .inl hq)
      obtain ⟨hlinked, -, hopen⟩ := hinstalled.insertGrant hu
      refine hlinked.enqueue hq (fun _ b hb => ?_)
      -- No target names the new installation yet.
      obtain ⟨⟨r, hr, hx, -⟩, -⟩ := (hopen d.installationId b).mp hb
      obtain ⟨i, hi, hid⟩ := hs.hasInstallation r hr
      exact hfresh i hi (hid.trans hx)

private theorem Linked.adopt (hs : s.Linked) {id vaultId : κ} {release : Release κ} {tables : List String}
    {fingerprint : Option String} (h : s.adopt id release vaultId tables fingerprint = some s') : s'.Linked := by
  obtain ⟨-, h⟩ := Option.ite_none_left_eq_some.mp h
  obtain ⟨t, ht, rfl⟩ := Option.map_eq_some_iff.mp h
  obtain ⟨-, hmem⟩ := Table.insert?_eq_some ht
  exact hs.same rfl rfl (fun i hi => ⟨i, (hmem i).mpr (.inr hi), rfl⟩) (hs.held.congr rfl rfl rfl) (fun a q hq => .inl hq)

private theorem Linked.uninstall (hs : s.Linked) {appId vaultId : κ}
    (h : s.uninstallInstallation appId vaultId = some s') : s'.Linked := by
  rw [uninstallInstallation] at h
  split at h
  case h_1 => cases h
  case h_2 i _ =>
    split at h
    · cases h
      exact hs
    · cases h
      exact hs.setInstallation rfl rfl

private theorem Linked.approve (hs : s.Linked) {appId vaultId : κ} {release : Release κ} {capabilities : List String}
    (h : s.approveInitialInstallationGrant appId vaultId release capabilities = some s') : s'.Linked := by
  rw [approveInitialInstallationGrant] at h
  split at h
  case h_1 => cases h
  case h_2 i _ =>
    obtain ⟨-, h⟩ := Option.ite_none_right_eq_some.mp h
    obtain ⟨u, hu, rfl⟩ := Option.map_eq_some_iff.mp h
    exact (hs.insertGrant hu).1.setInstallation rfl rfl

private theorem Linked.readRollout (hs : s.Linked) {appId releaseId key : κ}
    (h : s.readRollout appId releaseId key = some s') : s'.Linked := by
  rw [Control.readRollout] at h
  split at h
  case h_1 => cases h
  case h_2 =>
    obtain ⟨-, h⟩ := Option.ite_none_left_eq_some.mp h
    obtain ⟨-, hs'⟩ := Option.ite_none_right_eq_some.mp h
    cases hs'
    refine hs.same rfl rfl (fun i hi => ⟨i, hi, rfl⟩) (hs.held.congr rfl rfl rfl) (fun a q hq => ?_)
    by_cases ha : a = appId
    · refine .inr (fun x hx => ?_)
      obtain rfl := Option.some.inj ((if_pos ha).symm.trans hq)
      obtain ⟨i, hi, rfl⟩ := List.mem_map.mp hx
      exact ⟨i, (List.mem_filter.mp hi).1, rfl⟩
    · exact .inl ((if_neg ha).symm.trans hq)

omit [LinearOrder κ] in
private theorem closeRequest_some [DecidableEq κ] {a appId : κ} {q : Request κ}
    (h : (if a = appId then none else s.requests a) = some q) : s.requests a = some q := by
  split at h
  · cases h
  · exact h

private theorem Linked.persistRequest (hs : s.Linked) {appId jobId : κ} {targetIds : List κ}
    (hg : s.Waits (.persistRequest appId jobId targetIds)) (h : s.persistRequest appId jobId targetIds = some s') :
    s'.Linked := by
  rw [Control.persistRequest] at h
  split at h
  case h_1 => cases h
  case h_2 q hq =>
    obtain ⟨-, h⟩ := Option.ite_none_right_eq_some.mp h
    obtain ⟨u, hu, rfl⟩ := Option.map_eq_some_iff.mp h
    obtain ⟨-, hu⟩ := Option.ite_none_left_eq_some.mp hu
    obtain ⟨ledger, hledger, hu⟩ := Option.bind_eq_some_iff.mp hu
    obtain ⟨-, hs'⟩ := Option.ite_none_right_eq_some.mp hu
    cases hs'
    refine hs.insertJob hledger ?_ ?_ (fun a q hq => closeRequest_some hq)
    · intro e he
      obtain ⟨t, ht, rfl⟩ := List.mem_map.mp he
      exact hs.read appId q hq t.2 (List.of_mem_zip ht).2
    · intro e he _
      obtain ⟨t, ht, rfl⟩ := List.mem_map.mp he
      exact hg q hq t.2 (List.of_mem_zip ht).2

private theorem Linked.resumeRollout (hs : s.Linked) {appId sourceId releaseId key jobId : κ} {targetIds : List κ}
    (hg : s.Waits (.resumeRollout appId sourceId releaseId key jobId targetIds))
    (h : s.resumeRollout appId sourceId releaseId key jobId targetIds = some s') : s'.Linked := by
  obtain ⟨-, h⟩ := Option.ite_none_left_eq_some.mp h
  obtain ⟨ledger, hledger, h⟩ := Option.bind_eq_some_iff.mp h
  obtain ⟨-, hs'⟩ := Option.ite_none_right_eq_some.mp h
  cases hs'
  rw [Ledger.resumeRollout] at hledger
  split at hledger
  case h_1 => cases hledger
  case h_2 source hsource =>
    refine hs.insertJob (Option.ite_none_right_eq_some.mp hledger).2 ?_ ?_ (fun _ _ hq => hq)
    · intro e he
      obtain ⟨⟨id, i⟩, hzip, rfl⟩ := List.mem_map.mp he
      obtain ⟨t, -, ht⟩ := List.mem_filterMap.mp (List.of_mem_zip hzip).2
      exact ⟨i, (Table.mem_of_get? (Option.filter_eq_some_iff.mp ht).1).1, rfl⟩
    · intro e he hconv
      obtain ⟨⟨id, i⟩, hzip, rfl⟩ := List.mem_map.mp he
      obtain ⟨t, ht, hi⟩ := List.mem_filterMap.mp (List.of_mem_zip hzip).2
      obtain ⟨hmem, hid⟩ := Table.mem_of_get? (Option.filter_eq_some_iff.mp hi).1
      obtain ⟨htarget, hsrc⟩ := List.mem_filter.mp ((List.mem_insertionSort _).mp ht)
      exact hg t htarget (of_decide_eq_true hsrc) i hmem hid (of_decide_eq_false hconv)

variable [DecidableEq ω]

private theorem Linked.processTarget (hs : s.Linked) {w : ω} {execution : Execution} {tables : List String}
    (hg : s.Waits (.processTarget w execution tables)) (h : s.processTarget w execution tables = some s') :
    s'.Linked := by
  rw [Control.processTarget] at h
  split at h
  case h_2 => cases h
  case h_1 t ht =>
    obtain ⟨ledger, hledger, rfl⟩ := Option.map_eq_some_iff.mp h
    obtain ⟨hm, b₀, ho⟩ := Ledger.processTarget_moves hs.held hledger hg
    exact hs.moves hm ho (fun a q hq => .inl hq)

theorem Linked.step (hs : s.Linked) {a : ControlAction κ ω} (hg : s.Waits a) (h : s.step a s') : s'.Linked := by
  have hledger : ∀ {l : Option (Ledger κ ω)}, s.onLedger l = some s' →
      (∀ ledger, l = some ledger → s.ledger.Moves ledger ∧ ∃ opened, s.ledger.Opens ledger opened) → s'.Linked := by
    intro l hl hall
    obtain ⟨ledger, rfl, rfl⟩ := Option.map_eq_some_iff.mp hl
    obtain ⟨hm, opened, ho⟩ := hall ledger rfl
    exact hs.moves hm ho (fun a q hq => .inl hq)
  cases a with
  | command c d => exact hs.command hg h
  | uninstall appId vaultId => exact hs.uninstall h
  | adopt id release vaultId tables fingerprint => exact hs.adopt h
  | approve appId vaultId release capabilities => exact hs.approve h
  | readRollout appId releaseId key => exact hs.readRollout h
  | persistRequest appId jobId targetIds => exact hs.persistRequest hg h
  | giveUpRequest appId =>
    cases h
    exact hs.same rfl rfl (fun i hi => ⟨i, hi, rfl⟩) (hs.held.congr rfl rfl rfl) (fun a q hq => .inl (closeRequest_some hq))
  | resumeRollout appId sourceId releaseId key jobId targetIds => exact hs.resumeRollout hg h
  | reclaim w =>
    refine hledger h (fun ledger hl => ?_)
    obtain ⟨hm, htargets, hjobs⟩ := Ledger.reclaim_moves hs.held hl
    exact ⟨hm, _, Ledger.opens_of_same htargets hjobs⟩
  | takeSnapshot w =>
    refine hledger h (fun ledger hl => ?_)
    obtain ⟨hm, htargets, hjobs⟩ := Ledger.takeSnapshot_moves hs.held hl
    exact ⟨hm, _, Ledger.opens_of_same htargets hjobs⟩
  | claimTarget w skipped =>
    refine hledger h (fun ledger hl => ?_)
    obtain ⟨hm, htargets, hjobs⟩ := Ledger.claimTarget_moves hs.held hl
    exact ⟨hm, _, Ledger.opens_of_same htargets hjobs⟩
  | commitClaim w =>
    refine hledger h (fun ledger hl => ?_)
    obtain ⟨hm, ho⟩ := Ledger.commitClaim_moves hs.held hl
    exact ⟨hm, _, ho⟩
  | processTarget w execution tables => exact hs.processTarget hg h
  | stop w =>
    refine hledger h (fun ledger hl => ?_)
    cases hl
    exact ⟨Ledger.stop_moves hs.held, _, Ledger.opens_of_same rfl rfl⟩
  | observe id o =>
    cases h
    exact hs.setInstallation rfl rfl
  | elapse seconds =>
    refine hledger h (fun ledger hl => ?_)
    cases hl
    exact ⟨Ledger.moves_of_same rfl rfl (fun i hi => ⟨i, hi, rfl⟩) (hs.held.congr rfl rfl rfl), _,
      Ledger.opens_of_same rfl rfl⟩

omit [LinearOrder κ] [DecidableEq ω] in
private theorem linked_empty (now : Int) (releases : List (Release κ)) : (Control.empty now releases : Control κ ω).Linked :=
  ⟨fun r hr => absurd hr (Table.not_mem_empty r), fun r hr => absurd hr (Table.not_mem_empty r), by rintro _ _ ⟨⟩,
    by rintro _ _ ⟨⟩, by rintro x b c ⟨⟨r, hr, -⟩, -⟩; exact absurd hr (Table.not_mem_empty r)⟩

/-- In every state of a run that waits, the unfinished jobs of which an installation is a pending or
running target are one job at most. -/
theorem one_live_job {now : Int} {releases : List (Release κ)} {actions : List (ControlAction κ ω)}
    (h : Run (Guarded Control.step Waits) (Control.empty now releases) actions s) :
    ∀ x b c, s.ledger.OpenIn x b → s.ledger.OpenIn x c → b = c :=
  (Run.invariant (I := Linked) (fun _ _ _ hi ha => hi.step ha.2 ha.1) h (linked_empty now releases)).sole

end Control

/-- The one job of a fresh installation fails and is resumed. -/
def resumedOnce : List (ControlAction Nat Nat) :=
  installed ++ [.processTarget 1 (.failed .stepFailed) [], .resumeRollout 0 5 7 50 6 [12]]

/-- It is resumed twice, under two keys; and an installation is uninstalled and installed afresh before
its first job has begun. -/
theorem second_job_while_open :
    (∃ s : Control Nat Nat, Run Control.step (.empty 0 sampleReleases) (resumedOnce ++ [.resumeRollout 0 5 7 51 8 [13]]) s ∧
      s.ledger.OpenIn 1 6 ∧ s.ledger.OpenIn 1 8) ∧
    ∃ s : Control Nat Nat, Run Control.step (.empty 0 sampleReleases)
        [.command ⟨0, 3, 7, ["rollout:request"], .install⟩ ⟨1, 40, 5, 11⟩, .uninstall 0 3,
          .command ⟨0, 3, 7, ["rollout:request"], .fresh⟩ ⟨2, 41, 6, 12⟩] s ∧
      s.ledger.OpenIn 1 5 ∧ s.ledger.OpenIn 1 6 := by
  constructor
  · obtain ⟨s, hs, h₆, h₈⟩ : ∃ s : Control Nat Nat,
        execute Control.next (.empty 0 sampleReleases) (resumedOnce ++ [.resumeRollout 0 5 7 51 8 [13]]) = some s ∧
        ((∃ r ∈ s.ledger.targets.rows, r.installationId = 1 ∧ r.jobId = 6 ∧ r.state.open = true) ∧
          ∃ j ∈ s.ledger.jobs.rows, j.id = 6 ∧ j.status.live = true) ∧
        (∃ r ∈ s.ledger.targets.rows, r.installationId = 1 ∧ r.jobId = 8 ∧ r.state.open = true) ∧
          ∃ j ∈ s.ledger.jobs.rows, j.id = 8 ∧ j.status.live = true := ⟨_, rfl, by decide⟩
    exact ⟨s, run_of_execute hs, h₆, h₈⟩
  · obtain ⟨s, hs, h₅, h₆⟩ : ∃ s : Control Nat Nat,
        execute Control.next (.empty 0 sampleReleases)
          [.command ⟨0, 3, 7, ["rollout:request"], .install⟩ ⟨1, 40, 5, 11⟩, .uninstall 0 3,
            .command ⟨0, 3, 7, ["rollout:request"], .fresh⟩ ⟨2, 41, 6, 12⟩] = some s ∧
        ((∃ r ∈ s.ledger.targets.rows, r.installationId = 1 ∧ r.jobId = 5 ∧ r.state.open = true) ∧
          ∃ j ∈ s.ledger.jobs.rows, j.id = 5 ∧ j.status.live = true) ∧
        (∃ r ∈ s.ledger.targets.rows, r.installationId = 1 ∧ r.jobId = 6 ∧ r.state.open = true) ∧
          ∃ j ∈ s.ledger.jobs.rows, j.id = 6 ∧ j.status.live = true := ⟨_, rfl, by decide⟩
    exact ⟨s, run_of_execute hs, h₅, h₆⟩

/-- Resumed once, the installation is open in the new job, and in no other. -/
theorem resumed_once_alone :
    ∃ s : Control Nat Nat, Run (Guarded Control.step Control.Waits) (.empty 0 sampleReleases) resumedOnce s ∧
      s.ledger.OpenIn 1 6 ∧ ∀ c, s.ledger.OpenIn 1 c → 6 = c := by
  obtain ⟨u, hu, s, hs, hended, hopen⟩ : ∃ u : Control Nat Nat,
      Run (Guarded Control.step Control.Waits) (.empty 0 sampleReleases)
        (installed ++ [.processTarget 1 (.failed .stepFailed) []]) u ∧
      ∃ s, u.next (.resumeRollout 0 5 7 50 6 [12]) = some s ∧ (∀ j ∈ u.ledger.jobs.rows, j.status.live = false) ∧
      (∃ r ∈ s.ledger.targets.rows, r.installationId = 1 ∧ r.jobId = 6 ∧ r.state.open = true) ∧
        ∃ j ∈ s.ledger.jobs.rows, j.id = 6 ∧ j.status.live = true := by
    refine ⟨_, .cons ⟨rfl, ?_⟩ (.cons ⟨rfl, trivial⟩ (.cons ⟨rfl, trivial⟩ (.cons ⟨rfl, trivial⟩
      (.cons ⟨rfl, trivial⟩ (.cons ⟨rfl, ?_⟩ (.nil _)))))), _, rfl, by decide, by decide⟩
    · rintro i hi
      cases hi
    · rintro t ht hblocks
      cases ht
      exact absurd hblocks (by decide)
  have hresumed : Run (Guarded Control.step Control.Waits) (.empty 0 sampleReleases) resumedOnce s := by
    refine hu.append (.single ⟨hs, ?_⟩)
    rintro r _ _ i _ _ _ b ⟨-, j, hj, -, hlive⟩
    rw [hended j hj] at hlive
    cases hlive
  exact ⟨s, hresumed, hopen, fun c hc => Control.one_live_job hresumed 1 6 c hopen hc⟩

end Akb.Rollout
