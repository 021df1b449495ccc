import Akb.WriteLane.Steps

/-! The git writes inside and outside the lane, and whole runs of the module. -/
namespace Akb.WriteLane
open Akb.Library
variable {ν τ : Type*}

private theorem queued_of_counted {l : Lane ν} (h : l.counted = false) : l.queued = false := by
  cases l <;> simp_all [Lane.counted, Lane.queued]

section Frames
variable [DecidableEq ν]

/-- A caller with a git write on its way is not inside the admission wait. -/
theorem Accounted.uncounted {cfg : Settings} {s : State ν τ} {t : τ} (h : Accounted cfg s)
    (hb : (s.git t).busy = true) : (s.lane t).counted = false := by
  cases hc : (s.lane t).counted with
  | false => rfl
  | true => rw [h.counters.sequential t hc] at hb; cases hb

theorem Accounted.not_queued {cfg : Settings} {s : State ν τ} {t : τ} (h : Accounted cfg s)
    (hc : (s.lane t).counted = false) (hq : (s.git t).queued = false) : t ∉ (s.globalSem cfg).waiters.tasks := by
  rw [h.slots.queue, hq, queued_of_counted hc]
  simp

end Frames

/-- Who does not queue is not missed in the queue. -/
private theorem keep_tasks {ws : Waiters τ} {t : τ} (ht : t ∉ ws.tasks) (w : τ) :
    w ∈ ws.tasks ↔ (w ∈ ws.tasks ∧ w ≠ t) ∨ (w = t ∧ false = true) := by
  have hne (hw : w ∈ ws.tasks) : w ≠ t := fun he => ht (he ▸ hw)
  simpa using hne

section Git
variable [DecidableEq τ]

/-- The slots after one git write moved on. -/
private theorem slots_git {cfg : Settings} {s u : State ν τ} {t : τ} {old new : GitWrite} (h : Slots cfg s)
    (hg : s.git t = old) (hlane : u.lane = s.lane) (hgit : u.git = s.git) (hc : (s.lane t).counted = false)
    (hsound : (u.globalSem cfg).Sound)
    (htasks : ∀ w, w ∈ (u.globalSem cfg).waiters.tasks ↔
      (w ∈ (s.globalSem cfg).waiters.tasks ∧ w ≠ t) ∨ (w = t ∧ new.queued = true))
    (hcredit : (u.globalSem cfg).credit + new.hasSlot.toNat = (s.globalSem cfg).credit + old.hasSlot.toNat) :
    Slots cfg (u.setGit t new) := by
  have hl : (u.setGit t new).lane = s.lane := hlane
  refine h.move rfl (congrFun hl t) hg (git_setGit_self u t new) (fun w _ => congrFun hl w)
    (fun w hw => (git_setGit_of_ne hw).trans (congrFun hgit w)) hsound (fun w => ?_) ?_
  · rw [queued_of_counted hc, Bool.false_eq_true, false_or]
    exact htasks w
  · change (u.globalSem cfg).credit + _ + _ = _
    omega

/-- The counters after one git write moved on. -/
private theorem counters_git {s u : State ν τ} {t : τ} {old new : GitWrite} (h : Counters s) (hg : s.git t = old)
    (hlane : u.lane = s.lane) (hgit : u.git = s.git) (hc : (s.lane t).counted = false) (hwaiters : u.waiters = s.waiters)
    (hlifecycle : u.lifecycleWaiters + old.counted.toNat = s.lifecycleWaiters + new.counted.toNat) :
    Counters (u.setGit t new) := by
  have hl : (u.setGit t new).lane = s.lane := hlane
  refine h.move rfl (congrFun hl t) hg (git_setGit_self u t new) (fun w _ => congrFun hl w)
    (fun w hw => (git_setGit_of_ne hw).trans (congrFun hgit w)) ?_ hlifecycle (fun hh => ?_)
  · change u.waiters + _ = _
    rw [hwaiters]
  · rw [hc] at hh
    cases hh

end Git

variable [DecidableEq ν] [DecidableEq τ]

private theorem gates_git {s u : State ν τ} {t : τ} {new : GitWrite} (h : Gates s) (hlane : u.lane = s.lane)
    (hgates : u.vaultGates = s.vaultGates) : Gates (u.setGit t new) := by
  have hl : (u.setGit t new).lane = s.lane := hlane
  refine h.congr (fun v => ?_) (fun w => by rw [hl]) (fun w => by rw [hl])
  change (u.vaultGates.get? v).elim Lock.free Prod.snd = _
  rw [hgates]
  rfl

theorem Accounted.acquireOwnSlot {cfg : Settings} {s : State ν τ} {t : τ} {mustComplete pending : Bool}
    (h : Accounted cfg s) (hg : s.git t = .asking mustComplete pending) :
    Accounted cfg (s.acquireOwnSlot cfg t mustComplete pending) := by
  have hc := h.uncounted (t := t) (by rw [hg]; rfl)
  have ht := h.not_queued hc (by rw [hg]; rfl)
  have hsound := h.slots.sound.acquire ht
  unfold State.acquireOwnSlot
  split
  · rename_i sem hacq
    rw [hacq] at hsound
    obtain ⟨hws, hcredit⟩ := Semaphore.acquire_got hacq
    refine ⟨gates_git h.gates rfl rfl, slots_git h.slots hg rfl rfl hc hsound (fun w => ?_) hcredit,
      counters_git h.counters hg rfl rfl hc rfl ?_⟩
    · change w ∈ sem.waiters.tasks ↔ _
      rw [hws]
      exact keep_tasks ht w
    · simp [GitWrite.counted]
  · rename_i sem hacq
    rw [hacq] at hsound
    obtain ⟨htasks, hcredit⟩ := Semaphore.acquire_queued hacq
    refine ⟨gates_git h.gates rfl rfl, slots_git h.slots hg rfl rfl hc hsound (fun w => ?_) (congrArg (· + 0) hcredit),
      counters_git h.counters hg rfl rfl hc rfl rfl⟩
    change w ∈ sem.waiters.tasks ↔ _
    rw [htasks, List.mem_append, List.mem_singleton]
    simpa [GitWrite.queued] using or_congr_left (keep_tasks ht w)

theorem Accounted.runGitWrite {cfg : Settings} {s : State ν τ} {t : τ} {mustComplete : Bool} {e : Option Exit}
    (h : Accounted cfg s) (hg : s.git t = .idle e) (hc : (s.lane t).counted = false) :
    Accounted cfg (s.runGitWrite cfg t mustComplete) := by
  have hkeep := keep_tasks (h.not_queued hc (by rw [hg]; rfl))
  unfold State.runGitWrite
  split
  · exact ⟨gates_git h.gates rfl rfl, slots_git h.slots hg rfl rfl hc h.slots.sound hkeep rfl,
      counters_git h.counters hg rfl rfl hc rfl rfl⟩
  · have hasking : Accounted cfg
        ({ s with lifecycleWaiters := s.lifecycleWaiters + 1 }.setGit t (.asking mustComplete false)) :=
      ⟨gates_git h.gates rfl rfl, slots_git h.slots hg rfl rfl hc h.slots.sound hkeep rfl,
        counters_git h.counters hg rfl rfl hc rfl (by simp [GitWrite.counted])⟩
    exact hasking.acquireOwnSlot (git_setGit_self _ t _)

theorem Accounted.threadDone {cfg : Settings} {s s' : State ν τ} {t : τ} {ok : Bool} (h : Accounted cfg s)
    (hs : s.threadDone cfg t ok = some s') : Accounted cfg s' := by
  unfold State.threadDone at hs
  split at hs
  · rename_i pending absorbed hg
    cases hs
    have hc := h.uncounted (t := t) (by rw [hg]; rfl)
    have hkeep := keep_tasks (h.not_queued hc (by rw [hg]; rfl))
    obtain ⟨htasks, hcredit⟩ := Semaphore.release_spec (s.globalSem cfg)
    refine ⟨gates_git h.gates rfl rfl,
      slots_git h.slots hg rfl rfl hc h.slots.sound.release (fun w => ?_) (congrArg (· + 0) hcredit),
      counters_git h.counters hg rfl rfl hc rfl rfl⟩
    change w ∈ (s.globalSem cfg).release.waiters.tasks ↔ _
    rw [htasks]
    exact hkeep w
  · rename_i pending absorbed hg
    cases hs
    have hc := h.uncounted (t := t) (by rw [hg]; rfl)
    have hkeep := keep_tasks (h.not_queued hc (by rw [hg]; rfl))
    refine ⟨gates_git h.gates rfl rfl, slots_git h.slots hg rfl rfl hc h.slots.sound hkeep rfl,
      counters_git h.counters hg rfl rfl hc rfl rfl⟩
  · cases hs

theorem Accounted.cancel {cfg : Settings} {s : State ν τ} (h : Accounted cfg s) (t : τ) : Accounted cfg (s.cancel cfg t) := by
  unfold State.cancel
  split
  · rename_i hl
    exact h.cancelGate hl
  · rename_i hl
    exact (h.cancelSem t).interruptSlot hl
  · exact h.cancelSem t
  · rename_i own pending absorbed hg _ _
    have hc := h.uncounted (t := t) (by rw [hg]; rfl)
    have hkeep := keep_tasks (h.not_queued hc (by rw [hg]; rfl))
    refine ⟨gates_git h.gates rfl rfl, slots_git h.slots hg rfl rfl hc h.slots.sound hkeep rfl,
      counters_git h.counters hg rfl rfl hc rfl rfl⟩
  · exact h

theorem Accounted.resume {cfg : Settings} {s s' : State ν τ} {t : τ} (h : Accounted cfg s)
    (hs : s.resume cfg t = some s') : Accounted cfg s' := by
  unfold State.resume at hs
  split at hs
  · rename_i v i hl
    split at hs
    · cases hs
    · rename_i gate hres
      cases hs
      exact (h.takeGate hl hres).acquireSlot (lane_setLane_self _ t _)
    · rename_i gate hres
      cases hs
      exact h.quitGate hl hres
  · rename_i v i hl
    split at hs
    · cases hs
    · rename_i sem hres
      cases hs
      exact h.takeSlot hl hres
    · rename_i sem hres
      obtain ⟨u, hu, rfl⟩ := Option.map_eq_some_iff.mp hs
      obtain ⟨gate, hrel, rfl⟩ := Option.map_eq_some_iff.mp hu
      exact h.quitSlot hl hres hrel
  · rename_i mustComplete pending hg _ _
    have hc := h.uncounted (t := t) (by rw [hg]; rfl)
    split at hs
    · cases hs
    · rename_i sem hres
      cases hs
      obtain ⟨hsound, htasks, hcredit⟩ := h.slots.sound.resume hres
      refine ⟨gates_git h.gates rfl rfl, slots_git h.slots hg rfl rfl hc hsound (fun w => ?_) hcredit,
        counters_git h.counters hg rfl rfl hc rfl (by simp [GitWrite.counted])⟩
      exact (htasks w).trans (by simp [GitWrite.queued])
    · rename_i sem hres
      obtain ⟨hsound, htasks, hcredit⟩ := h.slots.sound.resume hres
      split at hs
      · cases hs
        have hasking : Accounted cfg ({ s with globalSlots := some sem }.setGit t (.asking true true)) :=
          ⟨gates_git h.gates rfl rfl,
            slots_git h.slots hg rfl rfl hc hsound (fun w => (htasks w).trans (by simp [GitWrite.queued])) hcredit,
            counters_git h.counters hg rfl rfl hc rfl rfl⟩
        exact hasking.acquireOwnSlot (git_setGit_self _ t _)
      · cases hs
        exact ⟨gates_git h.gates rfl rfl,
          slots_git h.slots hg rfl rfl hc hsound (fun w => (htasks w).trans (by simp [GitWrite.queued])) hcredit,
          counters_git h.counters hg rfl rfl hc rfl (by simp [GitWrite.counted])⟩
  · cases hs

/-- Every event keeps the account. -/
theorem Accounted.step {cfg : Settings} {s s' : State ν τ} {e : Event ν τ} (h : Accounted cfg s)
    (hs : step cfg s e s') : Accounted cfg s' := by
  cases e with
  | arrive t v =>
    rw [WriteLane.step, next] at hs
    split at hs
    · rename_i hl hg
      cases hs
      exact h.writeLane hl hg
    · cases hs
  | runGitWrite t mustComplete =>
    rw [WriteLane.step, next] at hs
    split at hs
    · rename_i hl hg
      cases hs
      exact h.runGitWrite hg (by rw [hl]; rfl)
    · rename_i hl hg
      cases hs
      exact h.runGitWrite hg (by rw [hl]; rfl)
    · cases hs
  | cancel t =>
    cases hs
    exact h.cancel t
  | expire t => exact h.expire hs
  | resume t => exact h.resume hs
  | threadDone t ok => exact h.threadDone hs
  | leave t e => exact h.leave hs
  | inherit child parent =>
    rw [WriteLane.step, next] at hs
    split at hs
    · cases hs
      exact ⟨h.gates.congr (fun _ => rfl) (fun _ => rfl) (fun _ => rfl),
        h.slots.congr rfl (fun _ => ⟨rfl, rfl⟩) (fun _ => ⟨rfl, rfl⟩), h.counters.waiters,
        h.counters.lifecycleWaiters, h.counters.sequential⟩
    · cases hs

theorem accounted_of_run {cfg : Settings} {s : State ν τ} {es : List (Event ν τ)}
    (h : Run (step cfg) State.initial es s) : Accounted cfg s :=
  h.invariant (fun _ _ _ hs ha => hs.step ha) (accounted_initial cfg)

end Akb.WriteLane
