import Akb.WriteLane.Accounts

/-! Every step keeps the account, whatever exit it takes. -/
namespace Akb.WriteLane
open Akb.Library
variable {ν τ : Type*}

namespace Lane

theorem at_outside (v : ν) (e : Option Exit) : (outside e : Lane ν).At v := fun _ _ => by simp [awaits, holds]

theorem at_gateWait (v : ν) (i : Interrupt) : (gateWait v i).At v := fun _ h => by simp [awaits, holds, h.symm]

theorem at_gotGate (v : ν) : (gotGate v).At v := fun _ h => by simp [awaits, holds, h.symm]

theorem at_slotWait (v : ν) (i : Interrupt) : (slotWait v i).At v := fun _ h => by simp [awaits, holds, h.symm]

theorem at_inside (v : ν) (b : Bool) : (inside v b).At v := fun _ h => by simp [awaits, holds, h.symm]

end Lane

section Same
variable [DecidableEq τ]

/-- What the new control state of one caller leaves as it was. -/
private theorem lane_same {α : Type*} {s : State ν τ} {t : τ} {l : Lane ν} {f : Lane ν → α} (h : f l = f (s.lane t))
    (u : τ) : f ((s.setLane t l).lane u) = f (s.lane u) := by
  by_cases hu : u = t
  · rw [hu, lane_setLane_self, h]
  · rw [lane_setLane_of_ne hu]

private theorem git_same {α : Type*} {s : State ν τ} {t : τ} {g : GitWrite} {f : GitWrite → α} (h : f g = f (s.git t))
    (u : τ) : f ((s.setGit t g).git u) = f (s.git u) := by
  by_cases hu : u = t
  · rw [hu, git_setGit_self, h]
  · rw [git_setGit_of_ne hu]

end Same

variable [DecidableEq ν]

theorem Accounted.idle {cfg : Settings} {s : State ν τ} {t : τ} (h : Accounted cfg s)
    (hc : (s.lane t).counted = true) : ∃ e, s.git t = .idle e := by
  have hb := h.counters.sequential t hc
  cases hg : s.git t with
  | idle e => exact ⟨e, rfl⟩
  | asking _ _ => rw [hg] at hb; cases hb
  | slotWait _ _ => rw [hg] at hb; cases hb
  | running _ _ _ => rw [hg] at hb; cases hb

variable [DecidableEq τ]

theorem Accounted.acquireSlot {cfg : Settings} {s : State ν τ} {t : τ} {v : ν} (h : Accounted cfg s)
    (hl : s.lane t = .gotGate v) : Accounted cfg (s.acquireSlot cfg t v) := by
  obtain ⟨e, hg⟩ := h.idle (t := t) (by rw [hl]; rfl)
  have ht : t ∉ (s.globalSem cfg).waiters.tasks := by
    rw [h.slots.queue, hl, hg]
    simp [Lane.queued, GitWrite.queued]
  have hsound := h.slots.sound.acquire ht
  unfold State.acquireSlot
  split
  · rename_i sem hacq
    rw [hacq] at hsound
    obtain ⟨hws, hcredit⟩ := Semaphore.acquire_got hacq
    refine ⟨h.gates.congr (fun _ => rfl) (lane_same (by rw [hl]; rfl)) (lane_same (by rw [hl]; rfl)), ?_, ?_⟩
    · refine h.slots.move hl (lane_setLane_self _ t _) hg hg (fun u hu => lane_setLane_of_ne hu) (fun _ _ => rfl)
        hsound (fun u => ?_) ?_
      · change u ∈ sem.waiters.tasks ↔ _
        rw [hws]
        simp only [Lane.queued, GitWrite.queued, Bool.false_eq_true, or_self, and_false, or_false]
        exact ⟨fun hu => ⟨hu, fun he => ht (he ▸ hu)⟩, And.left⟩
      · exact congrArg (· + 0) hcredit
    · refine h.counters.move hl (lane_setLane_self _ t _) hg hg (fun u hu => lane_setLane_of_ne hu) (fun _ _ => rfl)
        ?_ rfl (fun _ => rfl)
      simp [State.setLane, Lane.counted]
  · rename_i sem hacq
    rw [hacq] at hsound
    obtain ⟨htasks, hcredit⟩ := Semaphore.acquire_queued hacq
    refine ⟨h.gates.congr (fun _ => rfl) (lane_same (by rw [hl]; rfl)) (lane_same (by rw [hl]; rfl)), ?_, ?_⟩
    · refine h.slots.move hl (lane_setLane_self _ t _) hg hg (fun u hu => lane_setLane_of_ne hu) (fun _ _ => rfl)
        hsound (fun u => ?_) (congrArg (· + 0 + 0) hcredit)
      change u ∈ sem.waiters.tasks ↔ _
      rw [htasks, List.mem_append, List.mem_singleton]
      simp only [Lane.queued, true_or, and_true]
      exact or_congr_left ⟨fun hu => ⟨hu, fun he => ht (he ▸ hu)⟩, And.left⟩
    · exact h.counters.move hl (lane_setLane_self _ t _) hg hg (fun u hu => lane_setLane_of_ne hu) (fun _ _ => rfl)
        rfl rfl (fun _ => rfl)

/-- Attributes that stay the same leave the account as it was. -/
theorem Accounted.relabel {cfg : Settings} {s : State ν τ} {t : τ} {l : Lane ν} (h : Accounted cfg s)
    (hawaits : l.awaits = (s.lane t).awaits) (hholds : l.holds = (s.lane t).holds)
    (hcounted : l.counted = (s.lane t).counted) (hqueued : l.queued = (s.lane t).queued)
    (hslot : l.hasSlot = (s.lane t).hasSlot) : Accounted cfg (s.setLane t l) := by
  refine ⟨h.gates.congr (fun _ => rfl) (lane_same hawaits) (lane_same hholds),
    h.slots.congr rfl (fun u => ⟨lane_same hqueued u, lane_same hslot u⟩) (fun _ => ⟨rfl, rfl⟩), ?_,
    h.counters.lifecycleWaiters, fun u hu => ?_⟩
  · simp only [lane_same hcounted]
    exact h.counters.waiters
  · rw [lane_same hcounted] at hu
    exact h.counters.sequential u hu

/-- A caller comes to its gate: it has it at once or queues. -/
theorem Accounted.comeToGate {cfg : Settings} {s : State ν τ} {t : τ} {v : ν} {e e' : Option Exit} {gate : Lock τ}
    {got : Bool} (h : Accounted cfg s) (hl : s.lane t = .outside e) (hg : s.git t = .idle e')
    (hacq : (s.gate v).acquire t = (gate, got)) :
    Accounted cfg (({ s with globalSlots := some (s.globalSem cfg), waiters := s.waiters + 1 }.setGate v gate).setLane t
      (if got then .gotGate v else .gateWait v {})) := by
  have ht : t ∉ (s.gate v).waiters.tasks := by
    rw [h.gates.queue, hl]
    simp [Lane.awaits]
  have hsound : gate.Sound := by simpa [hacq] using (h.gates.sound v).acquire ht
  refine ⟨?_, ?_, ?_⟩
  · cases got with
    | true =>
      obtain ⟨hopen, hlocked, hws⟩ := Lock.acquire_got hacq
      refine h.gates.move hl (lane_setLane_self _ t _) (fun u hu => lane_setLane_of_ne hu)
        (fun w hw => gate_setGate_of_ne hw) (Lane.at_outside v e) (Lane.at_gotGate v)
        ((gate_setGate_self _ v gate).symm ▸ hsound) (fun u => ?_) ?_ (fun _ hlock => ?_)
      · change u ∈ ((State.setGate _ v gate).gate v).waiters.tasks ↔ _
        rw [gate_setGate_self, hws]
        simp only [if_true, Lane.awaits, reduceCtorEq, and_false, or_false]
        exact ⟨fun hu => ⟨hu, fun he => ht (he ▸ hu)⟩, And.left⟩
      · change ((State.setGate _ v gate).gate v).locked = true ↔ _
        rw [gate_setGate_self, hlocked]
        simp [Lane.holds]
      · rw [hopen] at hlock
        cases hlock
    | false =>
      obtain ⟨hlocked, hws⟩ := Lock.acquire_queued hacq
      refine h.gates.move hl (lane_setLane_self _ t _) (fun u hu => lane_setLane_of_ne hu)
        (fun w hw => gate_setGate_of_ne hw) (Lane.at_outside v e) (Lane.at_gateWait v {})
        ((gate_setGate_self _ v gate).symm ▸ hsound) (fun u => ?_) ?_ (fun hh => ?_)
      · change u ∈ ((State.setGate _ v gate).gate v).waiters.tasks ↔ _
        rw [gate_setGate_self, hws, List.mem_append, List.mem_singleton]
        simp only [Bool.false_eq_true, if_false, Lane.awaits, and_true]
        exact or_congr_left ⟨fun hu => ⟨hu, fun he => ht (he ▸ hu)⟩, And.left⟩
      · change ((State.setGate _ v gate).gate v).locked = true ↔ _
        rw [gate_setGate_self, hlocked]
        simp [Lane.holds]
      · cases hh
  · refine h.slots.congr rfl (fun u => ⟨lane_same ?_ u, lane_same ?_ u⟩) (fun _ => ⟨rfl, rfl⟩)
    · change _ = (s.lane t).queued
      rw [hl]
      cases got <;> rfl
    · change _ = (s.lane t).hasSlot
      rw [hl]
      cases got <;> rfl
  · refine h.counters.move hl (lane_setLane_self _ t _) hg hg (fun u hu => lane_setLane_of_ne hu) (fun _ _ => rfl)
      ?_ rfl (fun _ => rfl)
    cases got <;> simp [State.setLane, State.setGate, Lane.counted]

theorem Accounted.writeLane {cfg : Settings} {s : State ν τ} {t : τ} {v : ν} {e e' : Option Exit}
    (h : Accounted cfg s) (hl : s.lane t = .outside e) (hg : s.git t = .idle e') : Accounted cfg (s.writeLane cfg t v) := by
  unfold State.writeLane
  split
  · exact h.relabel (by rw [hl]; rfl) (by rw [hl]; rfl) (by rw [hl]; rfl) (by rw [hl]; rfl) (by rw [hl]; rfl)
  · split
    · rename_i gate hacq
      exact (h.comeToGate hl hg hacq).acquireSlot (lane_setLane_self _ t _)
    · rename_i gate hacq
      exact h.comeToGate hl hg hacq

/-- A woken waiter takes its gate. -/
theorem Accounted.takeGate {cfg : Settings} {s : State ν τ} {t : τ} {v : ν} {i : Interrupt} {gate : Lock τ}
    (h : Accounted cfg s) (hl : s.lane t = .gateWait v i) (hres : (s.gate v).resume t = some (gate, true)) :
    Accounted cfg ((s.setGate v gate).setLane t (.gotGate v)) := by
  obtain ⟨e, hg⟩ := h.idle (t := t) (by rw [hl]; rfl)
  obtain ⟨hopen, hlocked⟩ := (h.gates.sound v).resume_got hres
  refine ⟨?_, ?_, ?_⟩
  · refine h.gates.move hl (lane_setLane_self _ t _) (fun u hu => lane_setLane_of_ne hu)
      (fun w hw => gate_setGate_of_ne hw) (Lane.at_gateWait v i) (Lane.at_gotGate v)
      ((gate_setGate_self _ v gate).symm ▸ (h.gates.sound v).resume hres) (fun u => ?_) ?_ (fun _ hlock => ?_)
    · change u ∈ ((State.setGate _ v gate).gate v).waiters.tasks ↔ _
      rw [gate_setGate_self, Lock.mem_tasks_of_resume hres]
      simp [Lane.awaits]
    · change ((State.setGate _ v gate).gate v).locked = true ↔ _
      rw [gate_setGate_self, hlocked]
      simp [Lane.holds]
    · rw [hopen] at hlock
      cases hlock
  · exact h.slots.congr rfl (fun u => ⟨lane_same (hl ▸ rfl) u, lane_same (hl ▸ rfl) u⟩) (fun _ => ⟨rfl, rfl⟩)
  · exact h.counters.move hl (lane_setLane_self _ t _) hg hg (fun u hu => lane_setLane_of_ne hu) (fun _ _ => rfl)
      rfl rfl (fun _ => rfl)

/-- A waiter that timed out or was cancelled goes away from its gate. -/
theorem Accounted.quitGate {cfg : Settings} {s : State ν τ} {t : τ} {v : ν} {i : Interrupt} {gate : Lock τ}
    {e : Option Exit} (h : Accounted cfg s) (hl : s.lane t = .gateWait v i)
    (hres : (s.gate v).resume t = some (gate, false)) :
    Accounted cfg (({ s with waiters := s.waiters - 1 }.setGate v gate).setLane t (.outside e)) := by
  obtain ⟨e', hg⟩ := h.idle (t := t) (by rw [hl]; rfl)
  refine ⟨?_, ?_, ?_⟩
  · refine h.gates.move hl (lane_setLane_self _ t _) (fun u hu => lane_setLane_of_ne hu)
      (fun w hw => gate_setGate_of_ne hw) (Lane.at_gateWait v i) (Lane.at_outside v e)
      ((gate_setGate_self _ v gate).symm ▸ (h.gates.sound v).resume hres) (fun u => ?_) ?_ (fun hh => ?_)
    · change u ∈ ((State.setGate _ v gate).gate v).waiters.tasks ↔ _
      rw [gate_setGate_self, Lock.mem_tasks_of_resume hres]
      simp [Lane.awaits]
    · change ((State.setGate _ v gate).gate v).locked = true ↔ _
      rw [gate_setGate_self, Lock.resume_refused hres]
      simp [Lane.holds]
    · cases hh
  · exact h.slots.congr rfl (fun u => ⟨lane_same (hl ▸ rfl) u, lane_same (hl ▸ rfl) u⟩) (fun _ => ⟨rfl, rfl⟩)
  · refine h.counters.move hl (lane_setLane_self _ t _) hg hg (fun u hu => lane_setLane_of_ne hu) (fun _ _ => rfl)
      ?_ rfl (fun hc => by cases hc)
    simp [State.setLane, State.setGate, Lane.counted]

/-- A holder gives its gate back. -/
private theorem gates_release {s u : State ν τ} {t : τ} {v : ν} {old : Lane ν} {gate : Lock τ} {e : Option Exit}
    (h : Gates s) (hl : s.lane t = old) (hold : old.holds = some v) (hat : old.At v) (hlane : u.lane = s.lane)
    (hgate : ∀ w, u.gate w = s.gate w) (hrel : (s.gate v).release = some gate) :
    Gates ((u.setGate v gate).setLane t (.outside e)) := by
  obtain ⟨_, hm⟩ := Lock.release_eq_some hrel
  have ht : t ∉ (s.gate v).waiters.tasks := by
    rw [h.queue, hl]
    intro haw
    -- a caller that holds a gate awaits none
    cases old <;> simp_all [Lane.awaits, Lane.holds]
  refine h.move hl (lane_setLane_self _ t _) (fun w hw => ?_) (fun w hw => ?_) hat (Lane.at_outside v e)
    ((gate_setGate_self u v gate).symm ▸ (h.sound v).release hrel) (fun w => ?_) ?_ (fun hh => ?_)
  · rw [lane_setLane_of_ne hw]
    exact congrFun hlane w
  · change (u.setGate v gate).gate w = _
    rw [gate_setGate_of_ne hw, hgate]
  · change w ∈ ((u.setGate v gate).gate v).waiters.tasks ↔ _
    rw [gate_setGate_self, hm, Waiters.tasks_grantFirst]
    simp only [Lane.awaits, reduceCtorEq, and_false, or_false]
    exact ⟨fun hw => ⟨hw, fun he => ht (he ▸ hw)⟩, And.left⟩
  · change ((u.setGate v gate).gate v).locked = true ↔ _
    rw [gate_setGate_self, hm, hold]
    simp [Lane.holds]
  · cases hh

/-- A woken waiter takes its slot. -/
theorem Accounted.takeSlot {cfg : Settings} {s : State ν τ} {t : τ} {v : ν} {i : Interrupt} {sem : Semaphore τ}
    {held : τ → Bool} {token : Bool} (h : Accounted cfg s) (hl : s.lane t = .slotWait v i)
    (hres : (s.globalSem cfg).resume t = some (sem, true)) :
    Accounted cfg ({ s with globalSlots := some sem, waiters := s.waiters - 1, slotHeld := held }.setLane t
      (.inside v token)) := by
  obtain ⟨e, hg⟩ := h.idle (t := t) (by rw [hl]; rfl)
  obtain ⟨hsound, htasks, hcredit⟩ := h.slots.sound.resume hres
  refine ⟨h.gates.congr (fun _ => rfl) (lane_same (hl ▸ rfl)) (lane_same (hl ▸ rfl)), ?_, ?_⟩
  · refine h.slots.move hl (lane_setLane_self _ t _) hg hg (fun u hu => lane_setLane_of_ne hu) (fun _ _ => rfl)
      hsound (fun u => ?_) (congrArg (· + 0) hcredit)
    change u ∈ sem.waiters.tasks ↔ _
    rw [htasks]
    simp [Lane.queued, GitWrite.queued]
  · refine h.counters.move hl (lane_setLane_self _ t _) hg hg (fun u hu => lane_setLane_of_ne hu) (fun _ _ => rfl)
      ?_ rfl (fun hc => by cases hc)
    simp [State.setLane, Lane.counted]

/-- A waiter that timed out or was cancelled goes away from the slots and gives its gate back. -/
theorem Accounted.quitSlot {cfg : Settings} {s : State ν τ} {t : τ} {v : ν} {i : Interrupt} {sem : Semaphore τ}
    {gate : Lock τ} {e : Option Exit} (h : Accounted cfg s) (hl : s.lane t = .slotWait v i)
    (hres : (s.globalSem cfg).resume t = some (sem, false)) (hrel : (s.gate v).release = some gate) :
    Accounted cfg (({ s with globalSlots := some sem, waiters := s.waiters - 1 }.setGate v gate).setLane t
      (.outside e)) := by
  obtain ⟨e', hg⟩ := h.idle (t := t) (by rw [hl]; rfl)
  obtain ⟨hsound, htasks, hcredit⟩ := h.slots.sound.resume hres
  refine ⟨gates_release h.gates hl rfl (Lane.at_slotWait v i) rfl (fun _ => rfl) hrel, ?_, ?_⟩
  · refine h.slots.move hl (lane_setLane_self _ t _) hg hg (fun u hu => lane_setLane_of_ne hu) (fun _ _ => rfl)
      hsound (fun u => ?_) (congrArg (· + 0) hcredit)
    change u ∈ sem.waiters.tasks ↔ _
    rw [htasks]
    simp [Lane.queued, GitWrite.queued]
  · refine h.counters.move hl (lane_setLane_self _ t _) hg hg (fun u hu => lane_setLane_of_ne hu) (fun _ _ => rfl)
      ?_ rfl (fun hc => by cases hc)
    simp [State.setLane, State.setGate, Lane.counted]

/-- The body is over: slot and gate go back. -/
theorem Accounted.leave {cfg : Settings} {s s' : State ν τ} {t : τ} {e : Exit} (h : Accounted cfg s)
    (hs : s.leave cfg t e = some s') : Accounted cfg s' := by
  unfold State.leave at hs
  split at hs
  · rename_i v token e' hl hg
    obtain ⟨u, hu, rfl⟩ := Option.map_eq_some_iff.mp hs
    obtain ⟨gate, hrel, rfl⟩ := Option.map_eq_some_iff.mp hu
    obtain ⟨htasks, hcredit⟩ := Semaphore.release_spec (s.globalSem cfg)
    have ht : t ∉ (s.globalSem cfg).waiters.tasks := by
      rw [h.slots.queue, hl, hg]
      simp [Lane.queued, GitWrite.queued]
    refine ⟨gates_release h.gates hl rfl (Lane.at_inside v token) rfl (fun _ => rfl) hrel, ?_, ?_⟩
    · refine h.slots.move hl (lane_setLane_self _ t _) hg hg (fun u hu => lane_setLane_of_ne hu) (fun _ _ => rfl)
        h.slots.sound.release (fun u => ?_) (congrArg (· + 0 + 0) hcredit)
      change u ∈ (s.globalSem cfg).release.waiters.tasks ↔ _
      rw [htasks]
      simp only [Lane.queued, GitWrite.queued, Bool.false_eq_true, or_self, and_false, or_false]
      exact ⟨fun hu => ⟨hu, fun he => ht (he ▸ hu)⟩, And.left⟩
    · exact h.counters.move hl (lane_setLane_self _ t _) hg hg (fun u hu => lane_setLane_of_ne hu) (fun _ _ => rfl)
        rfl rfl (fun hc => by cases hc)
  · cases hs

/-- The wait of a caller at its gate is cancelled. -/
theorem Accounted.cancelGate {cfg : Settings} {s : State ν τ} {t : τ} {v : ν} {i j : Interrupt} (h : Accounted cfg s)
    (hl : s.lane t = .gateWait v i) :
    Accounted cfg ((s.setGate v ((s.gate v).cancel t)).setLane t (.gateWait v j)) := by
  obtain ⟨e, hg⟩ := h.idle (t := t) (by rw [hl]; rfl)
  refine ⟨?_, ?_, ?_⟩
  · refine h.gates.move hl (lane_setLane_self _ t _) (fun u hu => lane_setLane_of_ne hu)
      (fun w hw => gate_setGate_of_ne hw) (Lane.at_gateWait v i) (Lane.at_gateWait v j)
      ((gate_setGate_self s v _).symm ▸ (h.gates.sound v).cancel t) (fun u => ?_) ?_ (fun hh => ?_)
    · change u ∈ ((s.setGate v _).gate v).waiters.tasks ↔ _
      rw [gate_setGate_self]
      by_cases hu : u = t
      · subst hu
        simp [Lock.cancel, h.gates.queue, hl, Lane.awaits]
      · simp [Lock.cancel, hu]
    · change ((s.setGate v _).gate v).locked = true ↔ _
      rw [gate_setGate_self]
      simp [Lock.cancel, Lane.holds]
    · cases hh
  · exact h.slots.congr rfl (fun u => ⟨lane_same (hl ▸ rfl) u, lane_same (hl ▸ rfl) u⟩) (fun _ => ⟨rfl, rfl⟩)
  · exact h.counters.move hl (lane_setLane_self _ t _) hg hg (fun u hu => lane_setLane_of_ne hu) (fun _ _ => rfl)
      rfl rfl (fun _ => rfl)

/-- Cancelling a wait for a slot moves no permit. -/
theorem Accounted.cancelSem {cfg : Settings} {s : State ν τ} (h : Accounted cfg s) (t : τ) :
    Accounted cfg { s with globalSlots := some ((s.globalSem cfg).cancel t) } := by
  refine ⟨h.gates.congr (fun _ => rfl) (fun _ => rfl) (fun _ => rfl),
    ⟨h.slots.sound.cancel t, fun u => ?_, ?_⟩, h.counters.waiters, h.counters.lifecycleWaiters, h.counters.sequential⟩
  · change u ∈ ((s.globalSem cfg).cancel t).waiters.tasks ↔ _
    rw [Semaphore.cancel, Waiters.tasks_cancel]
    exact h.slots.queue u
  · change ∃ n m, _ ∧ _ ∧ ((s.globalSem cfg).cancel t).credit + n + m = cfg.capacity
    rw [Semaphore.credit_cancel]
    exact h.slots.permits

/-- What interrupts a wait for a slot is in no account. -/
theorem Accounted.interruptSlot {cfg : Settings} {s : State ν τ} {t : τ} {v : ν} {i j : Interrupt} (h : Accounted cfg s)
    (hl : s.lane t = .slotWait v i) : Accounted cfg (s.setLane t (.slotWait v j)) :=
  h.relabel (by rw [hl]; rfl) (by rw [hl]; rfl) (by rw [hl]; rfl) (by rw [hl]; rfl) (by rw [hl]; rfl)

theorem Accounted.expire {cfg : Settings} {s s' : State ν τ} {t : τ} (h : Accounted cfg s)
    (hs : s.expire cfg t = some s') : Accounted cfg s' := by
  unfold State.expire at hs
  split at hs
  · rename_i v c hl
    cases hs
    exact h.cancelGate hl
  · rename_i v c hl
    cases hs
    exact (h.cancelSem t).interruptSlot hl
  · cases hs

end Akb.WriteLane
