import Akb.Library.Tally
import Akb.WriteLane.Lane

/-! What a gate, the slots and the two counters say about the callers. -/
namespace Akb.WriteLane
open Akb.Library
variable {ν τ : Type*}

namespace Lane

/-- The gate the caller queues for. -/
def awaits : Lane ν → Option ν
  | gateWait v _ => some v
  | outside _ | gotGate _ | slotWait _ _ | inside _ _ => none

/-- The gate the caller holds. -/
def holds : Lane ν → Option ν
  | gotGate v | slotWait v _ | inside v _ => some v
  | outside _ | gateWait _ _ => none

/-- Inside the admission wait. -/
def counted : Lane ν → Bool
  | gateWait _ _ | gotGate _ | slotWait _ _ => true
  | outside _ | inside _ _ => false

def queued : Lane ν → Bool
  | slotWait _ _ => true
  | outside _ | gateWait _ _ | gotGate _ | inside _ _ => false

def hasSlot : Lane ν → Bool
  | inside _ _ => true
  | outside _ | gateWait _ _ | gotGate _ | slotWait _ _ => false

/-- Concerned with no gate but this one. -/
def At (v : ν) (l : Lane ν) : Prop := ∀ w, w ≠ v → l.awaits ≠ some w ∧ l.holds ≠ some w

end Lane

namespace GitWrite

def counted : GitWrite → Bool
  | asking _ _ | slotWait _ _ => true
  | idle _ | running _ _ _ => false

def queued : GitWrite → Bool
  | slotWait _ _ => true
  | idle _ | asking _ _ | running _ _ _ => false

/-- Runs on a slot of its own. -/
def hasSlot : GitWrite → Bool
  | running own _ _ => own
  | idle _ | asking _ _ | slotWait _ _ => false

def busy : GitWrite → Bool
  | idle _ => false
  | asking _ _ | slotWait _ _ | running _ _ _ => true

end GitWrite

section Frames
variable [DecidableEq ν]

theorem gate_setGate_self (s : State ν τ) (v : ν) (l : Lock τ) : (s.setGate v l).gate v = l := by
  have hself : (s.vaultGates.upsert (v, l)).get? v = some (v, l) := Table.get?_upsert_self _ (v, l)
  rw [State.gate, State.setGate, hself]
  rfl

theorem gate_setGate_of_ne {s : State ν τ} {v w : ν} {l : Lock τ} (h : w ≠ v) : (s.setGate v l).gate w = s.gate w := by
  rw [State.gate, State.setGate, Table.get?_upsert_of_ne h]
  rfl

end Frames

section Callers
variable [DecidableEq τ]

@[simp] theorem lane_setLane_self (s : State ν τ) (t : τ) (l : Lane ν) : (s.setLane t l).lane t = l := by
  simp [State.setLane]

theorem lane_setLane_of_ne {s : State ν τ} {t u : τ} {l : Lane ν} (h : u ≠ t) : (s.setLane t l).lane u = s.lane u := by
  simp [State.setLane, h]

@[simp] theorem git_setGit_self (s : State ν τ) (t : τ) (g : GitWrite) : (s.setGit t g).git t = g := by
  simp [State.setGit]

theorem git_setGit_of_ne {s : State ν τ} {t u : τ} {g : GitWrite} (h : u ≠ t) : (s.setGit t g).git u = s.git u := by
  simp [State.setGit, h]

end Callers

section Gates
variable [DecidableEq ν]

/-- Each gate is locked by its one holder and queues the callers that await it. -/
structure Gates (s : State ν τ) : Prop where
  sound : ∀ v, (s.gate v).Sound
  queue : ∀ v t, t ∈ (s.gate v).waiters.tasks ↔ (s.lane t).awaits = some v
  held : ∀ v, (s.gate v).locked = true ↔ ∃ t, (s.lane t).holds = some v
  single : ∀ v t u, (s.lane t).holds = some v → (s.lane u).holds = some v → t = u

theorem Gates.congr {s s' : State ν τ} (h : Gates s) (hgate : ∀ v, s'.gate v = s.gate v)
    (hawaits : ∀ t, (s'.lane t).awaits = (s.lane t).awaits) (hholds : ∀ t, (s'.lane t).holds = (s.lane t).holds) :
    Gates s' := by
  refine ⟨fun v => hgate v ▸ h.sound v, fun v t => ?_, fun v => ?_, fun v t u => ?_⟩
  · rw [hgate, hawaits, h.queue]
  · simp only [hgate, hholds, h.held]
  · rw [hholds, hholds]
    exact h.single v t u

/-- One caller moves at one gate. -/
theorem Gates.move {s s' : State ν τ} {t : τ} {v : ν} {old new : Lane ν} (h : Gates s) (hold : s.lane t = old)
    (hnew : s'.lane t = new) (hlane : ∀ u, u ≠ t → s'.lane u = s.lane u) (hframe : ∀ w, w ≠ v → s'.gate w = s.gate w)
    (hold_at : old.At v) (hnew_at : new.At v) (hsound : (s'.gate v).Sound)
    (htasks : ∀ u, u ∈ (s'.gate v).waiters.tasks ↔
      (u ∈ (s.gate v).waiters.tasks ∧ u ≠ t) ∨ (u = t ∧ new.awaits = some v))
    (hlock : (s'.gate v).locked = true ↔ new.holds = some v ∨ ((s.gate v).locked = true ∧ old.holds ≠ some v))
    (hfree : new.holds = some v → (s.gate v).locked = true → old.holds = some v) : Gates s' := by
  subst hold hnew
  -- the other gates see the same callers
  have hother (w : ν) (hw : w ≠ v) (u : τ) : ((s'.lane u).awaits = some w ↔ (s.lane u).awaits = some w) ∧
      ((s'.lane u).holds = some w ↔ (s.lane u).holds = some w) := by
    by_cases hu : u = t
    · rw [hu]
      exact ⟨iff_of_false (hnew_at w hw).1 (hold_at w hw).1, iff_of_false (hnew_at w hw).2 (hold_at w hw).2⟩
    · rw [hlane u hu]
      exact ⟨Iff.rfl, Iff.rfl⟩
  -- nobody but the caller holds a gate it takes
  have halone (hn : (s'.lane t).holds = some v) (u : τ) (hu : (s.lane u).holds = some v) : u = t :=
    h.single v u t hu (hfree hn ((h.held v).mpr ⟨u, hu⟩))
  refine ⟨fun w => ?_, fun w u => ?_, fun w => ?_, fun w a b ha hb => ?_⟩
  · by_cases hw : w = v
    · exact hw ▸ hsound
    · exact hframe w hw ▸ h.sound w
  · by_cases hw : w = v
    · subst hw
      rw [htasks, h.queue]
      by_cases hu : u = t
      · simp [hu]
      · simp [hu, hlane u hu]
    · rw [hframe w hw, h.queue, (hother w hw u).1]
  · by_cases hw : w = v
    · subst hw
      rw [hlock]
      constructor
      · rintro (hn | ⟨hl, hne⟩)
        · exact ⟨t, hn⟩
        · obtain ⟨u, hu⟩ := (h.held w).mp hl
          have hut : u ≠ t := fun he => hne (he ▸ hu)
          exact ⟨u, hlane u hut ▸ hu⟩
      · rintro ⟨u, hu⟩
        by_cases hut : u = t
        · exact Or.inl (hut ▸ hu)
        · rw [hlane u hut] at hu
          exact Or.inr ⟨(h.held w).mpr ⟨u, hu⟩, fun ht => hut (h.single w u t hu ht)⟩
    · rw [hframe w hw, h.held]
      exact exists_congr fun u => ((hother w hw u).2).symm
  · by_cases hw : w = v
    · subst hw
      by_cases ha' : a = t
      · by_cases hb' : b = t
        · rw [ha', hb']
        · rw [hlane b hb'] at hb
          exact absurd (halone (ha' ▸ ha) b hb) hb'
      · by_cases hb' : b = t
        · rw [hlane a ha'] at ha
          exact absurd (halone (hb' ▸ hb) a ha) ha'
        · rw [hlane a ha'] at ha
          rw [hlane b hb'] at hb
          exact h.single w a b ha hb
    · exact h.single w a b ((hother w hw a).2.mp ha) ((hother w hw b).2.mp hb)

end Gates

section Slots
variable [DecidableEq τ]

/-- Each permit is free, on its way to a waiter, or used by one caller. -/
structure Slots (cfg : Settings) (s : State ν τ) : Prop where
  sound : (s.globalSem cfg).Sound
  queue : ∀ t, t ∈ (s.globalSem cfg).waiters.tasks ↔ (s.lane t).queued = true ∨ (s.git t).queued = true
  permits : ∃ n m, Tally (fun t => (s.lane t).hasSlot) n ∧ Tally (fun t => (s.git t).hasSlot) m ∧
    (s.globalSem cfg).credit + n + m = cfg.capacity

omit [DecidableEq τ] in
theorem Slots.congr {cfg : Settings} {s s' : State ν τ} (h : Slots cfg s) (hsem : s'.globalSem cfg = s.globalSem cfg)
    (hlane : ∀ t, (s'.lane t).queued = (s.lane t).queued ∧ (s'.lane t).hasSlot = (s.lane t).hasSlot)
    (hgit : ∀ t, (s'.git t).queued = (s.git t).queued ∧ (s'.git t).hasSlot = (s.git t).hasSlot) : Slots cfg s' := by
  refine ⟨hsem ▸ h.sound, fun t => ?_, ?_⟩
  · rw [hsem, h.queue, (hlane t).1, (hgit t).1]
  · simp only [hsem, fun t => (hlane t).2, fun t => (hgit t).2]
    exact h.permits

/-- One caller moves at the slots. -/
theorem Slots.move {cfg : Settings} {s s' : State ν τ} {t : τ} {old new : Lane ν} {gold gnew : GitWrite}
    (h : Slots cfg s) (hold : s.lane t = old) (hnew : s'.lane t = new) (hgold : s.git t = gold) (hgnew : s'.git t = gnew)
    (hlane : ∀ u, u ≠ t → s'.lane u = s.lane u) (hgit : ∀ u, u ≠ t → s'.git u = s.git u)
    (hsound : (s'.globalSem cfg).Sound)
    (htasks : ∀ u, u ∈ (s'.globalSem cfg).waiters.tasks ↔
      (u ∈ (s.globalSem cfg).waiters.tasks ∧ u ≠ t) ∨ (u = t ∧ (new.queued = true ∨ gnew.queued = true)))
    (hcredit : (s'.globalSem cfg).credit + new.hasSlot.toNat + gnew.hasSlot.toNat =
      (s.globalSem cfg).credit + old.hasSlot.toNat + gold.hasSlot.toNat) : Slots cfg s' := by
  subst hold hnew hgold hgnew
  refine ⟨hsound, fun u => ?_, ?_⟩
  · rw [htasks, h.queue]
    by_cases hu : u = t
    · simp [hu]
    · simp [hu, hlane u hu, hgit u hu]
  · obtain ⟨n, m, hn, hm, hsum⟩ := h.permits
    have hle (f : τ → Bool) (k : Nat) (hk : Tally f k) : (f t).toNat ≤ k := by
      cases hf : f t with
      | false => exact Nat.zero_le k
      | true => exact hk.pos hf
    have hln := hle _ _ hn
    have hlm := hle _ _ hm
    refine ⟨n + (s'.lane t).hasSlot.toNat - (s.lane t).hasSlot.toNat,
      m + (s'.git t).hasSlot.toNat - (s.git t).hasSlot.toNat,
      hn.move t (fun u hu => by rw [hlane u hu]) (by omega), hm.move t (fun u hu => by rw [hgit u hu]) (by omega), ?_⟩
    omega

end Slots

section Counters
variable [DecidableEq τ]

/-- The counters count the callers inside the admission wait and the git writes that
wait for a slot of their own; a caller never does both. -/
structure Counters (s : State ν τ) : Prop where
  waiters : ∃ n : Nat, Tally (fun t => (s.lane t).counted) n ∧ s.waiters = n
  lifecycleWaiters : ∃ n : Nat, Tally (fun t => (s.git t).counted) n ∧ s.lifecycleWaiters = n
  sequential : ∀ t, (s.lane t).counted = true → (s.git t).busy = false

/-- A counter kept in step with one caller. -/
theorem counter_move {f g : τ → Bool} {c d : Int} {t : τ} (h : ∃ n : Nat, Tally f n ∧ c = n)
    (hrest : ∀ u, u ≠ t → g u = f u) (hcount : d + (f t).toNat = c + (g t).toNat) : ∃ n : Nat, Tally g n ∧ d = n := by
  obtain ⟨n, hn, rfl⟩ := h
  have hle : (f t).toNat ≤ n := by
    cases hf : f t with
    | false => exact Nat.zero_le n
    | true => exact hn.pos hf
  exact ⟨n + (g t).toNat - (f t).toNat, hn.move t hrest (by omega), by omega⟩

theorem Counters.move {s s' : State ν τ} {t : τ} {old new : Lane ν} {gold gnew : GitWrite} (h : Counters s)
    (hold : s.lane t = old) (hnew : s'.lane t = new) (hgold : s.git t = gold) (hgnew : s'.git t = gnew)
    (hlane : ∀ u, u ≠ t → s'.lane u = s.lane u) (hgit : ∀ u, u ≠ t → s'.git u = s.git u)
    (hwaiters : s'.waiters + old.counted.toNat = s.waiters + new.counted.toNat)
    (hlifecycle : s'.lifecycleWaiters + gold.counted.toNat = s.lifecycleWaiters + gnew.counted.toNat)
    (hseq : new.counted = true → gnew.busy = false) : Counters s' := by
  subst hold hnew hgold hgnew
  refine ⟨counter_move h.waiters (fun u hu => by rw [hlane u hu]) hwaiters,
    counter_move h.lifecycleWaiters (fun u hu => by rw [hgit u hu]) hlifecycle, fun u => ?_⟩
  by_cases hu : u = t
  · rw [hu]
    exact hseq
  · rw [hlane u hu, hgit u hu]
    exact h.sequential u

end Counters

/-- The whole account of the lane. -/
structure Accounted [DecidableEq ν] (cfg : Settings) (s : State ν τ) : Prop where
  gates : Gates s
  slots : Slots cfg s
  counters : Counters s

theorem accounted_initial [DecidableEq ν] (cfg : Settings) : Accounted cfg (State.initial : State ν τ) := by
  have hgate (v : ν) : (State.initial : State ν τ).gate v = Lock.free := rfl
  refine ⟨⟨fun v => hgate v ▸ Lock.free_sound, fun v t => ?_, fun v => ?_, fun v t u ht => ?_⟩,
    ⟨Semaphore.fresh_sound _, fun t => ?_, 0, 0, Tally.none fun t => rfl, Tally.none fun t => rfl, rfl⟩,
    ⟨⟨0, Tally.none fun t => rfl, rfl⟩, ⟨0, Tally.none fun t => rfl, rfl⟩, fun t ht => ?_⟩⟩
  · rw [hgate]
    simp [Lock.free, Waiters.tasks, State.initial, Lane.awaits]
  · rw [hgate]
    simp [Lock.free, State.initial, Lane.holds]
  · cases ht
  · simp [State.globalSem, State.initial, Waiters.tasks, Lane.queued, GitWrite.queued]
  · cases ht

end Akb.WriteLane
