import Mathlib.Data.List.Nodup
import Mathlib.Data.Set.Card

/-! Locks and semaphores of a cooperative event loop. Waiters queue in the order
they come; a waiter keeps its place until its own task runs again, and a task
may be cancelled before or after its wake-up. -/
namespace Akb.Library
variable {τ : Type*}

/-- What a waiter awaits. `revoked` is a wake-up whose task was cancelled before it ran. -/
inductive Future
  | pending
  | granted
  | cancelled
  | revoked
  deriving DecidableEq

namespace Future

def cancel : Future → Future
  | pending | cancelled => cancelled
  | granted | revoked => revoked

/-- The wake-up was delivered, whether or not its task will use it. -/
def handed : Future → Bool
  | granted | revoked => true
  | pending | cancelled => false

@[simp] theorem handed_cancel (f : Future) : f.cancel.handed = f.handed := by cases f <;> rfl

theorem cancel_ne_pending (f : Future) : f.cancel ≠ pending := by cases f <;> simp [cancel]

end Future

/-- The waiters of one lock, the first to come first. -/
abbrev Waiters (τ : Type*) := List (τ × Future)

namespace Waiters

def tasks (ws : Waiters τ) : List τ := ws.map Prod.fst

/-- Wake the first waiter if it is not done. -/
def grantFirst : Waiters τ → Waiters τ
  | (t, .pending) :: ws => (t, .granted) :: ws
  | ws => ws

/-- Wake the first waiter that is not done, if there is one. -/
def grantNext : Waiters τ → Option (Waiters τ)
  | [] => none
  | (t, .pending) :: ws => some ((t, .granted) :: ws)
  | w :: ws => (grantNext ws).map (fun vs => w :: vs)

/-- The waiters that were woken and have not run yet. -/
def woken (ws : Waiters τ) : Nat := ws.countP (fun w => w.2.handed)

section Queue
variable [DecidableEq τ]

def cancel (ws : Waiters τ) (t : τ) : Waiters τ := ws.map (fun w => if w.1 = t then (w.1, w.2.cancel) else w)

def drop (ws : Waiters τ) (t : τ) : Waiters τ := ws.filter (fun w => w.1 ≠ t)

def future? (ws : Waiters τ) (t : τ) : Option Future := (ws.find? (fun w => w.1 = t)).map Prod.snd

@[simp] theorem tasks_cancel (ws : Waiters τ) (t : τ) : (ws.cancel t).tasks = ws.tasks := by
  rw [tasks, cancel, List.map_map]
  refine List.map_congr_left fun w _ => ?_
  by_cases h : w.1 = t <;> simp [h]

theorem mem_tasks_drop {ws : Waiters τ} {t u : τ} : u ∈ (ws.drop t).tasks ↔ u ∈ ws.tasks ∧ u ≠ t := by
  simp only [tasks, drop, List.mem_map, List.mem_filter, decide_eq_true_eq]
  constructor
  · rintro ⟨w, ⟨hw, hne⟩, rfl⟩
    exact ⟨⟨w, hw, rfl⟩, hne⟩
  · rintro ⟨⟨w, hw, rfl⟩, hne⟩
    exact ⟨w, ⟨hw, hne⟩, rfl⟩

theorem nodup_tasks_drop {ws : Waiters τ} (h : ws.tasks.Nodup) (t : τ) : (ws.drop t).tasks.Nodup :=
  h.sublist (List.filter_sublist.map Prod.fst)

theorem mem_of_future? {ws : Waiters τ} {t : τ} {f : Future} (h : ws.future? t = some f) : (t, f) ∈ ws := by
  obtain ⟨⟨u, g⟩, hw, rfl⟩ := Option.map_eq_some_iff.mp h
  have hu : u = t := by simpa using List.find?_some hw
  exact hu ▸ List.mem_of_find?_eq_some hw

/-- A task that queues nowhere else is dropped with its own entry only. -/
theorem drop_of_notMem {ws : Waiters τ} {t : τ} (h : t ∉ ws.tasks) : ws.drop t = ws := by
  refine List.filter_eq_self.mpr fun w hw => decide_eq_true fun he => h ?_
  exact he ▸ List.mem_map_of_mem hw

theorem drop_cons_self {ws : Waiters τ} {t : τ} {f : Future} (h : (tasks ((t, f) :: ws)).Nodup) :
    drop ((t, f) :: ws) t = ws := by
  have ht : t ∉ tasks ws := (List.nodup_cons.mp h).1
  rw [drop, List.filter_cons_of_neg (by simp)]
  exact drop_of_notMem ht

theorem woken_cancel (ws : Waiters τ) (t : τ) : (ws.cancel t).woken = ws.woken := by
  rw [woken, woken, cancel, List.countP_map]
  congr 1
  funext w
  by_cases h : w.1 = t <;> simp [h]

theorem woken_drop {ws : Waiters τ} {t : τ} {f : Future} (hn : ws.tasks.Nodup) (h : (t, f) ∈ ws) :
    (ws.drop t).woken + (if f.handed then 1 else 0) = ws.woken := by
  induction ws with
  | nil => cases h
  | cons w ws ih =>
    obtain ⟨hw, hn'⟩ := List.nodup_cons.mp hn
    rcases List.mem_cons.mp h with rfl | h
    · rw [drop_cons_self hn, woken, woken, List.countP_cons]
    · have hne : w.1 ≠ t := fun he => hw (he ▸ List.mem_map_of_mem h)
      have hcons : drop (w :: ws) t = w :: drop ws t := List.filter_cons_of_pos (decide_eq_true hne)
      have hrest := ih hn' h
      simp only [woken] at hrest ⊢
      rw [hcons, List.countP_cons, List.countP_cons, ← hrest]
      omega

end Queue

@[simp] theorem tasks_grantFirst (ws : Waiters τ) : ws.grantFirst.tasks = ws.tasks := by
  rcases ws with _ | ⟨⟨t, f⟩, ws⟩
  · rfl
  · cases f <;> rfl

theorem grantNext_eq_none {ws : Waiters τ} : ws.grantNext = none ↔ ∀ w ∈ ws, w.2 ≠ .pending := by
  induction ws with
  | nil => simp [grantNext]
  | cons w ws ih =>
    obtain ⟨t, f⟩ := w
    cases f <;> simp [grantNext, ih]

/-- A wake-up turns one pending entry into a granted one. -/
theorem grantNext_eq_some {ws vs : Waiters τ} (h : ws.grantNext = some vs) :
    ∃ t pre post, ws = pre ++ (t, .pending) :: post ∧ vs = pre ++ (t, .granted) :: post := by
  induction ws generalizing vs with
  | nil => cases h
  | cons w ws ih =>
    obtain ⟨t, f⟩ := w
    by_cases hf : f = .pending
    · subst hf
      cases h
      exact ⟨t, [], ws, rfl, rfl⟩
    · have hstep : grantNext ((t, f) :: ws) = (grantNext ws).map (fun vs => (t, f) :: vs) := by
        cases f <;> first | rfl | exact absurd rfl hf
      rw [hstep] at h
      obtain ⟨us, hus, rfl⟩ := Option.map_eq_some_iff.mp h
      obtain ⟨u, pre, post, rfl, rfl⟩ := ih hus
      exact ⟨u, (t, f) :: pre, post, rfl, rfl⟩

end Waiters

/-- A mutual exclusion lock. -/
@[ext] structure Lock (τ : Type*) where
  locked : Bool
  waiters : Waiters τ

namespace Lock

def free : Lock τ := ⟨false, []⟩

/-- `acquire` up to its await: the lock and whether the caller has it already. -/
def acquire (l : Lock τ) (t : τ) : Lock τ × Bool :=
  if l.locked = false ∧ ∀ w ∈ l.waiters, w.2 = .cancelled then (⟨true, l.waiters⟩, true)
  else (⟨l.locked, l.waiters ++ [(t, .pending)]⟩, false)

/-- `release`, which raises on a lock that is not held. -/
def release (l : Lock τ) : Option (Lock τ) := if l.locked then some ⟨false, l.waiters.grantFirst⟩ else none

/-- No task queues twice, at most the first waiter is woken and only while the lock
is open, and an open lock never leaves its first waiter asleep. -/
structure Sound (l : Lock τ) : Prop where
  nodup : l.waiters.tasks.Nodup
  single : ∀ w ∈ l.waiters.tail, w.2.handed = false
  idle : l.locked = true → ∀ w ∈ l.waiters, w.2.handed = false
  awake : l.locked = false → ∀ w ∈ l.waiters.head?, w.2 ≠ .pending

theorem free_sound : (free : Lock τ).Sound := by
  constructor <;> simp [free, Waiters.tasks]

theorem acquire_got {l m : Lock τ} {t : τ} (h : l.acquire t = (m, true)) :
    l.locked = false ∧ m.locked = true ∧ m.waiters = l.waiters := by
  unfold acquire at h
  split at h
  · rename_i hc
    cases h
    exact ⟨hc.1, rfl, rfl⟩
  · cases h

theorem acquire_queued {l m : Lock τ} {t : τ} (h : l.acquire t = (m, false)) :
    m.locked = l.locked ∧ m.waiters.tasks = l.waiters.tasks ++ [t] := by
  unfold acquire at h
  split at h
  · cases h
  · cases h
    exact ⟨rfl, by simp [Waiters.tasks]⟩

theorem Sound.acquire {l : Lock τ} {t : τ} (h : l.Sound) (ht : t ∉ l.waiters.tasks) : (l.acquire t).1.Sound := by
  unfold Lock.acquire
  split
  · rename_i hc
    have hnone (w : τ × Future) (hw : w ∈ l.waiters) : w.2.handed = false := by rw [hc.2 w hw]; rfl
    exact ⟨h.nodup, h.single, fun _ => hnone, by simp⟩
  · rename_i hc
    refine ⟨?_, ?_, ?_, ?_⟩
    · simpa [Waiters.tasks, List.nodup_append] using ⟨h.nodup, fun a f hf he => ht (he ▸ List.mem_map_of_mem hf)⟩
    · intro w hw
      cases hl : l.waiters with
      | nil => simp [hl] at hw
      | cons v vs =>
        rw [hl, List.cons_append, List.tail_cons, List.mem_append, List.mem_singleton] at hw
        rcases hw with hw | rfl
        · exact h.single w (by rwa [hl])
        · rfl
    · intro hlocked w hw
      rcases List.mem_append.mp hw with hw | hw
      · exact h.idle hlocked w hw
      · rw [List.mem_singleton.mp hw]
        rfl
    · intro hopen w hw
      cases hl : l.waiters with
      | nil => exact absurd ⟨hopen, by simp [hl]⟩ hc
      | cons v vs => exact h.awake hopen w (by simpa [hl] using hw)

theorem release_eq_some {l m : Lock τ} (h : l.release = some m) :
    l.locked = true ∧ m = ⟨false, l.waiters.grantFirst⟩ := by
  unfold release at h
  split at h
  · rename_i hl
    exact ⟨hl, by cases h; rfl⟩
  · cases h

/-- Waking the first of waiters none of whom is woken leaves an open lock sound. -/
private theorem sound_grantFirst {ws : Waiters τ} (hn : ws.tasks.Nodup) (hs : ∀ w ∈ ws.tail, w.2.handed = false) :
    Sound (⟨false, ws.grantFirst⟩ : Lock τ) := by
  refine ⟨by simpa using hn, ?_, by simp, ?_⟩
  · rcases ws with _ | ⟨⟨t, f⟩, ws⟩
    · exact hs
    · cases f <;> exact hs
  · rcases ws with _ | ⟨⟨t, f⟩, ws⟩
    · simp [Waiters.grantFirst]
    · cases f <;> simp [Waiters.grantFirst]

theorem Sound.release {l m : Lock τ} (h : l.Sound) (hm : l.release = some m) : m.Sound := by
  obtain ⟨_, rfl⟩ := release_eq_some hm
  exact sound_grantFirst h.nodup h.single

/-- A waiter that was woken is the first, and the lock is open. -/
theorem Sound.of_handed {l : Lock τ} {w : τ × Future} (h : l.Sound) (hw : w ∈ l.waiters) (hh : w.2.handed = true) :
    l.locked = false ∧ ∃ ws, l.waiters = w :: ws := by
  refine ⟨Bool.eq_false_iff.mpr fun hl => ?_, ?_⟩
  · rw [h.idle hl w hw] at hh
    cases hh
  · rcases hq : l.waiters with _ | ⟨v, vs⟩
    · rw [hq] at hw
      cases hw
    · rcases List.mem_cons.mp (hq ▸ hw) with rfl | hv
      · exact ⟨vs, rfl⟩
      · rw [h.single w (by rwa [hq])] at hh
        cases hh

section Resume
variable [DecidableEq τ]

def cancel (l : Lock τ) (t : τ) : Lock τ := ⟨l.locked, l.waiters.cancel t⟩

/-- The rest of `acquire` when the waiter runs again: whether it has the lock now,
or was cancelled. A cancelled waiter passes its wake-up on. -/
def resume (l : Lock τ) (t : τ) : Option (Lock τ × Bool) :=
  match l.waiters.future? t with
  | some .granted => some (⟨true, l.waiters.drop t⟩, true)
  | some .cancelled | some .revoked =>
    some (if l.locked then ⟨l.locked, l.waiters.drop t⟩ else ⟨l.locked, (l.waiters.drop t).grantFirst⟩, false)
  | some .pending | none => none

private theorem tail_cancel (ws : Waiters τ) (t : τ) : (ws.cancel t).tail = Waiters.cancel ws.tail t := by
  cases ws <;> rfl

private theorem handed_of_cancel {ws : Waiters τ} {t : τ} (h : ∀ w ∈ ws, w.2.handed = false) :
    ∀ w ∈ ws.cancel t, w.2.handed = false := by
  intro w hw
  obtain ⟨v, hv, rfl⟩ := List.mem_map.mp hw
  split
  · simpa using h v hv
  · exact h v hv

theorem Sound.cancel {l : Lock τ} (h : l.Sound) (t : τ) : (l.cancel t).Sound := by
  refine ⟨by simpa [Lock.cancel] using h.nodup, ?_, fun hl => handed_of_cancel (h.idle hl), ?_⟩
  · rw [Lock.cancel, tail_cancel]
    exact handed_of_cancel h.single
  · intro hl w hw
    have hawake := h.awake hl
    rcases hq : l.waiters with _ | ⟨v, vs⟩
    · simp [Lock.cancel, Waiters.cancel, hq] at hw
    · have hv : v.2 ≠ .pending := hawake v (by simp [hq])
      have hw' : (if v.1 = t then (v.1, v.2.cancel) else v) = w := by
        simpa [Lock.cancel, Waiters.cancel, hq] using hw
      rw [← hw']
      split
      · exact Future.cancel_ne_pending _
      · exact hv

private theorem tail_drop {ws : Waiters τ} (hn : ws.tasks.Nodup) (t : τ) (w : τ × Future) (hw : w ∈ (ws.drop t).tail) :
    w ∈ ws.tail := by
  rcases ws with _ | ⟨⟨u, f⟩, ws⟩
  · exact hw
  · by_cases hu : u = t
    · subst hu
      rw [Waiters.drop_cons_self hn] at hw
      exact List.mem_of_mem_tail hw
    · rw [Waiters.drop, List.filter_cons_of_pos (by simpa using hu)] at hw
      exact List.mem_of_mem_filter hw

theorem resume_cases {l m : Lock τ} {t : τ} {got : Bool} (h : l.resume t = some (m, got)) :
    (l.waiters.future? t = some .granted ∧ got = true ∧ m = ⟨true, l.waiters.drop t⟩) ∨
    ((l.waiters.future? t = some .cancelled ∨ l.waiters.future? t = some .revoked) ∧ got = false ∧
      m.locked = l.locked ∧ m.waiters = if l.locked then l.waiters.drop t else (l.waiters.drop t).grantFirst) := by
  unfold resume at h
  split at h
  · rename_i hf
    cases h
    exact Or.inl ⟨hf, rfl, rfl⟩
  · rename_i hf
    cases h
    refine Or.inr ⟨Or.inl hf, rfl, ?_⟩
    cases l.locked <;> exact ⟨rfl, rfl⟩
  · rename_i hf
    cases h
    refine Or.inr ⟨Or.inr hf, rfl, ?_⟩
    cases l.locked <;> exact ⟨rfl, rfl⟩
  · cases h
  · cases h

theorem Sound.resume {l m : Lock τ} {t : τ} {got : Bool} (h : l.Sound) (hm : l.resume t = some (m, got)) : m.Sound := by
  rcases resume_cases hm with ⟨hf, _, rfl⟩ | ⟨_, _, hlock, hws⟩
  · obtain ⟨_, ws, hq⟩ := h.of_handed (Waiters.mem_of_future? hf) rfl
    have hdrop : l.waiters.drop t = ws := hq ▸ Waiters.drop_cons_self (hq ▸ h.nodup)
    have hnone : ∀ w ∈ ws, w.2.handed = false := by simpa [hq] using h.single
    refine ⟨Waiters.nodup_tasks_drop h.nodup t, ?_, fun _ => hdrop ▸ hnone, by simp⟩
    exact fun w hw => hnone w (hdrop ▸ List.mem_of_mem_tail hw)
  · have hn := Waiters.nodup_tasks_drop h.nodup t
    have hs : ∀ w ∈ (l.waiters.drop t).tail, w.2.handed = false :=
      fun w hw => h.single w (tail_drop h.nodup t w hw)
    obtain ⟨locked, waiters⟩ := m
    cases hl : l.locked with
    | false =>
      simp only [hl, Bool.false_eq_true, if_false] at hlock hws
      subst hlock hws
      exact sound_grantFirst hn hs
    | true =>
      simp only [hl, if_true] at hlock hws
      subst hlock hws
      exact ⟨hn, hs, fun _ w hw => h.idle hl w (List.mem_of_mem_filter hw), by simp⟩

theorem mem_tasks_of_resume {l m : Lock τ} {t u : τ} {got : Bool} (h : l.resume t = some (m, got)) :
    u ∈ m.waiters.tasks ↔ u ∈ l.waiters.tasks ∧ u ≠ t := by
  rcases resume_cases h with ⟨_, _, rfl⟩ | ⟨_, _, _, hws⟩
  · exact Waiters.mem_tasks_drop
  · rw [hws]
    split
    · exact Waiters.mem_tasks_drop
    · rw [Waiters.tasks_grantFirst]
      exact Waiters.mem_tasks_drop

theorem Sound.resume_got {l m : Lock τ} {t : τ} (h : l.Sound) (hm : l.resume t = some (m, true)) :
    l.locked = false ∧ m.locked = true := by
  rcases resume_cases hm with ⟨hf, _, rfl⟩ | ⟨_, hgot, _⟩
  · exact ⟨(h.of_handed (Waiters.mem_of_future? hf) rfl).1, rfl⟩
  · cases hgot

theorem resume_refused {l m : Lock τ} {t : τ} (h : l.resume t = some (m, false)) : m.locked = l.locked := by
  rcases resume_cases h with ⟨_, hgot, _⟩ | ⟨_, _, hlock, _⟩
  · cases hgot
  · exact hlock

end Resume
end Lock

/-- A counting semaphore. -/
@[ext] structure Semaphore (τ : Type*) where
  value : Nat
  waiters : Waiters τ

namespace Semaphore

/-- Nothing can be acquired at once: no permit is left, or somebody came before. -/
def Busy (s : Semaphore τ) : Prop := s.value = 0 ∨ ∃ w ∈ s.waiters, w.2 ≠ .cancelled

instance (s : Semaphore τ) : Decidable s.Busy := inferInstanceAs (Decidable (_ ∨ _))

def acquire (s : Semaphore τ) (t : τ) : Semaphore τ × Bool :=
  if s.Busy then (⟨s.value, s.waiters ++ [(t, .pending)]⟩, false) else (⟨s.value - 1, s.waiters⟩, true)

/-- Hand one permit to the first waiter that is not done; `none` if there is no one to wake. -/
def wakeNext (s : Semaphore τ) : Option (Semaphore τ) := s.waiters.grantNext.map (fun ws => ⟨s.value - 1, ws⟩)

def release (s : Semaphore τ) : Semaphore τ :=
  (wakeNext ⟨s.value + 1, s.waiters⟩).getD ⟨s.value + 1, s.waiters⟩

/-- Wake as many waiters as there are permits for them. -/
def wakeAll : (value : Nat) → Waiters τ → Semaphore τ
  | 0, ws => ⟨0, ws⟩
  | n + 1, ws => (ws.grantNext).elim ⟨n + 1, ws⟩ (fun vs => wakeAll n vs)

section Resume
variable [DecidableEq τ]

def cancel (s : Semaphore τ) (t : τ) : Semaphore τ := ⟨s.value, s.waiters.cancel t⟩

/-- The rest of `acquire` when the waiter runs again: whether it has a permit now,
or was cancelled and gave back the permit it was handed. -/
def resume (s : Semaphore τ) (t : τ) : Option (Semaphore τ × Bool) :=
  match s.waiters.future? t with
  | some .granted => some (wakeAll s.value (s.waiters.drop t), true)
  | some .cancelled => some (wakeAll s.value (s.waiters.drop t), false)
  | some .revoked => some (wakeAll (s.value + 1) (s.waiters.drop t), false)
  | some .pending | none => none

end Resume

/-- The permits nobody uses: the free ones and those handed to a waiter that has not run yet. -/
def credit (s : Semaphore τ) : Nat := s.value + s.waiters.woken

/-- No task queues twice, and no permit stays free while everybody sleeps. -/
structure Sound (s : Semaphore τ) : Prop where
  nodup : s.waiters.tasks.Nodup
  awake : 0 < s.value → (∃ w ∈ s.waiters, w.2 = .pending) → ∃ w ∈ s.waiters, w.2 ≠ .pending

theorem fresh_sound (n : Nat) : (⟨n, []⟩ : Semaphore τ).Sound := by
  constructor <;> simp [Waiters.tasks]

theorem acquire_got {s m : Semaphore τ} {t : τ} (h : s.acquire t = (m, true)) :
    m.waiters = s.waiters ∧ m.credit + 1 = s.credit := by
  unfold acquire at h
  split at h
  · cases h
  · rename_i hb
    cases h
    rw [Busy, not_or] at hb
    exact ⟨rfl, by simp only [credit]; omega⟩

theorem acquire_queued {s m : Semaphore τ} {t : τ} (h : s.acquire t = (m, false)) :
    m.waiters.tasks = s.waiters.tasks ++ [t] ∧ m.credit = s.credit := by
  unfold acquire at h
  split at h
  · cases h
    exact ⟨by simp [Waiters.tasks], by simp [credit, Waiters.woken, Future.handed]⟩
  · cases h

theorem Sound.acquire {s : Semaphore τ} {t : τ} (h : s.Sound) (ht : t ∉ s.waiters.tasks) : (s.acquire t).1.Sound := by
  unfold Semaphore.acquire
  split
  · rename_i hb
    refine ⟨?_, fun hpos _ => ?_⟩
    · simpa [Waiters.tasks, List.nodup_append] using ⟨h.nodup, fun a f hf he => ht (he ▸ List.mem_map_of_mem hf)⟩
    · -- somebody came before: that waiter is done, or another one is
      obtain ⟨w, hw, _⟩ := hb.resolve_left (by simpa using Nat.ne_of_gt hpos)
      obtain ⟨v, hv, hdone⟩ : ∃ v ∈ s.waiters, v.2 ≠ .pending := by
        by_cases hp : w.2 = .pending
        · exact h.awake hpos ⟨w, hw, hp⟩
        · exact ⟨w, hw, hp⟩
      exact ⟨v, List.mem_append_left _ hv, hdone⟩
  · rename_i hb
    refine ⟨h.nodup, fun _ ⟨w, hw, hp⟩ => absurd (Or.inr ⟨w, hw, ?_⟩) hb⟩
    rw [hp]
    exact Future.noConfusion

theorem wakeNext_eq_some {s m : Semaphore τ} (h : s.wakeNext = some m) :
    m.value = s.value - 1 ∧ m.waiters.tasks = s.waiters.tasks ∧ m.waiters.woken = s.waiters.woken + 1 ∧
      ∃ w ∈ m.waiters, w.2 ≠ .pending := by
  obtain ⟨ws, hws, rfl⟩ := Option.map_eq_some_iff.mp h
  obtain ⟨t, pre, post, hs, rfl⟩ := Waiters.grantNext_eq_some hws
  refine ⟨rfl, by simp [hs, Waiters.tasks], ?_, (t, .granted), by simp, by simp⟩
  simp only [hs, Waiters.woken, List.countP_append, List.countP_cons, Future.handed]
  simp
  omega

theorem release_spec (s : Semaphore τ) :
    s.release.waiters.tasks = s.waiters.tasks ∧ s.release.credit = s.credit + 1 := by
  cases hn : wakeNext ⟨s.value + 1, s.waiters⟩ with
  | none =>
    rw [release, hn]
    exact ⟨rfl, by simp only [Option.getD_none, credit]; omega⟩
  | some m =>
    obtain ⟨hv, ht, hw, _⟩ := wakeNext_eq_some hn
    rw [release, hn]
    exact ⟨ht, by simp only [Option.getD_some, credit, hv, hw]; omega⟩

theorem Sound.release {s : Semaphore τ} (h : s.Sound) : s.release.Sound := by
  refine ⟨(release_spec s).1 ▸ h.nodup, ?_⟩
  cases hn : wakeNext ⟨s.value + 1, s.waiters⟩ with
  | none =>
    rw [Semaphore.release, hn]
    rintro _ ⟨w, hw, hp⟩
    exact absurd hp (Waiters.grantNext_eq_none.mp (Option.map_eq_none_iff.mp hn) w hw)
  | some m =>
    rw [Semaphore.release, hn]
    exact fun _ _ => (wakeNext_eq_some hn).2.2.2

theorem wakeAll_spec (n : Nat) (ws : Waiters τ) :
    (wakeAll n ws).waiters.tasks = ws.tasks ∧ (wakeAll n ws).credit = n + ws.woken ∧
      (0 < (wakeAll n ws).value → ∀ w ∈ (wakeAll n ws).waiters, w.2 ≠ .pending) := by
  induction n generalizing ws with
  | zero => exact ⟨rfl, rfl, fun h => absurd h (Nat.lt_irrefl 0)⟩
  | succ n ih =>
    cases hg : ws.grantNext with
    | none =>
      rw [wakeAll, hg]
      exact ⟨rfl, rfl, fun _ => Waiters.grantNext_eq_none.mp hg⟩
    | some vs =>
      have hnext : wakeNext ⟨n + 1, ws⟩ = some ⟨n, vs⟩ := by rw [wakeNext, hg]; rfl
      obtain ⟨_, ht, hw, _⟩ := wakeNext_eq_some hnext
      change vs.woken = ws.woken + 1 at hw
      obtain ⟨iht, ihc, ihp⟩ := ih vs
      rw [wakeAll, hg, Option.elim_some]
      exact ⟨iht.trans ht, by rw [ihc, hw]; omega, ihp⟩

theorem wakeAll_sound {n : Nat} {ws : Waiters τ} (h : ws.tasks.Nodup) : (wakeAll n ws).Sound := by
  obtain ⟨ht, _, hp⟩ := wakeAll_spec n ws
  exact ⟨ht ▸ h, fun hpos ⟨w, hw, he⟩ => absurd he (hp hpos w hw)⟩

section Queue
variable [DecidableEq τ]

theorem credit_cancel (s : Semaphore τ) (t : τ) : (s.cancel t).credit = s.credit := by
  rw [credit, credit, cancel, Waiters.woken_cancel]

theorem Sound.cancel {s : Semaphore τ} (h : s.Sound) (t : τ) : (s.cancel t).Sound := by
  refine ⟨by simpa [Semaphore.cancel] using h.nodup, fun hpos ⟨w, hw, hp⟩ => ?_⟩
  have hold : ∃ w ∈ s.waiters, w.2 = .pending := by
    obtain ⟨v, hv, rfl⟩ := List.mem_map.mp hw
    refine ⟨v, hv, ?_⟩
    split at hp
    · exact absurd hp (Future.cancel_ne_pending _)
    · exact hp
  obtain ⟨v, hv, hdone⟩ := h.awake hpos hold
  refine ⟨_, List.mem_map_of_mem hv, ?_⟩
  split
  · exact Future.cancel_ne_pending _
  · exact hdone

theorem Sound.resume {s m : Semaphore τ} {t : τ} {got : Bool} (h : s.Sound) (hm : s.resume t = some (m, got)) :
    m.Sound ∧ (∀ u, u ∈ m.waiters.tasks ↔ u ∈ s.waiters.tasks ∧ u ≠ t) ∧
      m.credit + (if got then 1 else 0) = s.credit := by
  have hn := Waiters.nodup_tasks_drop h.nodup t
  have hwoken {f : Future} (hf : s.waiters.future? t = some f) := Waiters.woken_drop h.nodup (Waiters.mem_of_future? hf)
  unfold Semaphore.resume at hm
  split at hm
  · rename_i hf
    cases hm
    obtain ⟨ht, hc, _⟩ := wakeAll_spec s.value (s.waiters.drop t)
    refine ⟨wakeAll_sound hn, fun u => ht ▸ Waiters.mem_tasks_drop, ?_⟩
    rw [hc, credit, ← hwoken hf]
    rfl
  · rename_i hf
    cases hm
    obtain ⟨ht, hc, _⟩ := wakeAll_spec s.value (s.waiters.drop t)
    refine ⟨wakeAll_sound hn, fun u => ht ▸ Waiters.mem_tasks_drop, ?_⟩
    rw [hc, credit, ← hwoken hf]
    rfl
  · rename_i hf
    cases hm
    obtain ⟨ht, hc, _⟩ := wakeAll_spec (s.value + 1) (s.waiters.drop t)
    refine ⟨wakeAll_sound hn, fun u => ht ▸ Waiters.mem_tasks_drop, ?_⟩
    rw [hc, credit, ← hwoken hf]
    simp only [Future.handed, if_true, Bool.false_eq_true, if_false]
    omega
  · cases hm
  · cases hm

end Queue
end Semaphore
end Akb.Library
