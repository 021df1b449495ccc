import Akb.WriteLane.Runs

/-! What callers leave behind: nothing but the entries of the gates they came to. -/
namespace Akb.WriteLane
open Akb.Library
variable {ν τ : Type*}

/-- The caller is not in the module: it never came, was refused, gave up or is done. -/
def Gone (s : State ν τ) (t : τ) : Prop := (∃ e, s.lane t = .outside e) ∧ ∃ e, s.git t = .idle e

/-- Two states in the same place for everybody but one caller. -/
def SameOthers (t : τ) (s s' : State ν τ) : Prop := ∀ u, u ≠ t → s'.lane u = s.lane u ∧ s'.git u = s.git u

def HasGate (s : State ν τ) (v : ν) : Prop := ∃ g ∈ s.vaultGates, g.1 = v

section Acquire
variable [DecidableEq τ]

private theorem hasGate_acquireSlot {cfg : Settings} {s : State ν τ} {t : τ} {v w : ν} :
    HasGate (s.acquireSlot cfg t v) w ↔ HasGate s w := by
  unfold State.acquireSlot
  split <;> exact Iff.rfl

private theorem hasGate_acquireOwnSlot {cfg : Settings} {s : State ν τ} {t : τ} {b c : Bool} {w : ν} :
    HasGate (s.acquireOwnSlot cfg t b c) w ↔ HasGate s w := by
  unfold State.acquireOwnSlot
  split <;> exact Iff.rfl

end Acquire

variable [DecidableEq ν]

/-- The same gates, permits and counters. -/
structure SameAccount (cfg : Settings) (s s' : State ν τ) : Prop where
  locked : ∀ v, (s'.gate v).locked = (s.gate v).locked
  gateQueue : ∀ v t, t ∈ (s'.gate v).waiters.tasks ↔ t ∈ (s.gate v).waiters.tasks
  credit : (s'.globalSem cfg).credit = (s.globalSem cfg).credit
  slotQueue : ∀ t, t ∈ (s'.globalSem cfg).waiters.tasks ↔ t ∈ (s.globalSem cfg).waiters.tasks
  waiters : s'.waiters = s.waiters
  lifecycleWaiters : s'.lifecycleWaiters = s.lifecycleWaiters

omit [DecidableEq ν] in
private theorem same_of_gone {α : Type*} {s s' : State ν τ} {t : τ} {f : Lane ν → α} (h : Gone s t) (h' : Gone s' t)
    (hs : SameOthers t s s') (hf : ∀ e e', f (.outside e) = f (.outside e')) (u : τ) : f (s'.lane u) = f (s.lane u) := by
  obtain ⟨⟨e, he⟩, _⟩ := h
  obtain ⟨⟨e', he'⟩, _⟩ := h'
  by_cases hu : u = t
  · rw [hu, he, he', hf]
  · rw [(hs u hu).1]

omit [DecidableEq ν] in
private theorem same_git_of_gone {α : Type*} {s s' : State ν τ} {t : τ} {f : GitWrite → α} (h : Gone s t)
    (h' : Gone s' t) (hs : SameOthers t s s') (hf : ∀ e e', f (.idle e) = f (.idle e')) (u : τ) :
    f (s'.git u) = f (s.git u) := by
  obtain ⟨_, e, he⟩ := h
  obtain ⟨_, e', he'⟩ := h'
  by_cases hu : u = t
  · rw [hu, he, he', hf]
  · rw [(hs u hu).2]

/-- Gates, permits and counters depend on the callers that are there. -/
theorem Accounted.same {cfg : Settings} {s s' : State ν τ} {t : τ} (h : Accounted cfg s) (h' : Accounted cfg s')
    (hg : Gone s t) (hg' : Gone s' t) (hs : SameOthers t s s') : SameAccount cfg s s' := by
  have hholds := same_of_gone (f := Lane.holds) hg hg' hs fun _ _ => rfl
  have hawaits := same_of_gone (f := Lane.awaits) hg hg' hs fun _ _ => rfl
  have hqueued := same_of_gone (f := Lane.queued) hg hg' hs fun _ _ => rfl
  have hgitQueued := same_git_of_gone (f := GitWrite.queued) hg hg' hs fun _ _ => rfl
  refine ⟨fun v => ?_, fun v u => ?_, ?_, fun u => ?_, ?_, ?_⟩
  · rw [Bool.eq_iff_iff, h.gates.held, h'.gates.held]
    exact exists_congr fun u => by rw [hholds]
  · rw [h.gates.queue, h'.gates.queue, hawaits]
  · obtain ⟨n, m, hn, hm, hsum⟩ := h.slots.permits
    obtain ⟨n', m', hn', hm', hsum'⟩ := h'.slots.permits
    have hnn := hn'.unique hn (same_of_gone (f := Lane.hasSlot) hg hg' hs fun _ _ => rfl)
    have hmm := hm'.unique hm (same_git_of_gone (f := GitWrite.hasSlot) hg hg' hs fun _ _ => rfl)
    omega
  · rw [h.slots.queue, h'.slots.queue, hqueued, hgitQueued]
  · obtain ⟨n, hn, hc⟩ := h.counters.waiters
    obtain ⟨n', hn', hc'⟩ := h'.counters.waiters
    rw [hc, hc', hn'.unique hn (same_of_gone (f := Lane.counted) hg hg' hs fun _ _ => rfl)]
  · obtain ⟨n, hn, hc⟩ := h.counters.lifecycleWaiters
    obtain ⟨n', hn', hc'⟩ := h'.counters.lifecycleWaiters
    rw [hc, hc', hn'.unique hn (same_git_of_gone (f := GitWrite.counted) hg hg' hs fun _ _ => rfl)]

/-- A holder's gate is locked, so giving it back never raises. -/
theorem Accounted.releases {cfg : Settings} {s : State ν τ} {t : τ} {v : ν} (h : Accounted cfg s)
    (hl : (s.lane t).holds = some v) : ∃ gate, (s.gate v).release = some gate := by
  have hlocked := (h.gates.held v).mpr ⟨t, hl⟩
  exact ⟨_, by rw [Lock.release, if_pos hlocked]⟩

/-- Nobody waits and nobody holds anything: each gate is free, each permit is there. -/
theorem Accounted.drained {cfg : Settings} {s : State ν τ} (h : Accounted cfg s) (hg : ∀ t, Gone s t) :
    s.waiters = 0 ∧ s.lifecycleWaiters = 0 ∧ s.globalSem cfg = ⟨cfg.capacity, []⟩ ∧
      ∀ g ∈ s.vaultGates, g.2 = Lock.free := by
  have hlane (f : Lane ν → Bool) (hf : ∀ e, f (.outside e) = false) (t : τ) : f (s.lane t) = false := by
    obtain ⟨⟨e, he⟩, _⟩ := hg t
    rw [he, hf]
  have hgit (f : GitWrite → Bool) (hf : ∀ e, f (.idle e) = false) (t : τ) : f (s.git t) = false := by
    obtain ⟨_, e, he⟩ := hg t
    rw [he, hf]
  refine ⟨?_, ?_, ?_, fun g hmem => ?_⟩
  · obtain ⟨n, hn, hc⟩ := h.counters.waiters
    rw [hc, hn.eq_zero (hlane Lane.counted fun _ => rfl)]
    rfl
  · obtain ⟨n, hn, hc⟩ := h.counters.lifecycleWaiters
    rw [hc, hn.eq_zero (hgit GitWrite.counted fun _ => rfl)]
    rfl
  · obtain ⟨n, m, hn, hm, hsum⟩ := h.slots.permits
    have hempty : (s.globalSem cfg).waiters = [] := by
      refine List.eq_nil_iff_forall_not_mem.mpr fun w hw => ?_
      have hq := (h.slots.queue w.1).mp (List.mem_map_of_mem hw)
      rw [hlane Lane.queued (fun _ => rfl), hgit GitWrite.queued (fun _ => rfl)] at hq
      simp at hq
    rw [hn.eq_zero (hlane Lane.hasSlot fun _ => rfl), hm.eq_zero (hgit GitWrite.hasSlot fun _ => rfl),
      Semaphore.credit, hempty] at hsum
    exact Semaphore.ext hsum hempty
  · have hgate : s.gate g.1 = g.2 := by
      rw [State.gate, Table.get?_eq_some.mpr ⟨hmem, rfl⟩]
      rfl
    have hopen : g.2.locked = false := by
      rw [← hgate, ← Bool.not_eq_true, h.gates.held]
      rintro ⟨t, ht⟩
      obtain ⟨⟨e, he⟩, _⟩ := hg t
      rw [he] at ht
      cases ht
    have hempty : g.2.waiters = [] := by
      refine List.eq_nil_iff_forall_not_mem.mpr fun w hw => ?_
      have hq := (h.gates.queue g.1 w.1).mp (by rw [hgate]; exact List.mem_map_of_mem hw)
      obtain ⟨⟨e, he⟩, _⟩ := hg w.1
      rw [he] at hq
      cases hq
    exact Lock.ext hopen hempty

theorem hasGate_setGate {s : State ν τ} {v w : ν} {l : Lock τ} : HasGate (s.setGate v l) w ↔ w = v ∨ HasGate s w := by
  constructor
  · rintro ⟨g, hg, rfl⟩
    rcases Table.mem_upsert.mp hg with rfl | ⟨hg, _⟩
    · exact Or.inl rfl
    · exact Or.inr ⟨g, hg, rfl⟩
  · intro h
    by_cases hw : w = v
    · exact ⟨(v, l), Table.mem_upsert.mpr (Or.inl rfl), hw.symm⟩
    · obtain ⟨g, hg, rfl⟩ := h.resolve_left hw
      exact ⟨g, Table.mem_upsert.mpr (Or.inr ⟨hg, hw⟩), rfl⟩

/-- A gate that is not free has an entry. -/
theorem hasGate_of_ne {s : State ν τ} {v : ν} (h : s.gate v ≠ Lock.free) : HasGate s v := by
  cases hg : s.vaultGates.get? v with
  | none => exact absurd (by rw [State.gate, hg]; rfl) h
  | some g => exact ⟨g, Table.mem_of_get? hg⟩

private theorem hasGate_releaseGate {s u : State ν τ} {v w : ν} (h : s.releaseGate v = some u) :
    HasGate u w ↔ HasGate s w := by
  obtain ⟨gate, hrel, rfl⟩ := Option.map_eq_some_iff.mp h
  have hv : HasGate s v := by
    refine hasGate_of_ne fun hfree => ?_
    rw [hfree] at hrel
    cases hrel
  rw [hasGate_setGate]
  exact ⟨fun hw => hw.elim (fun he => he ▸ hv) id, Or.inr⟩

variable [DecidableEq τ]

private theorem hasGate_resume {s : State ν τ} {v : ν} {t : τ} {r : Lock τ × Bool}
    (h : (s.gate v).resume t = some r) : HasGate s v := by
  refine hasGate_of_ne fun hfree => ?_
  rw [hfree] at h
  cases h

private theorem hasGate_cancelGate {cfg : Settings} {s : State ν τ} {t : τ} {v w : ν} {i : Interrupt} {l : Lane ν}
    (h : Accounted cfg s) (hl : s.lane t = .gateWait v i) :
    HasGate ((s.setGate v ((s.gate v).cancel t)).setLane t l) w ↔ HasGate s w := by
  have hv : HasGate s v := by
    refine hasGate_of_ne fun hfree => ?_
    have hq := (h.gates.queue v t).mpr (by rw [hl]; rfl)
    rw [hfree] at hq
    cases hq
  change HasGate (s.setGate v _) w ↔ _
  rw [hasGate_setGate]
  exact ⟨fun hw => hw.elim (fun he => he ▸ hv) id, Or.inr⟩

private theorem hasGate_writeLane {cfg : Settings} {s : State ν τ} {t : τ} {v w : ν} :
    HasGate (s.writeLane cfg t v) w ↔ HasGate s w ∨ (v = w ∧ s.waiters < cfg.writeLaneMaxWaiters) := by
  have hset (gate : Lock τ) : HasGate
      (State.setGate { s with globalSlots := some (s.globalSem cfg), waiters := s.waiters + 1 } v gate) w ↔
      HasGate s w ∨ v = w := hasGate_setGate.trans (or_comm.trans (or_congr Iff.rfl eq_comm))
  unfold State.writeLane
  split
  · rename_i hfull
    exact ⟨Or.inl, fun h => h.resolve_right fun hv => absurd hv.2 (not_lt.mpr hfull)⟩
  · rename_i hroom
    have hroom : s.waiters < cfg.writeLaneMaxWaiters := not_le.mp hroom
    have hright : (HasGate s w ∨ v = w) ↔ HasGate s w ∨ (v = w ∧ s.waiters < cfg.writeLaneMaxWaiters) := by
      rw [and_iff_left hroom]
    split
    · rename_i gate _
      exact hasGate_acquireSlot.trans ((hset gate).trans hright)
    · rename_i gate _
      exact (hset gate).trans hright

private theorem hasGate_resumed {cfg : Settings} {s s' : State ν τ} {t : τ} {w : ν}
    (hs : s.resume cfg t = some s') : HasGate s' w ↔ HasGate s w := by
  unfold State.resume at hs
  split at hs
  · rename_i v i hl
    split at hs
    · cases hs
    · rename_i gate hres
      cases hs
      have hv := hasGate_resume hres
      refine hasGate_acquireSlot.trans (Iff.trans hasGate_setGate ?_)
      exact ⟨fun hw => hw.elim (fun he => he ▸ hv) id, Or.inr⟩
    · rename_i gate hres
      cases hs
      have hv := hasGate_resume hres
      refine Iff.trans hasGate_setGate ?_
      exact ⟨fun hw => hw.elim (fun he => he ▸ hv) id, Or.inr⟩
  · split at hs
    · cases hs
    · cases hs
      exact Iff.rfl
    · obtain ⟨u, hu, rfl⟩ := Option.map_eq_some_iff.mp hs
      have hkeep : HasGate u w ↔ _ := hasGate_releaseGate hu
      exact hkeep
  · split at hs
    · cases hs
    · cases hs
      exact Iff.rfl
    · split at hs
      · cases hs
        exact hasGate_acquireOwnSlot
      · cases hs
        exact Iff.rfl
  · cases hs

/-- Only a caller that comes past the backstop adds a gate, and no step removes one. -/
theorem hasGate_step {cfg : Settings} {s s' : State ν τ} {e : Event ν τ} {w : ν} (h : Accounted cfg s)
    (hs : step cfg s e s') :
    HasGate s' w ↔ HasGate s w ∨ ∃ t, e = .arrive t w ∧ s.waiters < cfg.writeLaneMaxWaiters := by
  cases e with
  | arrive t v =>
    rw [step, next] at hs
    split at hs
    · cases hs
      rw [hasGate_writeLane]
      simp [eq_comm]
    · cases hs
  | runGitWrite t mustComplete =>
    have hrun : HasGate (s.runGitWrite cfg t mustComplete) w ↔ HasGate s w := by
      unfold State.runGitWrite
      split
      · exact Iff.rfl
      · exact hasGate_acquireOwnSlot
    rw [step, next] at hs
    split at hs
    · cases hs
      simpa using hrun
    · cases hs
      simpa using hrun
    · cases hs
  | cancel t =>
    cases hs
    have hcancel : HasGate (s.cancel cfg t) w ↔ HasGate s w := by
      unfold State.cancel
      split
      · rename_i hl
        exact hasGate_cancelGate h hl
      all_goals exact Iff.rfl
    simpa using hcancel
  | expire t =>
    have hexpire : HasGate s' w ↔ HasGate s w := by
      rw [step, next, State.expire.eq_def] at hs
      split at hs
      · rename_i hl
        cases hs
        exact hasGate_cancelGate h hl
      · cases hs
        exact Iff.rfl
      · cases hs
    simpa using hexpire
  | resume t => simpa using hasGate_resumed hs
  | threadDone t ok =>
    have hdone : HasGate s' w ↔ HasGate s w := by
      rw [step, next, State.threadDone.eq_def] at hs
      split at hs
      · cases hs
        exact Iff.rfl
      · cases hs
        exact Iff.rfl
      · cases hs
    simpa using hdone
  | leave t e =>
    have hleave : HasGate s' w ↔ HasGate s w := by
      rw [step, next, State.leave.eq_def] at hs
      split at hs
      · obtain ⟨u, hu, rfl⟩ := Option.map_eq_some_iff.mp hs
        have hkeep : HasGate u w ↔ _ := hasGate_releaseGate hu
        exact hkeep
      · cases hs
    simpa using hleave
  | inherit child parent =>
    have hinherit : HasGate s' w ↔ HasGate s w := by
      rw [step, next] at hs
      split at hs
      · cases hs
        exact Iff.rfl
      · cases hs
    simpa using hinherit

/-- Some caller of the run came to the gate of `v`, past the backstop. -/
def CameTo (cfg : Settings) (start : State ν τ) (es : List (Event ν τ)) (v : ν) : Prop :=
  ∃ pre t post p, es = pre ++ .arrive t v :: post ∧ Run (step cfg) start pre p ∧ p.waiters < cfg.writeLaneMaxWaiters

theorem hasGate_run {cfg : Settings} {s s' : State ν τ} {es : List (Event ν τ)} {w : ν} (h : Accounted cfg s)
    (hr : Run (step cfg) s es s') : HasGate s' w ↔ HasGate s w ∨ CameTo cfg s es w := by
  induction hr with
  | nil s =>
    refine ⟨Or.inl, fun hw => hw.resolve_right ?_⟩
    rintro ⟨pre, t, post, p, hes, _⟩
    exact absurd hes.symm (by simp)
  | cons ha hr ih =>
    rw [ih (h.step ha), hasGate_step h ha, or_assoc]
    refine or_congr_right ?_
    constructor
    · rintro (⟨t, rfl, hroom⟩ | ⟨pre, t, post, p, rfl, hpre, hroom⟩)
      · exact ⟨[], t, _, _, rfl, .nil _, hroom⟩
      · exact ⟨_ :: pre, t, post, p, rfl, .cons ha hpre, hroom⟩
    · rintro ⟨pre, t, post, p, hes, hpre, hroom⟩
      cases hpre with
      | nil =>
        obtain ⟨rfl, rfl⟩ := List.cons.inj hes
        exact Or.inl ⟨t, rfl, hroom⟩
      | cons hb hpre =>
        obtain ⟨rfl, rfl⟩ := List.cons.inj hes
        cases Option.some.inj (ha.symm.trans hb)
        exact Or.inr ⟨_, t, post, p, rfl, hpre, hroom⟩

theorem Accounted.exits {cfg : Settings} {s : State ν τ} (h : Accounted cfg s) :
    (∀ t v token e x, s.lane t = .inside v token → s.git t = .idle e → ∃ s', WriteLane.step cfg s (.leave t x) s') ∧
      ∀ t v i sem, s.lane t = .slotWait v i → (s.globalSem cfg).resume t = some (sem, false) →
        ∃ s', WriteLane.step cfg s (.resume t) s' := by
  constructor
  · intro t v token e x hl hg
    obtain ⟨gate, hrel⟩ := h.releases (t := t) (v := v) (by rw [hl]; rfl)
    simp only [WriteLane.step, next, State.leave, hl, hg]
    exact ⟨_, Option.map_eq_some_iff.mpr ⟨_, Option.map_eq_some_iff.mpr ⟨gate, hrel, rfl⟩, rfl⟩⟩
  · intro t v i sem hl hres
    obtain ⟨gate, hrel⟩ := h.releases (t := t) (v := v) (by rw [hl]; rfl)
    simp only [WriteLane.step, next, State.resume, hl, hres]
    exact ⟨_, Option.map_eq_some_iff.mpr ⟨_, Option.map_eq_some_iff.mpr ⟨gate, hrel, rfl⟩, rfl⟩⟩

/-- In every run one caller holds a gate, the slots in use stay within the configured number, no exit raises,
a caller that is gone left gates, permits and counters as if it had never come, and when all are gone nothing
is left of them but the entries of the gates they came to. -/
theorem lane_leaves_gates_only (cfg : Settings) (es : List (Event ν τ)) (s : State ν τ)
    (hr : Run (step cfg) State.initial es s) :
    (∀ v t u, (s.lane t).holds = some v → (s.lane u).holds = some v → t = u) ∧
    (∃ n m, Tally (fun t => (s.lane t).hasSlot) n ∧ Tally (fun t => (s.git t).hasSlot) m ∧ n + m ≤ cfg.capacity) ∧
    ((∀ t v token e x, s.lane t = .inside v token → s.git t = .idle e → ∃ s', step cfg s (.leave t x) s') ∧
      ∀ t v i sem, s.lane t = .slotWait v i → (s.globalSem cfg).resume t = some (sem, false) →
        ∃ s', step cfg s (.resume t) s') ∧
    (∀ v, (s.gate v).locked = false → ∀ w ∈ (s.gate v).waiters.head?, w.2 ≠ .pending) ∧
    (∀ t, Gone s t → ∀ es' s', Run (step cfg) State.initial es' s' → Gone s' t → SameOthers t s s' →
      SameAccount cfg s s') ∧
    ((∀ t, Gone s t) → s.waiters = 0 ∧ s.lifecycleWaiters = 0 ∧ s.globalSem cfg = ⟨cfg.capacity, []⟩ ∧
      ∀ g ∈ s.vaultGates, g.2 = Lock.free) ∧
    ∀ v, HasGate s v ↔ CameTo cfg State.initial es v := by
  have h := accounted_of_run hr
  refine ⟨h.gates.single, ?_, h.exits, fun v => (h.gates.sound v).awake,
    fun t hg es' s' hr' hg' hs => h.same (accounted_of_run hr') hg hg' hs, h.drained, fun v => ?_⟩
  · obtain ⟨n, m, hn, hm, hsum⟩ := h.slots.permits
    exact ⟨n, m, hn, hm, by omega⟩
  · rw [hasGate_run (accounted_initial cfg) hr]
    refine or_iff_right ?_
    rintro ⟨g, hg, _⟩
    exact Table.not_mem_empty g hg

/-- One writer comes to a vault nobody else uses, writes and goes. -/
def oneWriter : List (Event Nat Unit) :=
  [.arrive () 7, .runGitWrite () false, .threadDone () true, .leave () .completed]

theorem one_writer_drains : ∃ s, Run (step ⟨8, 512⟩) State.initial oneWriter s ∧ s.waiters = 0 ∧
    s.globalSem ⟨8, 512⟩ = ⟨8, []⟩ := by
  obtain ⟨s, hs⟩ := Option.isSome_iff_exists.mp
    (show (execute (next ⟨8, 512⟩) State.initial oneWriter).isSome = true from rfl)
  have hr : Run (step ⟨8, 512⟩) State.initial oneWriter s := run_of_execute hs
  have hg (t : Unit) : Gone s t := by
    cases hs
    exact ⟨⟨_, rfl⟩, _, rfl⟩
  obtain ⟨hw, _, hsem, _⟩ := (lane_leaves_gates_only _ _ s hr).2.2.2.2.2.1 hg
  exact ⟨s, hr, hw, hsem⟩

/-- The entry of its gate stays. -/
theorem gate_entry_stays : ¬ ∀ (cfg : Settings) (es : List (Event Nat Unit)) (s : State Nat Unit),
    Run (step cfg) State.initial es s → (∀ t, Gone s t) → s.vaultGates.rows = [] := by
  intro hclaim
  obtain ⟨s, hs⟩ := Option.isSome_iff_exists.mp
    (show (execute (next ⟨8, 512⟩) State.initial oneWriter).isSome = true from rfl)
  have hkept := hclaim _ _ s (run_of_execute hs)
  cases hs
  cases hkept fun t => ⟨⟨_, rfl⟩, _, rfl⟩

end Akb.WriteLane
