import Akb.Vectors.Store

/-! What a process may rely on while others run: the rows it has locked stay, ids
that were retired stay retired, and what it enqueued covers what it will delete. -/
namespace Akb.Vectors
open Akb.Queues Akb.Library
variable {κ ω : Type} [LinearOrder κ]

namespace Store

/-- The chunk rows without their retry columns. -/
def held (s : Store κ ω) : List (κ × Source κ) := s.chunks.map (fun r => (r.id, r.data))

def Live (s : Store κ ω) (c : κ) : Prop := ∃ source, (c, source) ∈ s.held

/-- The chunk's point is still to be deleted. -/
def Pending (s : Store κ ω) (c : κ) : Prop := ∃ o ∈ s.outbox, o.data.chunkId = c ∧ o.doneAt = none

/-- The id belongs to a chunk that was committed, deleted or not. -/
def Known (s : Store κ ω) (c : κ) : Prop := c ∈ s.retired ∨ s.Live c

/-- An outbox id was drawn for this delete. -/
def Issued (s : Store κ ω) (id : Nat) (d : DeleteData κ) : Prop := s.issued[id]? = some d

end Store

structure ClaimSound (s : Store κ ω) (h : ClaimedRow Nat (DeleteData κ)) : Prop where
  issued : s.Issued h.id h.data
  retired : h.data.chunkId ∈ s.retired

def Names (d : Drop κ) (c : κ) : Prop := ∃ o ∈ d.enqueued, o.data.chunkId = c

def ProgressSound (s : Store κ ω) (p : ω) (d : Drop κ) : Progress κ → Prop
  | .selected => ∀ e ∈ s.held, d.scope.selects e.2 = true → Names d e.1
  | .waiting snapshot =>
    (∀ c ∈ snapshot, s.Known c) ∧ (∀ c ∈ snapshot, s.Live c → Names d c) ∧ ∀ c, Names d c → s.Live c → c ∈ snapshot
  | .deleted ids =>
    (∀ c ∈ ids, s.Live c ∧ s.rowLocks c = some p ∧ Names d c) ∧ ∀ c, Names d c → s.Live c → c ∈ ids

structure DropSound (s : Store κ ω) (p : ω) (d : Drop κ) : Prop where
  enqueued : ∀ o ∈ d.enqueued, o.doneAt = none ∧ s.Issued o.id o.data ∧ s.Known o.data.chunkId
  within : ∀ e ∈ s.held, Names d e.1 → d.scope.selects e.2 = true
  progress : ProgressSound s p d d.progress
  fresh : ∀ r ∈ d.fresh, r.id ∈ s.used ∧ ¬ s.Known r.id
  freshUnique : (d.fresh.map QueueRow.id).Nodup
  vault : ∀ v, d.scope = .vault v → s.vaultLocks v = some p

def ProcSound (s : Store κ ω) (p : ω) : Proc κ → Prop
  | .idle | .embedding _ | .settling _ _ => True
  | .storing row _ _ => s.Live row.id ∧ s.rowLocks row.id = some p
  | .draining batch => ∀ h ∈ batch, ClaimSound s h
  | .forgetting row rest =>
    (∀ h ∈ row :: rest, ClaimSound s h) ∧ (s.driver = .external → row.data.chunkId ∉ s.points)
  | .dropping d => DropSound s p d

structure Sound (s : Store κ ω) : Prop where
  unique : (s.held.map Prod.fst).Nodup
  covered : ∀ c ∈ s.points, s.Live c ∨ s.Pending c
  used : ∀ c, s.Known c → c ∈ s.used
  dead : ∀ c ∈ s.retired, ¬ s.Live c
  outbox : ∀ o ∈ s.outbox, s.Issued o.id o.data ∧ o.data.chunkId ∈ s.retired
  proc : ∀ p, ProcSound s p (s.procs p)
  apart : ∀ p q, p ≠ q → ∀ d d', s.procs p = .dropping d → s.procs q = .dropping d' →
    ∀ r ∈ d.fresh, ∀ r' ∈ d'.fresh, r.id ≠ r'.id

/-- What a step of another process leaves as it was for `q`. -/
structure Keeps (s s' : Store κ ω) (q : ω) : Prop where
  driver : s'.driver = s.driver
  issued : ∀ id d, s.Issued id d → s'.Issued id d
  retired : ∀ c ∈ s.retired, c ∈ s'.retired
  used : ∀ c ∈ s.used, c ∈ s'.used
  known : ∀ c, s.Known c → s'.Known c
  appeared : ∀ e ∈ s'.held, e ∈ s.held ∨ ¬ s.Known e.1 ∧
    ∀ d, s.procs q = .dropping d → d.progress = .selected → d.scope.selects e.2 = false
  locked : ∀ c, s.rowLocks c = some q → s'.rowLocks c = some q ∧ (s.Live c → s'.Live c)
  vault : ∀ v, s.vaultLocks v = some q → s'.vaultLocks v = some q
  fresh : ∀ d, s.procs q = .dropping d → ∀ r ∈ d.fresh, ¬ s.Known r.id → ¬ s'.Known r.id
  points : ∀ c ∈ s.retired, c ∉ s.points → c ∉ s'.points

section keeps
variable {s s' : Store κ ω} {q : ω}

/-- A chunk that was known and lives now lived before. -/
private theorem Keeps.live (hk : Keeps s s' q) {c : κ} (hc : s.Known c) (hl : s'.Live c) : s.Live c := by
  obtain ⟨source, hmem⟩ := hl
  rcases hk.appeared _ hmem with h | h
  · exact ⟨source, h⟩
  · exact absurd hc h.1

theorem ClaimSound.keep {h : ClaimedRow Nat (DeleteData κ)} (hc : ClaimSound s h) (hk : Keeps s s' q) :
    ClaimSound s' h :=
  ⟨hk.issued _ _ hc.issued, hk.retired _ hc.retired⟩

theorem DropSound.keep {d : Drop κ} (hd : DropSound s q d) (hproc : s.procs q = .dropping d) (hk : Keeps s s' q) :
    DropSound s' q d := by
  have hnamed : ∀ c, Names d c → s.Known c := by
    rintro c ⟨o, ho, rfl⟩
    exact (hd.enqueued o ho).2.2
  refine ⟨?_, ?_, ?_, ?_, hd.freshUnique, ?_⟩
  · intro o ho
    obtain ⟨hdone, hissued, hknown⟩ := hd.enqueued o ho
    exact ⟨hdone, hk.issued _ _ hissued, hk.known _ hknown⟩
  · intro e he hn
    rcases hk.appeared e he with h | h
    · exact hd.within e h hn
    · exact absurd (hnamed _ hn) h.1
  · have hp := hd.progress
    cases hprogress : d.progress with
    | selected =>
      rw [hprogress] at hp
      intro e he hsel
      rcases hk.appeared e he with h | h
      · exact hp e h hsel
      · rw [h.2 d hproc hprogress] at hsel
        cases hsel
    | waiting snapshot =>
      rw [hprogress] at hp
      obtain ⟨hknown, hnames, hall⟩ := hp
      refine ⟨fun c hc => hk.known c (hknown c hc), ?_, ?_⟩
      · exact fun c hc hl => hnames c hc (hk.live (hknown c hc) hl)
      · exact fun c hn hl => hall c hn (hk.live (hnamed c hn) hl)
    | deleted ids =>
      rw [hprogress] at hp
      obtain ⟨hids, hall⟩ := hp
      refine ⟨?_, fun c hn hl => hall c hn (hk.live (hnamed c hn) hl)⟩
      intro c hc
      obtain ⟨hl, hlock, hn⟩ := hids c hc
      obtain ⟨hlock', hl'⟩ := hk.locked c hlock
      exact ⟨hl' hl, hlock', hn⟩
  · intro r hr
    obtain ⟨hu, hn⟩ := hd.fresh r hr
    exact ⟨hk.used _ hu, hk.fresh d hproc r hr hn⟩
  · exact fun v hv => hk.vault v (hd.vault v hv)

theorem ProcSound.keep {x : Proc κ} (hp : ProcSound s q x) (hx : ∀ d, x = .dropping d → s.procs q = .dropping d)
    (hk : Keeps s s' q) : ProcSound s' q x := by
  cases x with
  | idle => trivial
  | embedding batch => trivial
  | settling row rest => trivial
  | storing row rest upserted =>
    obtain ⟨hl, hlock⟩ := hp
    obtain ⟨hlock', hl'⟩ := hk.locked _ hlock
    exact ⟨hl' hl, hlock'⟩
  | draining batch => exact fun h hh => (hp h hh).keep hk
  | forgetting row rest =>
    refine ⟨fun h hh => (hp.1 h hh).keep hk, fun hdriver => ?_⟩
    rw [hk.driver] at hdriver
    exact hk.points _ (hp.1 row List.mem_cons_self).retired (hp.2 hdriver)
  | dropping d => exact DropSound.keep hp (hx d rfl) hk

end keeps

section steps
variable {s s' : Store κ ω}

/-- A step that one process takes, or none, given what it leaves to the others. -/
theorem Sound.step (hs : Sound s) (actor : Option ω)
    (hothers : ∀ q, actor ≠ some q → s'.procs q = s.procs q ∧ Keeps s s' q)
    (hproc : ∀ p, actor = some p → ProcSound s' p (s'.procs p))
    (hunique : (s'.held.map Prod.fst).Nodup)
    (hcovered : ∀ c ∈ s'.points, s'.Live c ∨ s'.Pending c) (hused : ∀ c, s'.Known c → c ∈ s'.used)
    (hdead : ∀ c ∈ s'.retired, ¬ s'.Live c)
    (houtbox : ∀ o ∈ s'.outbox, s'.Issued o.id o.data ∧ o.data.chunkId ∈ s'.retired)
    (hfresh : ∀ p q, actor = some p → actor ≠ some q → ∀ d d', s'.procs p = .dropping d → s.procs q = .dropping d' →
      ∀ r ∈ d.fresh, ∀ r' ∈ d'.fresh, r.id ≠ r'.id) : Sound s' := by
  refine ⟨hunique, hcovered, hused, hdead, houtbox, ?_, ?_⟩
  · intro q
    by_cases hq : actor = some q
    · exact hproc q hq
    · obtain ⟨hsame, hkeeps⟩ := hothers q hq
      rw [hsame]
      exact (hs.proc q).keep (fun _ h => h) hkeeps
  · intro q q' hne d d' hd hd' r hr r' hr'
    by_cases hq : actor = some q
    · have hq' : actor ≠ some q' := fun h => hne (Option.some.inj (hq.symm.trans h))
      rw [(hothers q' hq').1] at hd'
      exact hfresh q q' hq hq' d d' hd hd' r hr r' hr'
    · rw [(hothers q hq).1] at hd
      by_cases hq' : actor = some q'
      · exact (hfresh q' q hq' hq d' d hd' hd r' hr' r hr).symm
      · rw [(hothers q' hq').1] at hd'
        exact hs.apart q q' hne d d' hd hd' r hr r' hr'

/-- The chunks are the same; more ids may have been drawn. -/
structure SameTables (s s' : Store κ ω) : Prop where
  driver : s'.driver = s.driver
  held : s'.held = s.held
  retired : s'.retired = s.retired
  issued : ∀ id d, s.Issued id d → s'.Issued id d
  used : ∀ c ∈ s.used, c ∈ s'.used

omit [LinearOrder κ] in
theorem SameTables.live (h : SameTables s s') {c : κ} : s'.Live c ↔ s.Live c := by
  rw [Store.Live, Store.Live, h.held]

omit [LinearOrder κ] in
theorem SameTables.known (h : SameTables s s') {c : κ} : s'.Known c ↔ s.Known c := by
  rw [Store.Known, Store.Known, h.retired, h.live]

theorem SameTables.keeps (h : SameTables s s') {q : ω}
    (hlocks : ∀ c, s.rowLocks c = some q → s'.rowLocks c = some q)
    (hvaults : ∀ v, s.vaultLocks v = some q → s'.vaultLocks v = some q)
    (hpoints : ∀ c ∈ s.retired, c ∉ s.points → c ∉ s'.points) : Keeps s s' q where
  driver := h.driver
  issued := h.issued
  retired c hc := by rw [h.retired]; exact hc
  used := h.used
  known _ hc := h.known.mpr hc
  appeared e he := .inl (by rw [← h.held]; exact he)
  locked c hc := ⟨hlocks c hc, h.live.mpr⟩
  vault := hvaults
  fresh _ _ _ _ hn hk := hn (h.known.mp hk)
  points := hpoints

/-- A step that writes points of live chunks only and keeps the outbox rows that
cover a point. -/
theorem Sound.frame (hs : Sound s) (actor : Option ω) (h : SameTables s s')
    (houtbox : ∀ o' ∈ s'.outbox, ∃ o ∈ s.outbox, o.id = o'.id ∧ o.data = o'.data)
    (hpending : ∀ c ∈ s'.points, s.Pending c → s'.Pending c)
    (hpoints : ∀ c ∈ s'.points, c ∈ s.points ∨ s.Live c)
    (hothers : ∀ q, actor ≠ some q → s'.procs q = s.procs q ∧
      (∀ c, s.rowLocks c = some q → s'.rowLocks c = some q) ∧ ∀ v, s.vaultLocks v = some q → s'.vaultLocks v = some q)
    (hproc : ∀ p, actor = some p → ProcSound s' p (s'.procs p))
    (hfresh : ∀ p d, actor = some p → s'.procs p = .dropping d → ∀ r ∈ d.fresh,
      (∃ d', s.procs p = .dropping d' ∧ r ∈ d'.fresh) ∨ r.id ∉ s.used) : Sound s' := by
  refine hs.step actor ?_ hproc (h.held ▸ hs.unique) ?_ ?_ ?_ ?_ ?_
  · intro q hq
    obtain ⟨hsame, hlocks, hvaults⟩ := hothers q hq
    refine ⟨hsame, h.keeps hlocks hvaults ?_⟩
    intro c hc hnot hc'
    rcases hpoints c hc' with hold | hl
    · exact hnot hold
    · exact hs.dead c hc hl
  · intro c hc
    rw [h.live]
    rcases hpoints c hc with hold | hl
    · exact (hs.covered c hold).imp_right (hpending c hc)
    · exact .inl hl
  · exact fun c hc => h.used c (hs.used c (h.known.mp hc))
  · intro c hc
    rw [h.retired] at hc
    rw [h.live]
    exact hs.dead c hc
  · intro o' ho'
    obtain ⟨o, ho, hid, hdata⟩ := houtbox o' ho'
    obtain ⟨hissued, hretired⟩ := hs.outbox o ho
    rw [h.retired, ← hid, ← hdata]
    exact ⟨h.issued _ _ hissued, hretired⟩
  · intro p q hp hq d d' hd hd' r hr r' hr'
    rcases hfresh p d hp hd r hr with ⟨d₀, hd₀, hr₀⟩ | hnew
    · have hne : p ≠ q := by
        rintro rfl
        exact hq hp
      exact hs.apart p q hne d₀ d' hd₀ hd' r hr₀ r' hr'
    · have hproc := hs.proc q
      rw [hd'] at hproc
      intro hid
      exact hnew (hid ▸ (hproc.fresh r' hr').1)

end steps

end Akb.Vectors
