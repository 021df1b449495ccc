import Akb.Vectors.Drops

/-! No point outlives its chunk unseen, as long as no chunk slips into a source
between the SELECT and the DELETE of a drop. -/
namespace Akb.Vectors
open Akb.Queues Akb.Library
variable {κ ω : Type} [LinearOrder κ]

/-- No chunk of a source is committed while a drop of that source stands between
its SELECT and its DELETE, and no vault is deleted while it has a chunk whose
source is no longer registered. -/
def Store.Careful (s : Store κ ω) : StoreAction κ ω → Prop
  | .commitDrop p => ∀ d, s.procs p = .dropping d → ∀ q, q ≠ p → ∀ d', s.procs q = .dropping d' →
      d'.progress = .selected → ∀ source retire, d'.scope = .source source retire → ∀ r ∈ d.fresh, r.data ≠ source
  | .beginDrop _ (.vault v) => ∀ r ∈ s.chunks, r.data.vaultId = v →
      (Scope.vault v).captures s.registered r.data = true
  | _ => True

variable [DecidableEq ω] {s s' : Store κ ω} {p : ω}

/-- A drop begins when it has enqueued what it is going to delete. -/
private theorem Sound.begin_of (hs : Sound s) {scope : Scope κ} {vaultLocks : κ → Option ω}
    (hall : ∀ r ∈ s.chunks, scope.selects r.data = true → scope.captures s.registered r.data = true)
    (hwithin : ∀ source, scope.captures s.registered source = true → scope.selects source = true)
    (hvaults : ∀ q, some p ≠ some q → ∀ v, s.vaultLocks v = some q → vaultLocks v = some q)
    (hlocked : ∀ v, scope = .vault v → vaultLocks v = some p) :
    let captured := s.chunks.filter (fun r => scope.captures s.registered r.data)
    Sound { s with
      issued := s.issued ++ captured.map Store.deleteOf, vaultLocks := vaultLocks
      procs := s.setProc p (.dropping ⟨scope, s.enqueueDeletes captured, .selected, []⟩) } := by
  intro captured
  refine hs.frame (some p) ⟨rfl, rfl, rfl, fun _ _ h => issued_append h _, fun _ h => h⟩
    (fun o ho => ⟨o, ho, rfl, rfl⟩) (fun _ _ h => h) (fun c hc => .inl hc) ?_ ?_ ?_
  · exact fun q hq => ⟨setProc_other hq, fun _ h => h, hvaults q hq⟩
  · rintro _ ⟨⟩
    change ProcSound _ p (s.setProc p _ p)
    rw [setProc_self]
    refine ⟨?_, ?_, ?_, ?_, ?_, hlocked⟩
    · intro o ho
      obtain ⟨hdone, hissued, r, hr, hid⟩ := enqueueDeletes_spec ho
      refine ⟨hdone, hissued, .inr ⟨r.data, ?_⟩⟩
      rw [hid]
      exact List.mem_map_of_mem (List.mem_of_mem_filter hr)
    · rintro e he ⟨o, ho, hoe⟩
      obtain ⟨_, _, r, hr, hid⟩ := enqueueDeletes_spec ho
      obtain ⟨hmem, hcap⟩ := List.mem_filter.mp hr
      have heq : e = (r.id, r.data) :=
        List.inj_on_of_nodup_map hs.unique he (List.mem_map_of_mem hmem) (hoe.symm.trans hid)
      rw [heq]
      exact hwithin _ hcap
    · intro e he hsel
      obtain ⟨r, hr, rfl⟩ := List.mem_map.mp he
      exact names_enqueueDeletes (List.mem_filter.mpr ⟨hr, hall r hr hsel⟩)
    · exact fun r hr => absurd hr List.not_mem_nil
    · exact List.nodup_nil
  · rintro _ d ⟨⟩ hd r hr
    change s.setProc p _ p = _ at hd
    rw [setProc_self] at hd
    cases hd
    exact absurd hr List.not_mem_nil

theorem Sound.beginDrop (hs : Sound s) {scope : Scope κ} (hcareful : s.Careful (.beginDrop p scope))
    (h : s.beginDrop p scope = some s') : Sound s' := by
  unfold Store.beginDrop at h
  split at h
  case h_3 => cases h
  case h_1 source retire _ =>
    cases h
    exact hs.begin_of (fun _ _ h => h) (fun _ h => h) (fun _ _ _ h => h) (fun v hv => by cases hv)
  case h_2 v _ =>
    obtain ⟨⟨_, hfree⟩, h⟩ := Option.ite_none_right_eq_some.mp h
    cases h
    refine hs.begin_of (fun r hr hsel => hcareful r hr (of_decide_eq_true hsel)) ?_ ?_ ?_
    · intro source hcap
      exact (Bool.and_eq_true_iff.mp hcap).1
    · intro q _ u hu
      have hne : u ≠ v := by
        rintro rfl
        rw [hfree] at hu
        cases hu
      exact (if_neg hne).trans hu
    · rintro u ⟨⟩
      exact if_pos rfl

omit [DecidableEq ω] in
/-- The chunks that a commit leaves: the old ones it did not delete, and its own. -/
private theorem mem_held_commit {ids : List κ} {fresh : List (ChunkRow κ)} {e : κ × Source κ} :
    e ∈ (s.chunks.filter (fun r => r.id ∉ ids) ++ fresh).map (fun r => (r.id, r.data)) ↔
      (e ∈ s.held ∧ e.1 ∉ ids) ∨ ∃ r ∈ fresh, (r.id, r.data) = e := by
  rw [List.map_append, List.mem_append, List.mem_map, List.mem_map]
  apply or_congr_left
  constructor
  · rintro ⟨r, hr, rfl⟩
    obtain ⟨hmem, hout⟩ := List.mem_filter.mp hr
    exact ⟨List.mem_map_of_mem hmem, of_decide_eq_true hout⟩
  · rintro ⟨he, hout⟩
    obtain ⟨r, hr, rfl⟩ := List.mem_map.mp he
    exact ⟨r, List.mem_filter.mpr ⟨hr, decide_eq_true hout⟩, rfl⟩

theorem Sound.commitDrop (hs : Sound s) (hcareful : s.Careful (.commitDrop p)) (h : s.commitDrop p = some s') :
    Sound s' := by
  have hproc := hs.proc p
  rw [Store.commitDrop] at h
  split at h
  case h_2 => cases h
  case h_1 d hp =>
    split at h
    case h_2 => cases h
    case h_1 ids hdeleted =>
      obtain ⟨hopen, h⟩ := Option.ite_none_right_eq_some.mp h
      cases h
      rw [hp] at hproc
      have hd : DropSound s p d := hproc
      have hprogress := hd.progress
      rw [hdeleted] at hprogress
      obtain ⟨hids, hall⟩ := hprogress
      have hfresh : ∀ r ∈ d.fresh, ∀ c, s.Known c → r.id ≠ c := fun r hr c hc he => (hd.fresh r hr).2 (he ▸ hc)
      refine hs.step (some p) ?_ ?_ ?_ ?_ ?_ ?_ ?_ ?_
      · intro q hq
        have hqp : q ≠ p := fun h => hq (congrArg some h.symm)
        refine ⟨setProc_other hq, ?_⟩
        refine {
          driver := rfl, issued := fun _ _ h => h, used := fun _ h => h, points := fun _ _ h => h
          retired := fun c hc => List.mem_append_right _ hc
          known := ?_, appeared := ?_, locked := ?_, vault := fun v hv => unlock_other hq hv, fresh := ?_ }
        · rintro c (hc | ⟨source, hmem⟩)
          · exact .inl (List.mem_append_right _ hc)
          · by_cases hin : c ∈ ids
            · exact .inl (List.mem_append_left _ hin)
            · exact .inr ⟨source, mem_held_commit.mpr (.inl ⟨hmem, hin⟩)⟩
        · intro e he
          rcases mem_held_commit.mp he with ⟨hold, _⟩ | ⟨r, hr, rfl⟩
          · exact .inl hold
          · refine .inr ⟨(hd.fresh r hr).2, ?_⟩
            intro d' hd' hselected
            cases hscope : d'.scope with
            | source source retire =>
              exact decide_eq_false (hcareful d hp q hqp d' hd' hselected source retire hscope r hr)
            | vault v =>
              have hproc' := hs.proc q
              rw [hd'] at hproc'
              have hlock : s.vaultLocks v = some q := hproc'.vault v hscope
              have hfree := (of_decide_eq_true (List.all_eq_true.mp hopen r hr)).2
              refine decide_eq_false ?_
              intro hv
              rw [hv, hlock] at hfree
              cases hfree
        · intro c hc
          refine ⟨unlock_other hq hc, ?_⟩
          rintro ⟨source, hmem⟩
          have hout : c ∉ ids := by
            intro hin
            have hlock := (hids c hin).2.1
            rw [hc] at hlock
            exact hqp (Option.some.inj hlock)
          exact ⟨source, mem_held_commit.mpr (.inl ⟨hmem, hout⟩)⟩
        · intro d' hd' r' hr' hn hk
          rcases hk with hk | ⟨source, hmem⟩
          · rcases List.mem_append.mp hk with hin | hret
            · exact hn (.inr (hids _ hin).1)
            · exact hn (.inl hret)
          · rcases mem_held_commit.mp hmem with ⟨hold, _⟩ | ⟨r, hr, he⟩
            · exact hn (.inr ⟨source, hold⟩)
            · exact hs.apart p q hqp.symm d d' hp hd' r hr r' hr' (Prod.ext_iff.mp he).1
      · rintro _ ⟨⟩
        change ProcSound _ p (s.setProc p .idle p)
        rw [setProc_self]
        trivial
      · change ((s.chunks.filter (fun r => r.id ∉ ids) ++ d.fresh).map (fun r => (r.id, r.data))).map Prod.fst |>.Nodup
        have hunique := hs.unique
        rw [Store.held, List.map_map] at hunique
        rw [List.map_map, List.map_append, List.nodup_append]
        refine ⟨hunique.sublist (List.filter_sublist.map _), hd.freshUnique, ?_⟩
        intro a ha b hb
        obtain ⟨r, hr, rfl⟩ := List.mem_map.mp ha
        obtain ⟨r', hr', rfl⟩ := List.mem_map.mp hb
        exact (hfresh r' hr' r.id (.inr ⟨r.data, List.mem_map_of_mem (List.mem_of_mem_filter hr)⟩)).symm
      · intro c hc
        rcases hs.covered c hc with ⟨source, hmem⟩ | ⟨o, ho, hoc, hdone⟩
        · by_cases hin : c ∈ ids
          · obtain ⟨o, ho, hoc⟩ := (hids c hin).2.2
            exact .inr ⟨o, List.mem_append_right _ ho, hoc, (hd.enqueued o ho).1⟩
          · exact .inl ⟨source, mem_held_commit.mpr (.inl ⟨hmem, hin⟩)⟩
        · exact .inr ⟨o, List.mem_append_left _ ho, hoc, hdone⟩
      · rintro c (hc | ⟨source, hmem⟩)
        · rcases List.mem_append.mp hc with hin | hret
          · exact hs.used c (.inr (hids c hin).1)
          · exact hs.used c (.inl hret)
        · rcases mem_held_commit.mp hmem with ⟨hold, _⟩ | ⟨r, hr, he⟩
          · exact hs.used c (.inr ⟨source, hold⟩)
          · have hid : r.id = c := (Prod.ext_iff.mp he).1
            exact hid ▸ (hd.fresh r hr).1
      · rintro c hc ⟨source, hmem⟩
        rcases mem_held_commit.mp hmem with ⟨hold, hout⟩ | ⟨r, hr, he⟩
        · rcases List.mem_append.mp hc with hin | hret
          · exact hout hin
          · exact hs.dead c hret ⟨source, hold⟩
        · refine hfresh r hr c ?_ (Prod.ext_iff.mp he).1
          rcases List.mem_append.mp hc with hin | hret
          · exact .inr (hids c hin).1
          · exact .inl hret
      · intro o ho
        rcases List.mem_append.mp ho with ho | ho
        · obtain ⟨hissued, hret⟩ := hs.outbox o ho
          exact ⟨hissued, List.mem_append_right _ hret⟩
        · obtain ⟨_, hissued, hknown⟩ := hd.enqueued o ho
          refine ⟨hissued, ?_⟩
          rcases hknown with hret | hl
          · exact List.mem_append_right _ hret
          · exact List.mem_append_left _ (hall _ ⟨o, ho, rfl⟩ hl)
      · rintro _ q ⟨⟩ _ d₂ _ hd₂
        change s.setProc p .idle p = _ at hd₂
        rw [setProc_self] at hd₂
        cases hd₂

omit [LinearOrder κ] [DecidableEq ω] in
private theorem eq_of_id (hs : (s.held.map Prod.fst).Nodup) {r r' : ChunkRow κ} (hr : r ∈ s.chunks)
    (hr' : r' ∈ s.chunks) (hid : r.id = r'.id) : r = r' := by
  rw [Store.held, List.map_map] at hs
  exact List.inj_on_of_nodup_map hs hr hr' hid

omit [DecidableEq ω] in
/-- The reaper enqueues in the statement that deletes, so nothing slips between. -/
theorem Sound.reap (hs : Sound s) : Sound s.reap := by
  have hheld : ∀ e ∈ s.reap.held, e ∈ s.held := by
    intro e he
    obtain ⟨r, hr, rfl⟩ := List.mem_map.mp he
    exact List.mem_map_of_mem (List.mem_of_mem_filter hr)
  have hkept : ∀ r ∈ s.chunks, s.reapable r = false → s.reap.Live r.id := by
    intro r hr hk
    refine ⟨r.data, List.mem_map.mpr ⟨r, List.mem_filter.mpr ⟨hr, ?_⟩, rfl⟩⟩
    rw [hk]
    rfl
  have hreaped : ∀ r ∈ s.chunks, s.reapable r = true → r.id ∈ s.reap.retired := fun r hr hk =>
    List.mem_append_left _ (List.mem_map_of_mem (List.mem_filter.mpr ⟨hr, hk⟩))
  have hknown : ∀ c, s.reap.Known c → s.Known c := by
    rintro c (hc | ⟨source, hmem⟩)
    · rcases List.mem_append.mp hc with hin | hret
      · obtain ⟨r, hr, rfl⟩ := List.mem_map.mp hin
        exact .inr ⟨r.data, List.mem_map_of_mem (List.mem_of_mem_filter hr)⟩
      · exact .inl hret
    · exact .inr ⟨source, hheld _ hmem⟩
  refine hs.step none ?_ ?_ ?_ ?_ ?_ ?_ ?_ ?_
  · intro q _
    refine ⟨rfl, ?_⟩
    refine {
      driver := rfl, issued := fun _ _ h => issued_append h _, used := fun _ h => h, points := fun _ _ h => h
      retired := fun c hc => List.mem_append_right _ hc
      known := ?_, appeared := fun e he => .inl (hheld e he), locked := ?_, vault := fun _ h => h
      fresh := fun _ _ _ _ hn hk => hn (hknown _ hk) }
    · rintro c (hc | ⟨source, hmem⟩)
      · exact .inl (List.mem_append_right _ hc)
      · obtain ⟨r, hr, he⟩ := List.mem_map.mp hmem
        obtain ⟨rfl, rfl⟩ := Prod.ext_iff.mp he
        by_cases hk : s.reapable r = true
        · exact .inl (hreaped r hr hk)
        · exact .inr (hkept r hr (Bool.eq_false_iff.mpr hk))
    · intro c hc
      refine ⟨hc, ?_⟩
      rintro ⟨source, hmem⟩
      obtain ⟨r, hr, he⟩ := List.mem_map.mp hmem
      obtain ⟨rfl, rfl⟩ := Prod.ext_iff.mp he
      refine hkept r hr ?_
      have hlocked : decide (s.rowLocks r.id = none) = false := by
        rw [hc]
        exact decide_eq_false (Option.some_ne_none q)
      rw [Store.reapable, hlocked, Bool.and_false]
  · exact fun p hp => absurd hp.symm (Option.some_ne_none p)
  · exact hs.unique.sublist ((List.filter_sublist.map _).map _)
  · intro c hc
    rcases hs.covered c hc with ⟨source, hmem⟩ | ⟨o, ho, hoc, hdone⟩
    · obtain ⟨r, hr, he⟩ := List.mem_map.mp hmem
      obtain ⟨rfl, rfl⟩ := Prod.ext_iff.mp he
      by_cases hk : s.reapable r = true
      · refine .inr ?_
        by_cases hqueued : s.outbox.any (fun o => o.data.chunkId = r.id && o.doneAt.isNone) = true
        · obtain ⟨o, ho, hboth⟩ := List.any_eq_true.mp hqueued
          rw [Bool.and_eq_true, decide_eq_true_eq, Option.isNone_iff_eq_none] at hboth
          exact ⟨o, List.mem_append_left _ ho, hboth.1, hboth.2⟩
        · have hunqueued : r ∈ (s.chunks.filter s.reapable).filter
              (fun r => !s.outbox.any (fun o => o.data.chunkId = r.id && o.doneAt.isNone)) := by
            refine List.mem_filter.mpr ⟨List.mem_filter.mpr ⟨hr, hk⟩, ?_⟩
            rw [Bool.eq_false_iff.mpr hqueued]
            rfl
          obtain ⟨o, ho, hid⟩ := names_enqueueDeletes (s := s) hunqueued
          exact ⟨o, List.mem_append_right _ ho, hid, (enqueueDeletes_spec ho).1⟩
      · exact .inl (hkept r hr (Bool.eq_false_iff.mpr hk))
    · exact .inr ⟨o, List.mem_append_left _ ho, hoc, hdone⟩
  · exact fun c hc => hs.used c (hknown c hc)
  · rintro c hc ⟨source, hmem⟩
    rcases List.mem_append.mp hc with hin | hret
    · obtain ⟨r, hr, rfl⟩ := List.mem_map.mp hin
      obtain ⟨r', hr', he⟩ := List.mem_map.mp hmem
      obtain ⟨hmem, hk⟩ := List.mem_filter.mp hr
      obtain ⟨hmem', hk'⟩ := List.mem_filter.mp hr'
      rw [eq_of_id hs.unique hmem' hmem (Prod.ext_iff.mp he).1, hk] at hk'
      cases hk'
    · exact hs.dead c hret ⟨source, hheld _ hmem⟩
  · intro o ho
    rcases List.mem_append.mp ho with ho | ho
    · obtain ⟨hissued, hret⟩ := hs.outbox o ho
      exact ⟨issued_append hissued _, List.mem_append_right _ hret⟩
    · obtain ⟨_, hissued, r, hr, hid⟩ := enqueueDeletes_spec ho
      obtain ⟨hmem, hk⟩ := List.mem_filter.mp (List.mem_of_mem_filter hr)
      exact ⟨hissued, hid ▸ hreaped r hmem hk⟩
  · exact fun p _ hp => absurd hp.symm (Option.some_ne_none p)

theorem Sound.next (hs : Sound s) {a : StoreAction κ ω} (hcareful : s.Careful a) (h : s.next a = some s') :
    Sound s' := by
  cases a with
  | openVault v =>
    obtain ⟨_, h⟩ := Option.ite_none_left_eq_some.mp h
    cases h
    exact hs.world s.now (v :: s.vaults) s.registered
  | register source =>
    obtain ⟨_, h⟩ := Option.ite_none_right_eq_some.mp h
    cases h
    exact hs.world s.now s.vaults (source :: s.registered)
  | claimChunks p locked => exact hs.claimChunks h
  | lockChunk p => exact hs.lockChunk h
  | upsertPoint p => exact hs.upsertPoint h
  | commitStore p => exact hs.commitStore h
  | abortStore p => exact hs.abortStore h
  | endChunk p ending => exact hs.endChunk h
  | claimDeletes p locked => exact hs.claimDeletes h
  | deletePoint p => exact hs.deletePoint h
  | commitDelete p => exact hs.commitDelete h
  | failDelete p error unavailable => exact hs.failDelete h
  | beginDrop p scope => exact hs.beginDrop hcareful h
  | startDelete p => exact hs.startDelete h
  | finishDelete p => exact hs.finishDelete h
  | insertChunk p id => exact hs.insertChunk h
  | commitDrop p => exact hs.commitDrop hcareful h
  | stop p =>
    cases h
    exact hs.stop
  | rescue =>
    cases h
    exact hs.rescue
  | reap =>
    cases h
    exact hs.reap
  | sweep =>
    cases h
    exact hs.sweep
  | elapse seconds =>
    cases h
    exact hs.world (s.now + seconds) s.vaults s.registered

omit [DecidableEq ω] in
theorem sound_empty (driver : Driver) (batchSize : Nat) (now : Int) :
    Sound (Store.empty driver batchSize now : Store κ ω) := by
  refine ⟨List.nodup_nil, ?_, ?_, ?_, ?_, fun _ => trivial, ?_⟩
  · exact fun c hc => absurd hc List.not_mem_nil
  · rintro c (hc | ⟨_, hmem⟩)
    · exact absurd hc List.not_mem_nil
    · exact absurd hmem List.not_mem_nil
  · exact fun c hc => absurd hc List.not_mem_nil
  · exact fun o ho => absurd ho List.not_mem_nil
  · exact fun _ _ _ _ _ hd => by cases hd

/-- In a run whose steps are all careful, each point belongs to a live chunk or to a
delete that is still to be processed. -/
theorem points_covered (driver : Driver) (batchSize : Nat) (now : Int) (actions : List (StoreAction κ ω))
    (s : Store κ ω) (hrun : Run (Guarded Store.step Store.Careful) (Store.empty driver batchSize now) actions s) :
    ∀ c ∈ s.points, (∃ r ∈ s.chunks, r.id = c) ∨ ∃ o ∈ s.outbox, o.data.chunkId = c ∧ o.doneAt = none := by
  have hs : Sound s :=
    hrun.invariant (fun _ _ _ hs h => hs.next h.2 h.1) (sound_empty driver batchSize now)
  intro c hc
  rcases hs.covered c hc with ⟨source, hmem⟩ | hp
  · obtain ⟨r, hr, he⟩ := List.mem_map.mp hmem
    exact .inl ⟨r, hr, (Prod.ext_iff.mp he).1⟩
  · exact .inr hp

/-- A table of vault 1. -/
def aTable : Source Nat := ⟨.table, 7, 1⟩

/-- One process replaces the chunks of the table by a new one, and another stores its point. -/
def indexed (chunk : Nat) : List (StoreAction Nat Nat) :=
  [.beginDrop 0 (.source aTable false), .startDelete 0, .finishDelete 0, .insertChunk 0 chunk, .commitDrop 0,
    .claimChunks 2 [], .lockChunk 2, .upsertPoint 2, .commitStore 2, .stop 2]

/-- A table is dropped while its metadata is indexed again. -/
def lateChunk : List (StoreAction Nat Nat) :=
  .openVault 1 :: .register aTable :: indexed 11 ++ .beginDrop 1 (.source aTable true) :: indexed 12 ++
    [.startDelete 1, .finishDelete 1, .commitDrop 1]

/-- A table is indexed after it was dropped, and then its vault is deleted. -/
def lateIndex : List (StoreAction Nat Nat) :=
  .openVault 1 :: indexed 11 ++ [.beginDrop 1 (.vault 1), .startDelete 1, .finishDelete 1, .commitDrop 1]

/-- In both runs a point stays that no chunk and no pending delete accounts for. -/
theorem late_chunks_orphan :
    (∃ s : Store Nat Nat, Run Store.step (Store.empty .external 16 0) lateChunk s ∧
      ∃ c ∈ s.points, (¬ ∃ r ∈ s.chunks, r.id = c) ∧ ¬ ∃ o ∈ s.outbox, o.data.chunkId = c ∧ o.doneAt = none) ∧
    ∃ s : Store Nat Nat, Run Store.step (Store.empty .external 16 0) lateIndex s ∧
      ∃ c ∈ s.points, (¬ ∃ r ∈ s.chunks, r.id = c) ∧ ¬ ∃ o ∈ s.outbox, o.data.chunkId = c ∧ o.doneAt = none := by
  constructor
  · obtain ⟨s, hs, horphan⟩ : ∃ s : Store Nat Nat,
        execute Store.next (Store.empty .external 16 0) lateChunk = some s ∧
        ∃ c ∈ s.points, (¬ ∃ r ∈ s.chunks, r.id = c) ∧ ¬ ∃ o ∈ s.outbox, o.data.chunkId = c ∧ o.doneAt = none :=
      ⟨_, rfl, by decide⟩
    exact ⟨s, run_of_execute hs, horphan⟩
  · obtain ⟨s, hs, horphan⟩ : ∃ s : Store Nat Nat,
        execute Store.next (Store.empty .external 16 0) lateIndex = some s ∧
        ∃ c ∈ s.points, (¬ ∃ r ∈ s.chunks, r.id = c) ∧ ¬ ∃ o ∈ s.outbox, o.data.chunkId = c ∧ o.doneAt = none :=
      ⟨_, rfl, by decide⟩
    exact ⟨s, run_of_execute hs, horphan⟩

/-- One process indexes a table, stores its point and drops the table. -/
def oneAfterAnother : List (StoreAction Nat Unit) :=
  [.openVault 1, .register aTable, .beginDrop () (.source aTable false), .startDelete (), .finishDelete (),
    .insertChunk () 11, .commitDrop (), .claimChunks () [], .lockChunk (), .upsertPoint (), .commitStore (), .stop (),
    .beginDrop () (.source aTable true), .startDelete (), .finishDelete (), .commitDrop ()]

def StoreAction.dropsVault : StoreAction κ ω → Bool
  | .beginDrop _ (.vault _) => true
  | _ => false

omit [DecidableEq ω] in
/-- A process alone in the world is careful with every source. -/
private theorem careful_of_alone [Subsingleton ω] (s : Store κ ω) {a : StoreAction κ ω} (ha : a.dropsVault = false) :
    s.Careful a := by
  cases a with
  | commitDrop p => exact fun d hd q hq => absurd (Subsingleton.elim q p) hq
  | beginDrop p scope =>
    cases scope with
    | source source retire => trivial
    | vault v => cases ha
  | _ => trivial

theorem points_covered_alone :
    ∃ s : Store Nat Unit, s.points = [11] ∧
      ∀ c ∈ s.points, (∃ r ∈ s.chunks, r.id = c) ∨ ∃ o ∈ s.outbox, o.data.chunkId = c ∧ o.doneAt = none := by
  obtain ⟨s, hs, hpoints⟩ : ∃ s : Store Nat Unit,
      execute (fun s a => if a.dropsVault = false then s.next a else none) (Store.empty .joined 16 0)
        oneAfterAnother = some s ∧ s.points = [11] :=
    ⟨_, rfl, by decide⟩
  have hrun := (guarded_run_of_execute hs).mono (fun s a t h => And.imp_right (careful_of_alone s) h)
  exact ⟨s, hpoints, points_covered .joined 16 0 oneAfterAnother s hrun⟩

end Akb.Vectors
