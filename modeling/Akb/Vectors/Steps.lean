import Akb.Vectors.Covered

/-! The steps of the workers. -/
namespace Akb.Vectors
open Akb.Queues Akb.Library
variable {κ ω : Type} [LinearOrder κ]

/-- The process is not in a drop. -/
def Proc.Working : Proc κ → Prop
  | .dropping _ => False
  | .idle | .embedding _ | .storing _ _ _ | .settling _ _ | .draining _ | .forgetting _ _ => True

section rows
variable {ι π : Type}

/-- The same rows in all but their retry columns. -/
def SameRows (rows rows' : List (QueueRow ι π)) : Prop :=
  rows'.map (fun r => (r.id, r.data)) = rows.map (fun r => (r.id, r.data))

/-- The same rows, and the same of them finished. -/
def SameWork (rows rows' : List (QueueRow ι π)) : Prop :=
  rows'.map (fun r => (r.id, r.data, r.doneAt)) = rows.map (fun r => (r.id, r.data, r.doneAt))

theorem SameRows.trans {a b c : List (QueueRow ι π)} (h : SameRows a b) (h' : SameRows b c) : SameRows a c :=
  Eq.trans h' h

theorem SameWork.trans {a b c : List (QueueRow ι π)} (h : SameWork a b) (h' : SameWork b c) : SameWork a c :=
  Eq.trans h' h

theorem SameWork.rows {a b : List (QueueRow ι π)} (h : SameWork a b) : SameRows a b := by
  have hmap := congrArg (List.map (fun e : ι × π × Option Int => (e.1, e.2.1))) h
  rw [List.map_map, List.map_map] at hmap
  exact hmap

theorem SameWork.refl (a : List (QueueRow ι π)) : SameWork a a := Eq.refl _

private theorem map_updateRows {β : Type} (rows : List (QueueRow ι π)) (selected : QueueRow ι π → Bool)
    {f : QueueRow ι π → QueueRow ι π} {g : QueueRow ι π → β} (hf : ∀ r, g (f r) = g r) :
    (updateRows rows selected f).map g = rows.map g := by
  rw [updateRows, List.map_map]
  apply List.map_congr_left
  intro r _
  rw [Function.comp_apply]
  split
  · exact hf r
  · rfl

variable [LinearOrder ι] (rows : List (QueueRow ι π)) (now : Int)

theorem sameWork_claim (before : QueueRow ι π → QueueRow ι π → Bool) (batchSize : Nat) (locked : List ι) :
    SameWork rows (claim before batchSize rows now locked).2 :=
  map_updateRows rows _ (fun _ => rfl)

theorem sameWork_markFailed (id : ι) (attemptCount : Nat) (error : String) :
    SameWork rows (markFailed rows now id attemptCount error) :=
  map_updateRows rows _ (fun _ => rfl)

theorem sameWork_markTerminal (id : ι) (error : String) :
    SameWork rows (EmbedWorker.markTerminal rows now id error) :=
  map_updateRows rows _ (fun _ => rfl)

theorem sameWork_release (batch : List (ClaimedRow ι π)) : SameWork rows (release rows now batch) := by
  cases batch with
  | nil => exact .refl rows
  | cons first rest => exact map_updateRows rows _ (fun _ => rfl)

omit [LinearOrder ι] in
theorem sameWork_rescue : SameWork rows (rescueExpired rows now) := map_updateRows rows _ (fun _ => rfl)

theorem sameRows_markDone (id : ι) : SameRows rows (markDone rows now id) := map_updateRows rows _ (fun _ => rfl)

end rows

section outbox
variable {s s' : Store κ ω}

omit [LinearOrder κ] in
theorem mem_of_sameRows {rows rows' : List (OutboxRow κ)} (h : SameRows rows rows') {o' : OutboxRow κ}
    (ho' : o' ∈ rows') : ∃ o ∈ rows, o.id = o'.id ∧ o.data = o'.data := by
  have hmem : (o'.id, o'.data) ∈ rows'.map (fun r => (r.id, r.data)) := List.mem_map_of_mem ho'
  rw [h] at hmem
  obtain ⟨o, ho, he⟩ := List.mem_map.mp hmem
  exact ⟨o, ho, (Prod.ext_iff.mp he).1, (Prod.ext_iff.mp he).2⟩

omit [LinearOrder κ] in
theorem pending_of_sameWork (h : SameWork s.outbox s'.outbox) {c : κ} (hp : s.Pending c) : s'.Pending c := by
  obtain ⟨o, ho, hc, hdone⟩ := hp
  have hmem : (o.id, o.data, o.doneAt) ∈ s.outbox.map (fun r => (r.id, r.data, r.doneAt)) := List.mem_map_of_mem ho
  rw [← h] at hmem
  obtain ⟨o', ho', he⟩ := List.mem_map.mp hmem
  have hdata : o'.data = o.data := (Prod.ext_iff.mp (Prod.ext_iff.mp he).2).1
  have hdone' : o'.doneAt = o.doneAt := (Prod.ext_iff.mp (Prod.ext_iff.mp he).2).2
  exact ⟨o', ho', hdata ▸ hc, hdone'.trans hdone⟩

end outbox

section locks
variable [DecidableEq ω] {s : Store κ ω} {p q : ω}

omit [LinearOrder κ] in
theorem setProc_other {x : Proc κ} (h : some p ≠ some q) : s.setProc p x q = s.procs q :=
  if_neg (fun hq => h (congrArg some hq.symm))

omit [LinearOrder κ] in
theorem setProc_self {x : Proc κ} : s.setProc p x p = x := if_pos rfl

omit [LinearOrder κ] in
theorem unlock_other {locks : κ → Option ω} (h : some p ≠ some q) {c : κ} (hc : locks c = some q) :
    Store.unlock locks p c = some q := by
  rw [Store.unlock, hc, if_neg (fun hq => h hq.symm)]

end locks

variable [DecidableEq ω] {s s' : Store κ ω} {p : ω}

/-- A process that only updates retry columns and moves on to work that relies on
nothing but the tables. -/
private theorem Sound.retry (hs : Sound s) {x : Proc κ} {chunks : List (ChunkRow κ)} {outbox : List (OutboxRow κ)}
    (hchunks : SameRows s.chunks chunks) (houtbox : SameWork s.outbox outbox)
    (hx : ProcSound { s with chunks := chunks, outbox := outbox, procs := s.setProc p x } p x)
    (hwork : x.Working) : Sound { s with chunks := chunks, outbox := outbox, procs := s.setProc p x } := by
  refine hs.frame (some p) ⟨rfl, hchunks, rfl, fun _ _ h => h, fun _ h => h⟩ (fun o' ho' => mem_of_sameRows houtbox.rows ho') ?_ ?_ ?_ ?_ ?_
  · exact fun _ _ => pending_of_sameWork houtbox
  · exact fun c hc => .inl hc
  · exact fun q hq => ⟨setProc_other hq, fun _ h => h, fun _ h => h⟩
  · rintro _ ⟨⟩
    change ProcSound _ p (s.setProc p x p)
    rw [setProc_self]
    exact hx
  · rintro _ d ⟨⟩ hd
    change s.setProc p x p = _ at hd
    rw [setProc_self] at hd
    rw [hd] at hwork
    exact hwork.elim

omit [DecidableEq ω] in
/-- A statement that no process takes. -/
private theorem Sound.maintain (hs : Sound s) {chunks : List (ChunkRow κ)} {outbox : List (OutboxRow κ)}
    (hchunks : SameRows s.chunks chunks) (hrows : ∀ o' ∈ outbox, ∃ o ∈ s.outbox, o.id = o'.id ∧ o.data = o'.data)
    (hpending : ∀ c, s.Pending c → { s with outbox := outbox }.Pending c) (now : Int) (vaults : List κ)
    (registered : List (Source κ)) :
    Sound { s with chunks := chunks, outbox := outbox, now := now, vaults := vaults, registered := registered } := by
  refine hs.frame none ⟨rfl, hchunks, rfl, fun _ _ h => h, fun _ h => h⟩ hrows (fun c _ => hpending c) (fun c hc => .inl hc) ?_ ?_ ?_
  · exact fun q _ => ⟨rfl, fun _ h => h, fun _ h => h⟩
  · exact fun p hp => absurd hp.symm (Option.some_ne_none p)
  · exact fun p d hp => absurd hp.symm (Option.some_ne_none p)

theorem Sound.claimChunks (hs : Sound s) {locked : List κ} (h : s.claimChunks p locked = some s') : Sound s' := by
  rw [Store.claimChunks] at h
  split at h
  case h_2 => cases h
  case h_1 =>
    cases h
    exact hs.retry (sameWork_claim _ _ _ _ _).rows (.refl _) trivial trivial

theorem Sound.settleChunk (hs : Sound s) (row : ClaimedRow κ (Source κ)) (rest : List (ClaimedRow κ (Source κ)))
    (ending : Store.Ending) : Sound (s.settleChunk p row rest ending) := by
  cases ending with
  | failed error =>
    exact hs.retry (sameWork_markFailed _ _ _ _ _).rows (.refl _) trivial trivial
  | failedAndStop error =>
    exact hs.retry ((sameWork_markFailed _ _ _ _ _).trans (sameWork_release _ _ _)).rows (.refl _) trivial
      trivial
  | terminal error =>
    exact hs.retry (sameWork_markTerminal _ _ _ _).rows (.refl _) trivial trivial
  | handedBack =>
    exact hs.retry (sameWork_release _ _ _).rows (.refl _) trivial trivial

theorem Sound.endChunk (hs : Sound s) {ending : Store.Ending} (h : s.endChunk p ending = some s') : Sound s' := by
  rw [Store.endChunk] at h
  split at h
  case h_1 row rest _ =>
    cases h
    exact hs.settleChunk row rest ending
  case h_2 row rest _ =>
    cases h
    exact hs.settleChunk row rest ending
  case h_3 => cases h

theorem Sound.claimDeletes (hs : Sound s) {locked : List Nat} (h : s.claimDeletes p locked = some s') : Sound s' := by
  rw [Store.claimDeletes] at h
  split at h
  case h_2 => cases h
  case h_1 =>
    cases h
    refine hs.retry (SameWork.refl _).rows (sameWork_claim _ _ _ _ _) ?_ trivial
    intro h hh
    obtain ⟨o, ho, rfl⟩ := List.mem_map.mp hh
    obtain ⟨hissued, hretired⟩ := hs.outbox o (List.mem_of_mem_filter ho)
    exact ⟨hissued, hretired⟩

theorem Sound.failDelete (hs : Sound s) {error : String} {unavailable : Bool}
    (h : s.failDelete p error unavailable = some s') : Sound s' := by
  have hsettle : ∀ (row : ClaimedRow Nat (DeleteData κ)) rest, (∀ h ∈ rest, ClaimSound s h) →
      Sound (if unavailable then { s with
          outbox := DeleteWorker.releaseUnattempted
            (DeleteWorker.markDeleteFailure s.outbox s.now row.id row.attempts error) s.now rest
          procs := s.setProc p .idle }
        else { s with
          outbox := DeleteWorker.markDeleteFailure s.outbox s.now row.id row.attempts error
          procs := s.setProc p (.draining rest) }) := by
    intro row rest hrest
    cases unavailable with
    | true =>
      exact hs.retry (SameWork.refl _).rows ((sameWork_markFailed _ _ _ _ _).trans (sameWork_release _ _ _)) trivial
        trivial
    | false =>
      refine hs.retry (SameWork.refl _).rows (sameWork_markFailed _ _ _ _ _) ?_ trivial
      intro h hh
      obtain ⟨hissued, hretired⟩ := hrest h hh
      exact ⟨hissued, hretired⟩
  have hproc := hs.proc p
  rw [Store.failDelete] at h
  split at h
  case h_1 row rest hp =>
    cases h
    rw [hp] at hproc
    exact hsettle row rest (fun h hh => hproc h (List.mem_cons_of_mem _ hh))
  case h_2 row rest hp =>
    cases h
    rw [hp] at hproc
    exact hsettle row rest (fun h hh => hproc.1 h (List.mem_cons_of_mem _ hh))
  case h_3 => cases h

/-- A step of a worker on its locks and on points of live chunks. -/
private theorem Sound.work (hs : Sound s) {x : Proc κ} {chunks : List (ChunkRow κ)} {points : List κ}
    {rowLocks : κ → Option ω} (hchunks : SameRows s.chunks chunks) (hpoints : ∀ c ∈ points, c ∈ s.points ∨ s.Live c)
    (hlocks : ∀ q, some p ≠ some q → ∀ c, s.rowLocks c = some q → rowLocks c = some q)
    (hx : ProcSound { s with chunks := chunks, points := points, rowLocks := rowLocks, procs := s.setProc p x } p x)
    (hwork : x.Working) :
    Sound { s with chunks := chunks, points := points, rowLocks := rowLocks, procs := s.setProc p x } := by
  refine hs.frame (some p) ⟨rfl, hchunks, rfl, fun _ _ h => h, fun _ h => h⟩ (fun o ho => ⟨o, ho, rfl, rfl⟩) (fun _ _ h => h) hpoints
    ?_ ?_ ?_
  · exact fun q hq => ⟨setProc_other hq, hlocks q hq, fun _ h => h⟩
  · rintro _ ⟨⟩
    change ProcSound _ p (s.setProc p x p)
    rw [setProc_self]
    exact hx
  · rintro _ d ⟨⟩ hd
    change s.setProc p x p = _ at hd
    rw [setProc_self] at hd
    rw [hd] at hwork
    exact hwork.elim

omit [DecidableEq ω] in
theorem live_of_has {c : κ} (h : s.has c = true) : s.Live c := by
  obtain ⟨r, hr, hid⟩ := List.any_eq_true.mp h
  exact ⟨r.data, List.mem_map.mpr ⟨r, hr, Prod.ext (of_decide_eq_true hid) rfl⟩⟩

omit [DecidableEq ω] in
theorem has_of_live {c : κ} (h : s.Live c) : s.has c = true := by
  obtain ⟨source, hmem⟩ := h
  obtain ⟨r, hr, he⟩ := List.mem_map.mp hmem
  exact List.any_eq_true.mpr ⟨r, hr, decide_eq_true (Prod.ext_iff.mp he).1⟩

theorem Sound.lockChunk (hs : Sound s) (h : s.lockChunk p = some s') : Sound s' := by
  rw [Store.lockChunk] at h
  split at h
  case h_2 => cases h
  case h_1 row rest _ =>
    split at h
    case isFalse =>
      cases h
      exact hs.retry (SameWork.refl _).rows (.refl _) trivial trivial
    case isTrue hhas =>
      obtain ⟨hfree, h⟩ := Option.ite_none_right_eq_some.mp h
      cases h
      refine hs.work (SameWork.refl _).rows (fun c hc => .inl hc) ?_ ⟨live_of_has hhas, if_pos rfl⟩
        trivial
      intro q _ c hc
      have hne : c ≠ row.id := by
        rintro rfl
        rw [hfree] at hc
        cases hc
      change (if c = row.id then some p else s.rowLocks c) = some q
      rw [if_neg hne]
      exact hc

omit [DecidableEq ω] in
private theorem mem_upsert {points : List κ} {b : Prop} [Decidable b] {c x : κ} (hl : s.Live c)
    (hx : x ∈ if b then Store.upsert points c else points) : x ∈ points ∨ s.Live x := by
  split at hx
  case isFalse => exact .inl hx
  case isTrue =>
    rw [Store.upsert] at hx
    split at hx
    · exact .inl hx
    · rcases List.mem_cons.mp hx with rfl | hx
      · exact .inr hl
      · exact .inl hx

theorem Sound.upsertPoint (hs : Sound s) (h : s.upsertPoint p = some s') : Sound s' := by
  have hproc := hs.proc p
  rw [Store.upsertPoint] at h
  split at h
  case h_2 => cases h
  case h_1 row rest hp =>
    cases h
    rw [hp] at hproc
    exact hs.work (SameWork.refl _).rows (fun c hc => mem_upsert hproc.1 hc) (fun _ _ _ hc => hc) hproc
      trivial

theorem Sound.commitStore (hs : Sound s) (h : s.commitStore p = some s') : Sound s' := by
  have hproc := hs.proc p
  rw [Store.commitStore] at h
  split at h
  case h_2 => cases h
  case h_1 row rest hp =>
    cases h
    rw [hp] at hproc
    exact hs.work (sameRows_markDone _ _ _) (fun c hc => mem_upsert hproc.1 hc) (fun _ hq _ hc => unlock_other hq hc)
      trivial trivial

theorem Sound.abortStore (hs : Sound s) (h : s.abortStore p = some s') : Sound s' := by
  rw [Store.abortStore] at h
  split at h
  case h_2 => cases h
  case h_1 row rest _ _ =>
    cases h
    exact hs.work (SameWork.refl _).rows (fun c hc => .inl hc) (fun _ hq _ hc => unlock_other hq hc) trivial
      trivial

theorem Sound.deletePoint (hs : Sound s) (h : s.deletePoint p = some s') : Sound s' := by
  have hproc := hs.proc p
  rw [Store.deletePoint] at h
  split at h
  case h_2 => cases h
  case h_1 row rest hp =>
    cases h
    rw [hp] at hproc
    refine hs.work (SameWork.refl _).rows ?_ (fun _ _ _ hc => hc) ⟨?_, ?_⟩ trivial
    · intro c hc
      split at hc
      · exact .inl (List.mem_of_mem_filter hc)
      · exact .inl hc
    · intro h hh
      obtain ⟨hissued, hretired⟩ := hproc h hh
      exact ⟨hissued, hretired⟩
    · intro hdriver hmem
      change s.driver = .external at hdriver
      change row.data.chunkId ∈ (if s.driver = .external then Store.forget s.points row.data.chunkId else s.points) at hmem
      rw [if_pos hdriver, Store.forget, List.mem_filter, decide_eq_true_eq] at hmem
      exact hmem.2 rfl

/-- When the delete commits, the point is gone. -/
theorem Sound.commitDelete (hs : Sound s) (h : s.commitDelete p = some s') : Sound s' := by
  have hproc := hs.proc p
  rw [Store.commitDelete] at h
  split at h
  case h_2 => cases h
  case h_1 row rest hp =>
    cases h
    rw [hp] at hproc
    obtain ⟨hclaims, hgone⟩ := hproc
    have hpoints : ∀ c ∈ (if s.driver = .joined then Store.forget s.points row.data.chunkId else s.points),
        c ∈ s.points ∧ c ≠ row.data.chunkId := by
      intro c hc
      split at hc
      case isTrue =>
        rw [Store.forget, List.mem_filter, decide_eq_true_eq] at hc
        exact hc
      case isFalse hdriver =>
        refine ⟨hc, ?_⟩
        rintro rfl
        refine hgone ?_ hc
        cases hd : s.driver with
        | joined => exact absurd hd hdriver
        | external => rfl
    refine hs.frame (some p) ⟨rfl, rfl, rfl, fun _ _ h => h, fun _ h => h⟩ ?_ ?_ (fun c hc => .inl (hpoints c hc).1) ?_ ?_ ?_
    · exact fun o' ho' => mem_of_sameRows (sameRows_markDone _ _ _) ho'
    · rintro c hc ⟨o, ho, hoc, hdone⟩
      have hne : o.id ≠ row.id := by
        intro hid
        have hissued := (hs.outbox o ho).1
        rw [hid, Store.Issued, (hclaims row List.mem_cons_self).issued] at hissued
        rw [← hoc, ← Option.some.inj hissued] at hc
        exact (hpoints _ hc).2 rfl
      refine ⟨o, List.mem_map.mpr ⟨o, ho, if_neg ?_⟩, hoc, hdone⟩
      rw [decide_eq_true_eq]
      exact hne
    · exact fun q hq => ⟨setProc_other hq, fun _ hc => hc, fun _ hc => hc⟩
    · rintro _ ⟨⟩
      change ProcSound _ p (s.setProc p _ p)
      rw [setProc_self]
      intro h hh
      obtain ⟨hissued, hretired⟩ := hclaims h (List.mem_cons_of_mem _ hh)
      exact ⟨hissued, hretired⟩
    · rintro _ d ⟨⟩ hd
      change s.setProc p _ p = _ at hd
      rw [setProc_self] at hd
      cases hd

omit [DecidableEq ω] in
theorem Sound.rescue (hs : Sound s) :
    Sound { s with chunks := rescueExpired s.chunks s.now, outbox := rescueExpired s.outbox s.now } :=
  hs.maintain (sameWork_rescue _ _).rows (fun _ ho => mem_of_sameRows (sameWork_rescue _ _).rows ho)
    (fun _ hp => pending_of_sameWork (sameWork_rescue _ _) hp) s.now s.vaults s.registered

omit [DecidableEq ω] in
theorem Sound.sweep (hs : Sound s) : Sound s.sweep := by
  refine hs.maintain (SameWork.refl _).rows ?_ ?_ s.now s.vaults s.registered
  · exact fun o ho => ⟨o, List.mem_of_mem_filter ho, rfl, rfl⟩
  · rintro c ⟨o, ho, hc, hdone⟩
    refine ⟨o, List.mem_filter.mpr ⟨ho, ?_⟩, hc, hdone⟩
    rw [hdone]
    rfl

omit [DecidableEq ω] in
theorem Sound.world (hs : Sound s) (now : Int) (vaults : List κ) (registered : List (Source κ)) :
    Sound { s with now := now, vaults := vaults, registered := registered } :=
  hs.maintain (SameWork.refl _).rows (fun o ho => ⟨o, ho, rfl, rfl⟩) (fun _ hp => hp) now vaults registered

end Akb.Vectors
