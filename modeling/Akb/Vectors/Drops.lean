import Akb.Vectors.Steps

/-! The statements inside a drop, before it commits. -/
namespace Akb.Vectors
open Akb.Queues Akb.Library
variable {κ ω : Type} [LinearOrder κ]

section
variable [DecidableEq ω] {s s' : Store κ ω} {p : ω} {d d₁ : Drop κ}

/-- A step inside a drop that takes locks and moves it on. -/
private theorem Sound.advance (hs : Sound s) (hp : s.procs p = .dropping d) {rowLocks : κ → Option ω}
    (hlocks : ∀ q, some p ≠ some q → ∀ c, s.rowLocks c = some q → rowLocks c = some q)
    (hd : DropSound { s with rowLocks := rowLocks, procs := s.setProc p (.dropping d₁) } p d₁)
    (hfresh : d₁.fresh = d.fresh) : Sound { s with rowLocks := rowLocks, procs := s.setProc p (.dropping d₁) } := by
  refine hs.frame (some p) ⟨rfl, rfl, rfl, fun _ _ h => h, fun _ h => h⟩ (fun o ho => ⟨o, ho, rfl, rfl⟩)
    (fun _ _ h => h) (fun c hc => .inl hc) ?_ ?_ ?_
  · exact fun q hq => ⟨setProc_other hq, hlocks q hq, fun _ h => h⟩
  · rintro _ ⟨⟩
    change ProcSound _ p (s.setProc p _ p)
    rw [setProc_self]
    exact hd
  · rintro _ d₂ ⟨⟩ hd₂ r hr
    change s.setProc p _ p = _ at hd₂
    rw [setProc_self] at hd₂
    cases hd₂
    exact .inl ⟨d, hp, hfresh ▸ hr⟩

theorem Sound.startDelete (hs : Sound s) (h : s.startDelete p = some s') : Sound s' := by
  have hproc := hs.proc p
  rw [Store.startDelete] at h
  split at h
  case h_2 => cases h
  case h_1 d hp =>
    obtain ⟨hselected, h⟩ := Option.ite_none_right_eq_some.mp h
    cases h
    rw [hp] at hproc
    have hd : DropSound s p d := hproc
    have hprogress := hd.progress
    rw [hselected] at hprogress
    have hsnapshot : ∀ c, c ∈ (s.chunks.filter (fun r => d.scope.selects r.data)).map QueueRow.id ↔
        ∃ source, (c, source) ∈ s.held ∧ d.scope.selects source = true := by
      intro c
      constructor
      · intro hc
        obtain ⟨r, hr, rfl⟩ := List.mem_map.mp hc
        obtain ⟨hmem, hsel⟩ := List.mem_filter.mp hr
        exact ⟨r.data, List.mem_map_of_mem hmem, hsel⟩
      · rintro ⟨source, hmem, hsel⟩
        obtain ⟨r, hr, he⟩ := List.mem_map.mp hmem
        obtain ⟨rfl, rfl⟩ := Prod.ext_iff.mp he
        exact List.mem_map_of_mem (List.mem_filter.mpr ⟨hr, hsel⟩)
    refine hs.advance hp (fun _ _ _ hc => hc) ⟨hd.enqueued, hd.within, ⟨?_, ?_, ?_⟩, hd.fresh, hd.freshUnique, hd.vault⟩ rfl
    · intro c hc
      obtain ⟨source, hmem, _⟩ := (hsnapshot c).mp hc
      exact .inr ⟨source, hmem⟩
    · intro c hc _
      obtain ⟨source, hmem, hsel⟩ := (hsnapshot c).mp hc
      exact hprogress (c, source) hmem hsel
    · rintro c hn ⟨source, hmem⟩
      exact (hsnapshot c).mpr ⟨source, hmem, hd.within (c, source) hmem hn⟩

theorem Sound.finishDelete (hs : Sound s) (h : s.finishDelete p = some s') : Sound s' := by
  have hproc := hs.proc p
  rw [Store.finishDelete] at h
  split at h
  case h_2 => cases h
  case h_1 d hp =>
    split at h
    case h_2 => cases h
    case h_1 snapshot hwaiting =>
      obtain ⟨hfree, h⟩ := Option.ite_none_right_eq_some.mp h
      cases h
      rw [hp] at hproc
      have hd : DropSound s p d := hproc
      have hprogress := hd.progress
      rw [hwaiting] at hprogress
      obtain ⟨_, hnames, hall⟩ := hprogress
      set ids := snapshot.filter (fun c => s.has c) with hids
      have hmem : ∀ c, c ∈ ids ↔ c ∈ snapshot ∧ s.Live c := by
        intro c
        rw [hids, List.mem_filter]
        exact and_congr_right (fun _ => ⟨live_of_has, has_of_live⟩)
      refine hs.advance hp ?_ ⟨hd.enqueued, hd.within, ⟨?_, ?_⟩, hd.fresh, hd.freshUnique, hd.vault⟩ rfl
      · intro q _ c hc
        have hout : c ∉ ids := by
          intro hmem
          have hnone := of_decide_eq_true (List.all_eq_true.mp hfree c hmem)
          rw [hnone] at hc
          cases hc
        change (if c ∈ ids then some p else s.rowLocks c) = some q
        rw [if_neg hout]
        exact hc
      · intro c hc
        obtain ⟨hsnap, hlive⟩ := (hmem c).mp hc
        exact ⟨hlive, if_pos hc, hnames c hsnap hlive⟩
      · exact fun c hn hlive => (hmem c).mpr ⟨hall c hn hlive, hlive⟩

theorem Sound.insertChunk (hs : Sound s) {id : κ} (h : s.insertChunk p id = some s') : Sound s' := by
  have hproc := hs.proc p
  rw [Store.insertChunk] at h
  split at h
  case h_2 => cases h
  case h_1 d hp =>
    split at h
    case h_2 => cases h
    case h_1 ids source hdeleted hscope =>
      obtain ⟨hnew, h⟩ := Option.ite_none_left_eq_some.mp h
      cases h
      rw [hp] at hproc
      have hd : DropSound s p d := hproc
      refine hs.frame (some p) ⟨rfl, rfl, rfl, fun _ _ h => h, fun _ h => List.mem_cons_of_mem _ h⟩
        (fun o ho => ⟨o, ho, rfl, rfl⟩) (fun _ _ h => h) (fun c hc => .inl hc) ?_ ?_ ?_
      · exact fun q hq => ⟨setProc_other hq, fun _ h => h, fun _ h => h⟩
      · rintro _ ⟨⟩
        change ProcSound _ p (s.setProc p _ p)
        rw [setProc_self]
        refine ⟨hd.enqueued, hd.within, ?_, ?_, ?_, hd.vault⟩
        · have hprogress := hd.progress
          cases hcase : d.progress <;> rw [hcase] at hprogress <;> exact hprogress
        · intro r hr
          rcases List.mem_append.mp hr with hr | hr
          · obtain ⟨hu, hk⟩ := hd.fresh r hr
            exact ⟨List.mem_cons_of_mem _ hu, hk⟩
          · rw [List.mem_singleton.mp hr]
            exact ⟨List.mem_cons_self, fun hk => hnew (hs.used id hk)⟩
        · rw [List.map_append, List.map_singleton, List.nodup_append]
          refine ⟨hd.freshUnique, List.nodup_singleton _, ?_⟩
          rintro c hc _ hid rfl
          obtain ⟨r, hr, rfl⟩ := List.mem_map.mp hc
          have hid : r.id = id := List.mem_singleton.mp hid
          exact hnew (hid ▸ (hd.fresh r hr).1)
      · rintro _ d₂ ⟨⟩ hd₂ r hr
        change s.setProc p _ p = _ at hd₂
        rw [setProc_self] at hd₂
        cases hd₂
        rcases List.mem_append.mp hr with hr | hr
        · exact .inl ⟨d, hp, hr⟩
        · rw [List.mem_singleton.mp hr]
          exact .inr hnew

theorem Sound.stop (hs : Sound s) : Sound (s.stop p) := by
  refine hs.frame (some p) ⟨rfl, rfl, rfl, fun _ _ h => h, fun _ h => h⟩ (fun o ho => ⟨o, ho, rfl, rfl⟩)
    (fun _ _ h => h) (fun c hc => .inl hc) ?_ ?_ ?_
  · exact fun q hq => ⟨setProc_other hq, fun _ hc => unlock_other hq hc, fun _ hv => unlock_other hq hv⟩
  · rintro _ ⟨⟩
    change ProcSound _ p (s.setProc p .idle p)
    rw [setProc_self]
    trivial
  · rintro _ d₂ ⟨⟩ hd₂
    change s.setProc p .idle p = _ at hd₂
    rw [setProc_self] at hd₂
    cases hd₂

end

section enqueue
variable {s : Store κ ω}

omit [LinearOrder κ] in
/-- The ids drawn for an INSERT stand for the deletes that it enqueues. -/
theorem enqueueDeletes_spec {rows : List (ChunkRow κ)} {o : OutboxRow κ} (ho : o ∈ s.enqueueDeletes rows) :
    o.doneAt = none ∧ (s.issued ++ rows.map Store.deleteOf)[o.id]? = some o.data ∧
      ∃ r ∈ rows, o.data.chunkId = r.id := by
  obtain ⟨e, he, rfl⟩ := List.mem_map.mp ho
  obtain ⟨r, i⟩ := e
  obtain ⟨_, hlt, hr⟩ := List.mem_zipIdx he
  have hi : rows[i]? = some r := by
    rw [List.getElem?_eq_some_iff]
    exact ⟨by simpa using hlt, by simpa using hr.symm⟩
  refine ⟨rfl, ?_, r, List.mem_of_getElem? hi, rfl⟩
  rw [List.getElem?_append_right (Nat.le_add_right _ _), Nat.add_sub_cancel_left, List.getElem?_map, hi]
  rfl

omit [LinearOrder κ] in
theorem names_enqueueDeletes {rows : List (ChunkRow κ)} {r : ChunkRow κ} (hr : r ∈ rows) :
    ∃ o ∈ s.enqueueDeletes rows, o.data.chunkId = r.id := by
  obtain ⟨i, hi⟩ := List.mem_iff_getElem?.mp hr
  refine ⟨_, List.mem_map.mpr ⟨(r, i), ?_, rfl⟩, rfl⟩
  exact List.mem_zipIdx_iff_getElem?.mpr hi

omit [LinearOrder κ] in
theorem issued_append {id : Nat} {e : DeleteData κ} (h : s.Issued id e) (ds : List (DeleteData κ)) :
    (s.issued ++ ds)[id]? = some e := by
  rw [List.getElem?_append_left (List.getElem?_eq_some_iff.mp h).1]
  exact h

end enqueue

end Akb.Vectors
