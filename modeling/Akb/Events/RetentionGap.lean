import Akb.Events.Publisher

/-! Opening a tail at a cursor, and when the retention check it rests on is sound:
the check sees the smallest retained id only. -/
namespace Akb.Events
open Akb.Library
variable {Vault Tx Worker : Type} [DecidableEq Vault]

structure EventBounds where
  earliestId : Option Nat
  latestId : Option Nat
  deriving DecidableEq

def getVaultEventBounds (l : EventLog Vault Tx) (vault : Vault) : EventBounds :=
  ⟨((vaultRows l vault).map EventRow.id).min?, ((vaultRows l vault).map EventRow.id).max?⟩

/-- The sealed cursor format, which carries a vault, its kind scope and a position. -/
structure EventCursorCodec (Vault : Type) where
  encode : Vault → List String → Nat → String
  decode : String → Option (Vault × List String × Nat)

inductive TailError where
  | invalidCursor
  | eventGap (earliestCursor latestCursor : String)
  deriving DecidableEq

def resolveStartPosition (codec : EventCursorCodec Vault) (vault : Vault) (kinds : List String) (bounds : EventBounds)
    (lastEventId cursor start : Option String) : Except TailError Nat :=
  if start ≠ none ∧ start ≠ some "earliest" then .error .invalidCursor
  else
    match start, lastEventId.or cursor with
    | some _, some _ => .error .invalidCursor
    | none, some selected =>
      match codec.decode selected with
      | some (decodedVault, decodedKinds, position) =>
        if decodedVault ≠ vault ∨ decodedKinds ≠ kinds then .error .invalidCursor else .ok position
      | none => .error .invalidCursor
    | some _, none => .ok (bounds.earliestId.getD 1 - 1)
    | none, none => .ok (bounds.latestId.getD 0)

/-- Reject a cursor that cannot reach the retained head without a gap. -/
def validateEventGap (codec : EventCursorCodec Vault) (vault : Vault) (kinds : List String) (position : Nat)
    (bounds : EventBounds) : Except TailError Unit :=
  match bounds.earliestId with
  | none => .ok ()
  | some earliest =>
    if (earliest : Int) - 1 ≤ position then .ok ()
    else .error (.eventGap (codec.encode vault kinds (earliest - 1))
      (codec.encode vault kinds (bounds.latestId.getD position)))

def openTail (codec : EventCursorCodec Vault) (l : EventLog Vault Tx) (vault : Vault) (kinds : List String)
    (lastEventId cursor start : Option String) : Except TailError (Tail Vault) := do
  let bounds := getVaultEventBounds l vault
  let position ← resolveStartPosition codec vault kinds bounds lastEventId cursor start
  validateEventGap codec vault kinds position bounds
  return Tail.opened vault kinds position

theorem validateEventGap_ok_iff {codec : EventCursorCodec Vault} {l : EventLog Vault Tx} {vault : Vault}
    {kinds : List String} {position : Nat} :
    validateEventGap codec vault kinds position (getVaultEventBounds l vault) = .ok () ↔
      vaultRows l vault = [] ∨ ∃ r ∈ vaultRows l vault, r.id ≤ position + 1 := by
  unfold validateEventGap getVaultEventBounds
  cases h : ((vaultRows l vault).map EventRow.id).min? with
  | none =>
    rw [List.min?_eq_none_iff, List.map_eq_nil_iff] at h
    simp [h]
  | some earliest =>
    obtain ⟨hmem, hmin⟩ := List.min?_eq_some_iff.mp h
    obtain ⟨first, hfirst, rfl⟩ := List.mem_map.mp hmem
    have hne : vaultRows l vault ≠ [] := List.ne_nil_of_mem hfirst
    dsimp only
    split
    · exact iff_of_true rfl (Or.inr ⟨first, hfirst, by omega⟩)
    · rename_i hgap
      refine iff_of_false (by simp) ?_
      rintro (hnil | ⟨r, hr, hle⟩)
      · exact hne hnil
      · have hle' := hmin r.id (List.mem_map_of_mem hr)
        omega

def purgedRows (s : Outbox Vault Tx Worker) (vault : Vault) : List (EventRow Vault) :=
  s.purged.filter (fun r => r.ofVault vault)

/-- What the smallest retained id must say about the purged ones. -/
def RetainsSuffix (s : Outbox Vault Tx Worker) (vault : Vault) : Prop :=
  purgedRows s vault = [] ∨
    (vaultRows s.log vault ≠ [] ∧ ∀ q ∈ purgedRows s vault, ∀ r ∈ vaultRows s.log vault, q.id < r.id)

/-- In one state, each accepted position is free of purged events above it
exactly when the retained ids are a nonempty suffix, or nothing was purged. -/
theorem gap_check_sound_iff (codec : EventCursorCodec Vault) (s : Outbox Vault Tx Worker) (vault : Vault)
    (kinds : List String) (hpos : ∀ q ∈ purgedRows s vault, 0 < q.id) :
    (∀ position, validateEventGap codec vault kinds position (getVaultEventBounds s.log vault) = .ok () →
      ∀ q ∈ purgedRows s vault, q.id ≤ position) ↔ RetainsSuffix s vault := by
  constructor
  · intro h
    by_cases hpurged : purgedRows s vault = []
    · exact Or.inl hpurged
    · obtain ⟨q, hq⟩ := List.exists_mem_of_ne_nil _ hpurged
      refine Or.inr ⟨fun hnil => ?_, fun q hq r hr => ?_⟩
      · have hle := h 0 (validateEventGap_ok_iff.mpr (Or.inl hnil)) q hq
        exact absurd (hpos q hq) hle.not_gt
      · have hle := h (r.id - 1) (validateEventGap_ok_iff.mpr (Or.inr ⟨r, hr, by omega⟩)) q hq
        have hp := hpos q hq
        omega
  · rintro (hnil | ⟨hne, hbelow⟩) position hok q hq
    · rw [hnil] at hq
      cases hq
    · rcases validateEventGap_ok_iff.mp hok with hnil | ⟨r, hr, hle⟩
      · exact absurd hnil hne
      · exact Nat.lt_succ_iff.mp ((hbelow q hq r hr).trans_le hle)

variable [DecidableEq Tx] [DecidableEq Worker]

/-- A sweep that deletes rows of the vault deletes only ids below each id that
stays, and leaves at least one. -/
def SweepsPrefix (s : Outbox Vault Tx Worker) (vault : Vault) : Prop :=
  (∀ d ∈ vaultRows s.log vault, d.sweepable s.now = false) ∨
    ((∃ k ∈ vaultRows s.log vault, k.sweepable s.now = false) ∧
      ∀ d ∈ vaultRows s.log vault, d.sweepable s.now → ∀ k ∈ vaultRows s.log vault,
        k.sweepable s.now = false → d.id < k.id)

/-- A transaction that commits drew its ids of the vault after each purged one. -/
def CommitsAbovePurged (s : Outbox Vault Tx Worker) (vault : Vault) (tx : Tx) : Prop :=
  ∀ e ∈ s.log.openRows, e.1 = tx → e.2.ofVault vault → ∀ q ∈ purgedRows s vault, q.id < e.2.id

/-- The side condition on a step. -/
def KeepsSuffix (vault : Vault) (s : Outbox Vault Tx Worker) : OutboxAction Vault Tx Worker → Prop
  | .write (.commit tx) => CommitsAbovePurged s vault tx
  | .sweep worker => s.sweepDue worker → SweepsPrefix s vault
  | _ => True

/-- The ids a vault has in the table. -/
def retainedIds (l : EventLog Vault Tx) (vault : Vault) : List Nat := (vaultRows l vault).map EventRow.id

omit [DecidableEq Tx] in
theorem retainedIds_updateRows {l : EventLog Vault Tx} {f : EventRow Vault → EventRow Vault}
    (hf : ∀ r, (f r).id = r.id) (hv : ∀ r, (f r).vaultId = r.vaultId) (vault : Vault) :
    retainedIds (l.updateRows f hf) vault = retainedIds l vault := by
  have hof : (fun r => r.ofVault vault) ∘ f = fun r : EventRow Vault => r.ofVault vault := by
    funext r
    simp [EventRow.ofVault, hv]
  simp only [retainedIds, vaultRows, EventLog.updateRows, List.filter_map, List.map_map, hof]
  exact List.map_congr_left (fun r _ => hf r)

omit [DecidableEq Tx] in
theorem retainedIds_markPublished (l : EventLog Vault Tx) (now : Int) (eventId : Nat) (vault : Vault) :
    retainedIds (markPublished l now eventId) vault = retainedIds l vault :=
  retainedIds_updateRows (fun r => by split <;> rfl) (fun r => by split <;> rfl) vault

omit [DecidableEq Tx] in
theorem retainedIds_markFailure (l : EventLog Vault Tx) (now : Int) (eventId attempts : Nat) (error : String)
    (vault : Vault) : retainedIds (markFailure l now eventId attempts error) vault = retainedIds l vault :=
  retainedIds_updateRows (fun r => by split <;> rfl) (fun r => by split <;> rfl) vault

omit [DecidableEq Tx] in
theorem retainedIds_releaseUnattempted (l : EventLog Vault Tx) (now : Int) (rows : List (EventRow Vault))
    (vault : Vault) : retainedIds (releaseUnattempted l now rows) vault = retainedIds l vault := by
  cases rows with
  | nil => rfl
  | cons first rest => exact retainedIds_updateRows (fun r => by split <;> rfl) (fun r => by split <;> rfl) vault

omit [DecidableEq Tx] in
theorem retainedIds_claimBatch (l : EventLog Vault Tx) (now : Int) (locked : List Nat) (vault : Vault) :
    retainedIds (claimBatch l now locked).2 vault = retainedIds l vault :=
  retainedIds_updateRows (fun r => by split <;> rfl) (fun r => by split <;> rfl) vault

omit [DecidableEq Tx] in
theorem retainedIds_rescueEvents (l : EventLog Vault Tx) (now : Int) (vault : Vault) :
    retainedIds (rescueEvents l now) vault = retainedIds l vault :=
  retainedIds_updateRows (fun r => by split <;> rfl) (fun r => by split <;> rfl) vault

/-- Only a commit and a due sweep change which ids are retained or purged. -/
theorem outbox_step_cases {s s' : Outbox Vault Tx Worker} {a : OutboxAction Vault Tx Worker} (h : s.step a s') :
    (s'.purged = s.purged ∧ ∀ vault : Vault, retainedIds s'.log vault = retainedIds s.log vault) ∨
    (∃ tx, a = .write (.commit tx) ∧ s' = { s with log := s.log.commit tx }) ∨
    ∃ worker, a = .sweep worker ∧ s.sweepDue worker ∧
      s'.log = s.log.deleteRows (fun r => r.sweepable s.now) ∧
      s'.purged = s.purged ++ s.log.rows.filter (fun r => r.sweepable s.now) := by
  unfold Outbox.step at h
  cases a with
  | write w =>
    cases h
    cases w with
    | emit tx now e => exact Or.inl ⟨rfl, fun _ => rfl⟩
    | commit tx => exact Or.inr (Or.inl ⟨tx, rfl, rfl⟩)
    | rollback tx => exact Or.inl ⟨rfl, fun _ => rfl⟩
  | claim worker locked =>
    cases h
    exact Or.inl ⟨rfl, retainedIds_claimBatch _ _ _⟩
  | published worker eventId =>
    obtain ⟨_, h⟩ := Option.ite_none_right_eq_some.mp h
    cases h
    exact Or.inl ⟨rfl, retainedIds_markPublished _ _ _⟩
  | failed worker eventId error =>
    obtain ⟨row, _, rfl⟩ := Option.map_eq_some_iff.mp h
    refine Or.inl ⟨rfl, fun vault => ?_⟩
    rw [retainedIds_releaseUnattempted, retainedIds_markFailure]
  | rescue =>
    cases h
    exact Or.inl ⟨rfl, retainedIds_rescueEvents _ _⟩
  | sweep worker =>
    cases h
    unfold sweepOnce
    split
    · rename_i hdue
      exact Or.inr (Or.inr ⟨worker, rfl, hdue, rfl, rfl⟩)
    · exact Or.inl ⟨rfl, fun _ => rfl⟩
  | restart worker monotonic =>
    cases h
    exact Or.inl ⟨rfl, fun _ => rfl⟩
  | elapse seconds =>
    cases h
    exact Or.inl ⟨rfl, fun _ => rfl⟩

omit [DecidableEq Tx] [DecidableEq Worker] in
theorem retainsSuffix_iff {s : Outbox Vault Tx Worker} {vault : Vault} :
    RetainsSuffix s vault ↔ purgedRows s vault = [] ∨
      (retainedIds s.log vault ≠ [] ∧ ∀ q ∈ purgedRows s vault, ∀ i ∈ retainedIds s.log vault, q.id < i) := by
  simp [RetainsSuffix, retainedIds]

theorem retainsSuffix_step (vault : Vault) (s : Outbox Vault Tx Worker) (a : OutboxAction Vault Tx Worker)
    (s' : Outbox Vault Tx Worker) (h : RetainsSuffix s vault)
    (hstep : Guarded Outbox.step (KeepsSuffix vault) s a s') : RetainsSuffix s' vault := by
  obtain ⟨hstep, hguard⟩ := hstep
  rcases outbox_step_cases hstep with ⟨hpurged, hids⟩ | ⟨tx, rfl, rfl⟩ | ⟨worker, rfl, hdue, hlog, hpurged⟩
  · rw [retainsSuffix_iff, hids, purgedRows, hpurged]
    exact retainsSuffix_iff.mp h
  · refine h.imp id (fun ⟨hne, hbelow⟩ => ⟨?_, ?_⟩)
    · obtain ⟨r, hr⟩ := List.exists_mem_of_ne_nil _ hne
      obtain ⟨hr, hv⟩ := mem_vaultRows.mp hr
      exact List.ne_nil_of_mem (mem_vaultRows.mpr ⟨EventLog.mem_commit.mpr (Or.inl hr), hv⟩)
    · intro q hq r hr
      obtain ⟨hr, hv⟩ := mem_vaultRows.mp hr
      rcases EventLog.mem_commit.mp hr with hr | hr
      · exact hbelow q hq r (mem_vaultRows.mpr ⟨hr, hv⟩)
      · exact hguard _ hr rfl hv q hq
  · have hrows (r : EventRow Vault) : r ∈ vaultRows s'.log vault ↔ r ∈ vaultRows s.log vault ∧ r.sweepable s.now = false := by
      rw [hlog, mem_vaultRows, mem_vaultRows]
      simp only [EventLog.deleteRows, List.mem_filter, Bool.not_eq_true']
      tauto
    have hold (q : EventRow Vault) : q ∈ purgedRows s' vault ↔
        q ∈ purgedRows s vault ∨ (q ∈ vaultRows s.log vault ∧ q.sweepable s.now) := by
      rw [purgedRows, hpurged, List.filter_append, List.mem_append, ← purgedRows, mem_vaultRows]
      simp only [List.mem_filter]
      tauto
    rcases hguard hdue with hnone | ⟨⟨k, hk, hkeep⟩, hprefix⟩
    · -- Nothing of this vault goes, so both sides stay as they are.
      have hp : ∀ q, q ∈ purgedRows s' vault ↔ q ∈ purgedRows s vault := by
        intro q
        rw [hold]
        exact or_iff_left (fun hq => by simp [hnone q hq.1] at hq)
      have hr : ∀ r, r ∈ vaultRows s'.log vault ↔ r ∈ vaultRows s.log vault := by
        intro r
        rw [hrows]
        exact and_iff_left_of_imp (hnone r)
      rcases h with hnil | ⟨hne, hbelow⟩
      · refine Or.inl (List.eq_nil_iff_forall_not_mem.mpr (fun q hq => ?_))
        rw [hp, hnil] at hq
        cases hq
      · obtain ⟨r, hrm⟩ := List.exists_mem_of_ne_nil _ hne
        exact Or.inr ⟨List.ne_nil_of_mem ((hr r).mpr hrm),
          fun q hq r hrm => hbelow q ((hp q).mp hq) r ((hr r).mp hrm)⟩
    · refine Or.inr ⟨List.ne_nil_of_mem ((hrows k).mpr ⟨hk, hkeep⟩), fun q hq r hr => ?_⟩
      obtain ⟨hr, hrkeep⟩ := (hrows r).mp hr
      rcases (hold q).mp hq with hq | ⟨hq, hdoomed⟩
      · rcases h with hnil | ⟨_, hbelow⟩
        · rw [hnil] at hq
          cases hq
        · exact hbelow q hq r hr
      · exact hprefix q hq hdoomed r hr hrkeep

/-- In every history whose sweeps purge a proper prefix of the vault's ids and
whose commits stay above the purged ids, an accepted position has no purged
event of the vault above it. -/
theorem accepted_position_has_no_gap (codec : EventCursorCodec Vault) (vault : Vault) (kinds : List String) (now : Int)
    {s : Outbox Vault Tx Worker} {actions : List (OutboxAction Vault Tx Worker)}
    (hrun : Run (Guarded Outbox.step (KeepsSuffix vault)) (.fresh now) actions s) (position : Nat)
    (hok : validateEventGap codec vault kinds position (getVaultEventBounds s.log vault) = .ok ()) :
    ∀ q ∈ s.purged, q.vaultId = some vault → q.id ≤ position := by
  have hinv := hrun.invariant (retainsSuffix_step vault) (Or.inl rfl)
  intro q hq hv
  have hq : q ∈ purgedRows s vault := List.mem_filter.mpr ⟨hq, by simpa [EventRow.ofVault] using hv⟩
  rcases hinv with hnil | ⟨hne, hbelow⟩
  · rw [hnil] at hq
    cases hq
  · rcases validateEventGap_ok_iff.mp hok with hnil | ⟨r, hr, hle⟩
    · exact absurd hnil hne
    · exact Nat.lt_succ_iff.mp ((hbelow q hq r hr).trans_le hle)

instance (s : Outbox Vault Tx Worker) (vault : Vault) : Decidable (SweepsPrefix s vault) :=
  inferInstanceAs (Decidable (_ ∨ (∃ k ∈ vaultRows s.log vault, _) ∧ _))

instance (s : Outbox Vault Tx Worker) (vault : Vault) (tx : Tx) : Decidable (CommitsAbovePurged s vault tx) :=
  inferInstanceAs (Decidable (∀ e ∈ s.log.openRows, _))

instance (vault : Vault) (s : Outbox Vault Tx Worker) (a : OutboxAction Vault Tx Worker) :
    Decidable (KeepsSuffix vault s a) := by
  unfold KeepsSuffix
  split <;> infer_instance

/-- The first of two events is published, and a sweep comes eight days later. -/
def firstPublishedAndSwept : List (OutboxAction Nat Nat Nat) :=
  [.write (.emit 1 0 documentPut), .write (.commit 1), .claim 0 [], .published 0 1,
    .write (.emit 1 0 documentPut), .write (.commit 1), .elapse 691200, .sweep 0]

/-- A codec that seals a position as that many characters. -/
def tallyCodec : EventCursorCodec Nat where
  encode _ _ position := String.ofList (List.replicate position 'i')
  decode token := some (7, [], token.length)

theorem accepted_position_after_sweep :
    ∃ s : Outbox Nat Nat Nat, s.purged.map EventRow.id = [1] ∧ retainedIds s.log 7 = [2] ∧
      ∀ q ∈ s.purged, q.vaultId = some 7 → q.id ≤ 1 := by
  have hsome : ((execute (fun s a => if KeepsSuffix 7 s a then s.next a else none) (.fresh 0)
      firstPublishedAndSwept).map (fun s => (s.purged.map EventRow.id, retainedIds s.log 7))) = some ([1], [2]) := by
    decide
  obtain ⟨s, hs, hids⟩ := Option.map_eq_some_iff.mp hsome
  obtain ⟨hpurged, hretained⟩ := Prod.mk.inj hids
  have hrow : ∃ r ∈ vaultRows s.log 7, r.id ≤ 1 + 1 := by
    obtain ⟨r, hr, hid⟩ := List.mem_map.mp (show 2 ∈ retainedIds s.log 7 by rw [hretained]; simp)
    exact ⟨r, hr, hid.le⟩
  exact ⟨s, hpurged, hretained, accepted_position_has_no_gap tallyCodec 7 [] 0 (guarded_run_of_execute hs) 1
    (validateEventGap_ok_iff.mpr (Or.inr hrow))⟩

/-- The positions a tail of the vault can have over this log: a start, or the id of an event. -/
def TailPosition (l : EventLog Vault Tx) (vault : Vault) (position : Nat) : Prop :=
  position = (getVaultEventBounds l vault).latestId.getD 0 ∨
    position = (getVaultEventBounds l vault).earliestId.getD 1 - 1 ∨ ∃ r ∈ vaultRows l vault, r.id = position

/-- Each attempt to publish event 1 fails, the last one abandons it. -/
def abandonFirst : List (OutboxAction Nat Nat Nat) :=
  (List.replicate maxRetries [.claim 0 [], .failed 0 1 "XADD failed", .elapse 21600]).flatten

/-- Event 1 stays abandoned while event 2 is published and purged: a tail that
stopped at 1 is accepted again and never learns of 2. -/
theorem abandoned_event_hides_gap :
    ¬ ∀ (codec : EventCursorCodec Nat) (vault : Nat) (kinds : List String) (now : Int) (s₀ s : Outbox Nat Nat Nat)
      (before after : List (OutboxAction Nat Nat Nat)) (position : Nat),
      Run Outbox.step (.fresh now) before s₀ → TailPosition s₀.log vault position → Run Outbox.step s₀ after s →
      validateEventGap codec vault kinds position (getVaultEventBounds s.log vault) = .ok () →
      ∀ q ∈ s.purged, q.vaultId = some vault → q.id ≤ position := by
  intro h
  have hbefore : ((execute Outbox.next (Outbox.fresh 0 : Outbox Nat Nat Nat)
      [.write (.emit 1 0 documentPut), .write (.commit 1)]).any (fun s₀ => retainedIds s₀.log 7 = [1] ∧
        (execute Outbox.next s₀ (abandonFirst ++ [.write (.emit 1 0 documentPut), .write (.commit 1), .claim 0 [],
          .published 0 2, .elapse 691200, .sweep 0])).any (fun s => retainedIds s.log 7 = [1] ∧
            s.purged.any (fun q => q.vaultId = some 7 ∧ ¬ q.id ≤ 1)))) := by decide +kernel
  obtain ⟨s₀, hs₀, hafter⟩ := (Option.any_eq_true _ _).mp hbefore
  obtain ⟨hfirst, hafter⟩ := of_decide_eq_true hafter
  obtain ⟨s, hs, hend⟩ := (Option.any_eq_true _ _).mp hafter
  obtain ⟨hkept, hgone⟩ := of_decide_eq_true hend
  obtain ⟨q, hq, hlost⟩ := List.any_eq_true.mp hgone
  obtain ⟨hv, hgt⟩ := of_decide_eq_true hlost
  have hrow (l : EventLog Nat Nat) (hl : retainedIds l 7 = [1]) : ∃ r ∈ vaultRows l 7, r.id = 1 :=
    List.mem_map.mp (show 1 ∈ retainedIds l 7 by rw [hl]; simp)
  have hok : validateEventGap tallyCodec 7 [] 1 (getVaultEventBounds s.log 7) = .ok () := by
    obtain ⟨r, hr, hid⟩ := hrow _ hkept
    exact validateEventGap_ok_iff.mpr (Or.inr ⟨r, hr, by omega⟩)
  exact hgt (h tallyCodec 7 [] 0 s₀ s _ _ 1 (run_of_execute hs₀) (Or.inr (Or.inr (hrow _ hfirst)))
    (run_of_execute hs) hok q hq hv)

end Akb.Events
