import Akb.Authority.Steps

/-! The fence of an existing database only moves forward, and the authority that is
committed is the one its receipt recorded. -/
namespace Akb.Authority
open Akb.Library
variable {ι : Type} [LinearOrder ι]

/-- The three records of a cutover, as far as it has come. -/
inductive Phase : Option (LegacyFence ι) → List (Receipt ι) → List (ExistingAuthority ι) → Prop
  | absent : Phase none [] []
  | opened : Phase (some ⟨0, .open, none⟩) [] []
  | fenced (r : Receipt ι) : Phase (some ⟨r.legacyWriteEpoch, .fenced, some r.cutoverId⟩) [r] []
  | committed (r : Receipt ι) (authorityId : ι) :
      Phase (some ⟨r.legacyWriteEpoch, .committed, some r.cutoverId⟩) [r]
        [⟨authorityId, r.cutoverId, r.identity, r.snapshot, r.legacyWriteEpoch⟩]

namespace Phase
variable {l : LegacyFence ι} {rs : List (Receipt ι)} {xs : List (ExistingAuthority ι)}

omit [LinearOrder ι] in
theorem existing_of_durable {l : Option (LegacyFence ι)} (h : Phase l rs xs) (hrs : rs = []) : xs = [] := by
  cases h with
  | absent => rfl
  | opened => rfl
  | fenced r => rfl
  | committed r id => cases hrs

omit [LinearOrder ι] in
theorem of_open (h : Phase (some l) rs xs) (hl : l.state = .open) : l = ⟨0, .open, none⟩ := by
  cases h with
  | opened => rfl
  | fenced r => cases hl
  | committed r id => cases hl

omit [LinearOrder ι] in
theorem of_fenced (h : Phase (some l) rs xs) (hl : l.state = .fenced) :
    ∃ r, l = ⟨r.legacyWriteEpoch, .fenced, some r.cutoverId⟩ ∧ rs = [r] := by
  cases h with
  | opened => cases hl
  | fenced r => exact ⟨r, rfl, rfl⟩
  | committed r id => cases hl

end Phase

def Database.phase (d : Database ι) : Prop := Phase d.legacyFence d.durable.rows d.existing.rows

section Phases
variable {canonicalDigest : List (Binding ι) → Text} {d d' : Database ι}

/-- What one event does to the three records. -/
inductive Advance (canonicalDigest : List (Binding ι) → Text) (d : Database ι) (e : Event ι) (d' : Database ι) : Prop
  | stays : d'.legacyFence = d.legacyFence → d'.durable.rows = d.durable.rows → d'.existing.rows = d.existing.rows →
      Advance canonicalDigest d e d'
  | appears : d.legacyFence = none → d'.legacyFence = some ⟨0, .open, none⟩ → d'.durable.rows = d.durable.rows →
      d'.existing.rows = d.existing.rows → Advance canonicalDigest d e d'
  | fences (call : BeginCall ι) (r : Receipt ι) : e = .beginCutover call →
      beginExistingDatabaseAuthority canonicalDigest d call = .ok (fenceFromRow r none .fenced, d') →
      r.identity = call.identity → d.legacyFence = some ⟨0, .open, none⟩ → d.existing.rows = [] →
      d'.legacyFence = some ⟨r.legacyWriteEpoch, .fenced, some r.cutoverId⟩ → d'.durable.rows = [r] →
      d'.existing.rows = [] → Advance canonicalDigest d e d'
  | commits (call : FinalizeCall ι) (r : Receipt ι) (id : ι) : e = .finalizeCutover call →
      finalizeExistingDatabaseAuthority canonicalDigest d call = .ok (id, d') → Presents call r →
      d.legacyFence = some ⟨r.legacyWriteEpoch, .fenced, some r.cutoverId⟩ → d.durable.rows = [r] →
      d.existing.rows = [] → d'.legacyFence = some ⟨r.legacyWriteEpoch, .committed, some r.cutoverId⟩ →
      d'.durable.rows = [r] →
      d'.existing.rows = [⟨id, r.cutoverId, r.identity, r.snapshot, r.legacyWriteEpoch⟩] → Advance canonicalDigest d e d'

/-- Migration 096 adds no receipt to the databases of this version. -/
theorem backfilled_rows (h : d.phase) (token : ι) : (backfilled d token).rows = d.durable.rows := by
  unfold backfilled
  split
  · rename_i a ha
    rw [singleton_get?] at ha
    split
    · cases hins : d.durable.insert? ⟨token, a.cutoverId, a.legacyWriteEpoch, a.identity, a.snapshot⟩ with
      | none => rfl
      | some t =>
        -- a cutover that is committed has its receipt
        rw [h.existing_of_durable (singleton_insert? hins).1] at ha
        cases ha
    · rfl
  · rfl

theorem advance_migrate (h : d.phase) (token : ι) : Advance canonicalDigest d (.migrate token) (migrate d token) := by
  unfold migrate
  split
  · exact .stays rfl rfl rfl
  · exact .stays rfl rfl rfl
  · cases hl : d.legacyFence with
    | none => exact .appears hl (by simp) rfl rfl
    | some legacy => exact .stays (by simp [hl]) rfl rfl
  · exact .stays rfl (backfilled_rows h token) rfl
  · exact .stays rfl rfl rfl

theorem advance_begin (h : d.phase) (call : BeginCall ι) :
    Advance canonicalDigest d (.beginCutover call)
      (committedState d (beginExistingDatabaseAuthority canonicalDigest d call)) := by
  cases hb : beginExistingDatabaseAuthority canonicalDigest d call with
  | error code => exact .stays rfl rfl rfl
  | ok result =>
    obtain ⟨f, d'⟩ := result
    cases (begin_begun hb).1 with
    | again a f ha => exact .stays rfl rfl rfl
    | resumes => exact .stays rfl rfl rfl
    | opens legacy r durable hnone hlegacy hstate hepoch hdurable hrows hcutover htoken hr hid =>
      have hexisting := List.head?_eq_none_iff.mp hnone
      have hopen : d.legacyFence = some ⟨0, .open, none⟩ := by
        rw [Database.phase, hlegacy] at h
        rw [hlegacy, h.of_open hstate]
      exact .fences call r rfl hb hid hopen hexisting rfl hrows hexisting

theorem advance_finalize (h : d.phase) (call : FinalizeCall ι) :
    Advance canonicalDigest d (.finalizeCutover call)
      (committedState d (finalizeExistingDatabaseAuthority canonicalDigest d call)) := by
  cases hf : finalizeExistingDatabaseAuthority canonicalDigest d call with
  | error code => exact .stays rfl rfl rfl
  | ok result =>
    obtain ⟨id, d'⟩ := result
    obtain ⟨⟨r, hr, hpresents, hdone⟩, _⟩ := finalize_finalized hf
    cases hdone with
    | again => exact .stays rfl rfl rfl
    | commits legacy existing hnone hlegacy hstate hrows =>
      have hexisting := List.head?_eq_none_iff.mp hnone
      have hphase : d.legacyFence = some ⟨r.legacyWriteEpoch, .fenced, some r.cutoverId⟩ ∧ d.durable.rows = [r] := by
        rw [Database.phase, hlegacy] at h
        obtain ⟨r', hl, hrs⟩ := h.of_fenced hstate
        rw [hrs] at hr
        cases hr
        exact ⟨hlegacy.trans (congrArg some hl), hrs⟩
      obtain ⟨hfenced, hdurable⟩ := hphase
      have hl : legacy = ⟨r.legacyWriteEpoch, .fenced, some r.cutoverId⟩ := Option.some.inj (hlegacy.symm.trans hfenced)
      exact .commits call r _ rfl hf hpresents hfenced hdurable hexisting (by rw [hl]; rfl) hdurable hrows

theorem next_advance (h : d.phase) (e : Event ι) : Advance canonicalDigest d e (next canonicalDigest d e) := by
  cases e with
  | mintClaim identity claimId =>
    rw [next]
    cases hm : mintNewDatabaseClaim d identity claimId with
    | error code => exact .stays rfl rfl rfl
    | ok result =>
      obtain ⟨id, d'⟩ := result
      rcases mintNewDatabaseClaim_ok hm with ⟨_, _, _, _, rfl⟩ | ⟨_, _, _, _, _, rfl⟩
      · exact .stays rfl rfl rfl
      · exact .stays rfl rfl rfl
  | migrate token => exact advance_migrate h token
  | mintPending identity claimId authorityId gitBlank =>
    rw [next]
    cases hm : mintPendingAuthority d identity claimId authorityId gitBlank with
    | error code => exact .stays rfl rfl rfl
    | ok result =>
      obtain ⟨id, d'⟩ := result
      obtain ⟨_, _, _, _, _, _, ⟨_, rfl, _⟩ | ⟨_, _, _, _, _, _, _, _, rfl⟩⟩ := mintPendingAuthority_ok hm
      · exact .stays rfl rfl rfl
      · exact .stays rfl rfl rfl
  | consume identity =>
    rw [next]
    cases hm : consumeOrValidateNativeAuthority d identity with
    | error code => exact .stays rfl rfl rfl
    | ok result =>
      obtain ⟨admission, d'⟩ := result
      rcases consumeOrValidateNativeAuthority_ok hm with ⟨_, _, _, _, _, _, _, _, rfl⟩ | ⟨_, _, _, _, _, _, _, _, _, rfl⟩
      · exact .stays rfl rfl rfl
      · exact .stays rfl rfl rfl
  | beginCutover call => exact advance_begin h call
  | finalizeCutover call => exact advance_finalize h call
  | plan runs vaults files =>
    rw [next]
    split
    · exact .stays rfl rfl rfl
    · exact .stays rfl rfl rfl
  | write content =>
    rw [next]
    split
    · exact .stays rfl rfl rfl
    · exact .stays rfl rfl rfl

theorem Advance.phase {e : Event ι} (ha : Advance canonicalDigest d e d') (h : d.phase) : d'.phase := by
  unfold Database.phase at h ⊢
  cases ha with
  | stays hl hd hx => rwa [hl, hd, hx]
  | appears hnone hl hd hx =>
    rw [hnone] at h
    rw [hl, hd, hx]
    generalize d.durable.rows = rs at h
    generalize d.existing.rows = xs at h
    cases h
    exact .opened
  | fences call r he hb hid hopen hnone hl hd hx =>
    rw [hl, hd, hx]
    exact .fenced r
  | commits call r id he hf hp hfenced hdurable hnone hl hd hx =>
    rw [hl, hd, hx]
    exact .committed r id

/-- The state of the fence; a database without the table has an open one. -/
def Database.fenceState (d : Database ι) : FenceState := d.legacyFence.elim .open LegacyFence.state

/-- One step forward, or none. -/
inductive Forward : FenceState → FenceState → Prop
  | stays (s : FenceState) : Forward s s
  | fences : Forward .open .fenced
  | commits : Forward .fenced .committed

theorem Advance.forward {e : Event ι} (ha : Advance canonicalDigest d e d') : Forward d.fenceState d'.fenceState := by
  unfold Database.fenceState
  cases ha with
  | stays hl hd hx =>
    rw [hl]
    exact .stays _
  | appears hnone hl hd hx =>
    rw [hnone, hl]
    exact .stays _
  | fences call r he hb hid hopen hnone hl hd hx =>
    rw [hopen, hl]
    exact .fences
  | commits call r id he hf hp hfenced hdurable hnone hl hd hx =>
    rw [hfenced, hl]
    exact .commits

/-- An authority row stays the only one. -/
theorem Advance.keeps {e : Event ι} {a : ExistingAuthority ι} (ha : Advance canonicalDigest d e d')
    (hrow : d.existing.rows = [a]) : d'.existing.rows = [a] := by
  cases ha with
  | stays hl hd hx => rw [hx, hrow]
  | appears hnone hl hd hx => rw [hx, hrow]
  | fences call r he hb hid hopen hnone hl hd hx =>
    rw [hrow] at hnone
    cases hnone
  | commits call r id he hf hp hfenced hdurable hnone hl hd hx =>
    rw [hrow] at hnone
    cases hnone

end Phases

section Runs
variable (canonicalDigest : List (Binding ι) → Text)

/-- Some begin call of the run found the fence open, closed it and returned the receipt. -/
def FencedBy (es : List (Event ι)) (r : Receipt ι) : Prop :=
  ∃ pre call post d d', es = pre ++ .beginCutover call :: post ∧ Run (step canonicalDigest) Database.initial pre d ∧
    d.fenceState = .open ∧ beginExistingDatabaseAuthority canonicalDigest d call = .ok (fenceFromRow r none .fenced, d') ∧
    r.identity = call.identity

/-- Some finalize call of the run presented the receipt and committed the authority. -/
def CommittedBy (es : List (Event ι)) (r : Receipt ι) (a : ExistingAuthority ι) : Prop :=
  ∃ pre call post d d', es = pre ++ .finalizeCutover call :: post ∧ Run (step canonicalDigest) Database.initial pre d ∧
    d.fenceState = .fenced ∧ finalizeExistingDatabaseAuthority canonicalDigest d call = .ok (a.authorityId, d') ∧
    Presents call r

variable {canonicalDigest} {es : List (Event ι)} {d d' : Database ι}

theorem FencedBy.snoc {r : Receipt ι} (h : FencedBy canonicalDigest es r) (e : Event ι) :
    FencedBy canonicalDigest (es ++ [e]) r := by
  obtain ⟨pre, call, post, p, p', rfl, hrest⟩ := h
  exact ⟨pre, call, post ++ [e], p, p', by simp, hrest⟩

theorem CommittedBy.snoc {r : Receipt ι} {a : ExistingAuthority ι} (h : CommittedBy canonicalDigest es r a) (e : Event ι) :
    CommittedBy canonicalDigest (es ++ [e]) r a := by
  obtain ⟨pre, call, post, p, p', rfl, hrest⟩ := h
  exact ⟨pre, call, post ++ [e], p, p', by simp, hrest⟩

/-- Where the records of a database come from. -/
structure Recorded (canonicalDigest : List (Binding ι) → Text) (d : Database ι) (es : List (Event ι)) : Prop where
  run : Run (step canonicalDigest) Database.initial es d
  phase : d.phase
  fenced : ∀ r ∈ d.durable.rows, FencedBy canonicalDigest es r
  committed : ∀ a ∈ d.existing.rows, ∀ r ∈ d.durable.rows, CommittedBy canonicalDigest es r a

theorem recorded_step (e : Event ι) (h : Recorded canonicalDigest d es) (hs : step canonicalDigest d e d') :
    Recorded canonicalDigest d' (es ++ [e]) := by
  subst hs
  have ha : Advance canonicalDigest d e (next canonicalDigest d e) := next_advance h.phase e
  refine ⟨h.run.append (.single rfl), ha.phase h.phase, ?_, ?_⟩
  · cases ha with
    | stays hl hd hx => exact fun r hr => (h.fenced r (hd ▸ hr)).snoc e
    | appears hnone hl hd hx => exact fun r hr => (h.fenced r (hd ▸ hr)).snoc e
    | fences call r he hb hid hopen hnone hl hd hx =>
      intro r' hr'
      rw [hd, List.mem_singleton] at hr'
      subst hr'
      exact ⟨es, call, [], d, _, by rw [he], h.run, by rw [Database.fenceState, hopen]; rfl, hb, hid⟩
    | commits call r id he hf hp hfenced hdurable hnone hl hd hx =>
      intro r' hr'
      rw [hd, ← hdurable] at hr'
      exact (h.fenced r' hr').snoc e
  · cases ha with
    | stays hl hd hx => exact fun a hr r hr' => (h.committed a (hx ▸ hr) r (hd ▸ hr')).snoc e
    | appears hnone hl hd hx => exact fun a hr r hr' => (h.committed a (hx ▸ hr) r (hd ▸ hr')).snoc e
    | fences call r he hb hid hopen hnone hl hd hx =>
      intro a hr
      rw [hx] at hr
      cases hr
    | commits call r id he hf hp hfenced hdurable hnone hl hd hx =>
      intro a hr r' hr'
      rw [hx, List.mem_singleton] at hr
      rw [hd, List.mem_singleton] at hr'
      subst hr hr'
      exact ⟨es, call, [], d, _, by rw [he], h.run, by rw [Database.fenceState, hfenced]; rfl, hf, hp⟩

omit [LinearOrder ι] in
theorem phase_initial : (Database.initial : Database ι).phase := .absent

theorem recorded_of_run (h : Run (step canonicalDigest) Database.initial es d) : Recorded canonicalDigest d es := by
  have hstart : Recorded canonicalDigest Database.initial [] :=
    ⟨.nil _, phase_initial, fun r hr => (List.not_mem_nil hr).elim, fun a hr => (List.not_mem_nil hr).elim⟩
  exact h.history (fun _ _ e _ hs ha => recorded_step e hs ha) hstart

/-- The row of a committed cutover beside its receipt. -/
def SameValues (a : ExistingAuthority ι) (r : Receipt ι) : Prop :=
  a.cutoverId = r.cutoverId ∧ a.legacyWriteEpoch = r.legacyWriteEpoch ∧ a.snapshot = r.snapshot ∧ a.identity = r.identity

omit [LinearOrder ι] in
theorem Database.phase.committed_iff (h : d.phase) : d.fenceState = .committed ↔ ∃ a, d.existing.rows = [a] := by
  unfold Database.phase at h
  unfold Database.fenceState
  generalize d.legacyFence = l at h
  generalize d.durable.rows = rs at h
  generalize d.existing.rows = xs at h
  cases h <;> simp

omit [LinearOrder ι] in
theorem Database.phase.sameValues (h : d.phase) {a : ExistingAuthority ι} (ha : a ∈ d.existing.rows) :
    ∃ r, d.durable.rows = [r] ∧ SameValues a r := by
  unfold Database.phase at h
  generalize d.legacyFence = l at h
  generalize d.durable.rows = rs at h
  generalize d.existing.rows = xs at h ha
  cases h with
  | absent => cases ha
  | opened => cases ha
  | fenced r => cases ha
  | committed r id =>
    rw [List.mem_singleton] at ha
    subst ha
    exact ⟨r, rfl, rfl, rfl, rfl, rfl⟩

/-- A finalize call that does not present the receipt on record raises. -/
theorem finalize_refuses (call : FinalizeCall ι) (h : ∀ r ∈ d.durable.rows, ¬ Presents call r) :
    (∃ code, finalizeExistingDatabaseAuthority canonicalDigest d call = .error code) ∧
      next canonicalDigest d (.finalizeCutover call) = d := by
  cases hf : finalizeExistingDatabaseAuthority canonicalDigest d call with
  | error code => exact ⟨⟨code, rfl⟩, by rw [next, hf]; rfl⟩
  | ok result =>
    obtain ⟨⟨r, hr, hp, _⟩, _⟩ := finalize_finalized hf
    exact absurd hp (h r (List.mem_of_mem_head? hr))

/-- The fence goes open, fenced, committed; one authority row is ever written; it holds what the begin call
recorded whose receipt was finalized; and a finalize call with anything else raises. -/
theorem fence_moves_forward_once (canonicalDigest : List (Binding ι) → Text) (es : List (Event ι)) (d : Database ι)
    (h : Run (step canonicalDigest) Database.initial es d) :
    (∀ e, Forward d.fenceState (next canonicalDigest d e).fenceState) ∧
    d.existing.rows.length ≤ 1 ∧
    (∀ a ∈ d.existing, ∀ es' d', Run (step canonicalDigest) d es' d' → d'.existing.rows = [a]) ∧
    (d.fenceState = .committed ↔ ∃ a, d.existing.rows = [a]) ∧
    (∀ a ∈ d.existing, ∃ r, d.durable.rows = [r] ∧ SameValues a r ∧ FencedBy canonicalDigest es r ∧
      CommittedBy canonicalDigest es r a) ∧
    ∀ call, (∀ r ∈ d.durable, ¬ Presents call r) →
      (∃ code, finalizeExistingDatabaseAuthority canonicalDigest d call = .error code) ∧
        next canonicalDigest d (.finalizeCutover call) = d := by
  have hrec := recorded_of_run h
  have hrows {a : ExistingAuthority ι} (ha : a ∈ d.existing) : d.existing.rows = [a] :=
    singleton_rows (Table.get?_eq_some.mpr ⟨ha, rfl⟩)
  refine ⟨fun e => (next_advance hrec.phase e).forward, ?_, fun a ha es' d' hrun => ?_, hrec.phase.committed_iff,
    fun a ha => ?_, finalize_refuses⟩
  · rcases hx : d.existing.rows with _ | ⟨a, l⟩
    · exact Nat.zero_le 1
    · rw [← hx, hrows (a := a) (by rw [Table.mem_def, hx]; exact List.mem_cons_self)]
      exact Nat.le_refl 1
  · refine (hrun.invariant (I := fun s => s.phase ∧ s.existing.rows = [a]) ?_ ⟨hrec.phase, hrows ha⟩).2
    rintro s e t ⟨hp, hx⟩ rfl
    have hadv : Advance canonicalDigest s e (next canonicalDigest s e) := next_advance hp e
    exact ⟨hadv.phase hp, hadv.keeps hx⟩
  · obtain ⟨r, hr, hsame⟩ := hrec.phase.sameValues ha
    have hmem : r ∈ d.durable.rows := hr ▸ List.mem_singleton_self r
    exact ⟨r, hr, hsame, hrec.fenced r hmem, hrec.committed a ha r hmem⟩

end Runs

section Sample

def sampleDigest : Text := List.replicate 64 'a'

def sampleIdentity : Identity Nat := ⟨['t'], ['n'], 1, ['d'], ['s', 'h', 'a', '2', '5', '6', ':'] ++ sampleDigest⟩

/-- A cutover of one vault: schema, verified plan, both phases. -/
def sampleCutover : List (Event Nat) :=
  [.migrate 0, .migrate 0, .migrate 0, .migrate 0,
    .plan ⟨[⟨5, sampleDigest, some sampleDigest, .verified⟩], List.nodup_singleton _⟩
      ⟨[⟨5, 2, 3, ['0'], sampleDigest, some sampleDigest, .verified⟩], List.nodup_singleton _⟩ [],
    .beginCutover ⟨true, sampleIdentity, 5, none, 9⟩,
    .finalizeCutover ⟨true, sampleIdentity, none, some 5, some 9, some 1, 7, true⟩]

def sampleCommitted : Database Nat := sampleCutover.foldl (next fun _ => sampleDigest) Database.initial

theorem sample_committed_once : sampleCommitted.fenceState = .committed ∧ ∃ a, sampleCommitted.existing.rows = [a] := by
  have hstate : sampleCommitted.fenceState = .committed := by decide
  exact ⟨hstate, (fence_moves_forward_once _ _ _ (run_of_foldl _ _ sampleCutover)).2.2.2.1.mp hstate⟩

end Sample
end Akb.Authority
