import Akb.Authority.Fence

/-! Who may start: the records of a new database exclude those of a cutover, and no
guard of one backend accepts what a guard of another accepts. -/
namespace Akb.Authority
open Akb.Library
variable {ι : Type} [LinearOrder ι]

/-- The records of a new database, as far as its bootstrap has come. -/
inductive NewPhase : List (Claim ι) → List (Pending ι) → List (Marker ι) → Prop
  | unclaimed : NewPhase [] [] []
  | claimed (claimId : ι) (identity : Identity ι) : NewPhase [⟨claimId, identity, .claimed⟩] [] []
  | minted (claimId authorityId : ι) (identity : Identity ι) :
      NewPhase [⟨claimId, identity, .minted⟩] [⟨authorityId, claimId, identity, .pending⟩] []
  | initialized (claimId authorityId : ι) (identity : Identity ι) :
      NewPhase [⟨claimId, identity, .minted⟩] [⟨authorityId, claimId, identity, .consumed⟩]
        [⟨authorityId, claimId, identity⟩]

/-- What holds of the records of every database. -/
structure Consistent (d : Database ι) : Prop where
  phase : d.phase
  newPhase : NewPhase d.claimRows d.pending.rows d.marker.rows
  claimTable : d.claims = none → d.schema.rank < Schema.m061.rank
  cutoverTable : d.schema.rank < Schema.m061.rank → d.existing.rows = []
  exclusive : d.claimRows ≠ [] → d.existing.rows = []

namespace NewPhase
variable {cs : List (Claim ι)} {ps : List (Pending ι)} {ms : List (Marker ι)}

omit [LinearOrder ι] in
theorem of_claimed (h : NewPhase cs ps ms) {c : Claim ι} (hc : cs = [c]) (hs : c.status = .claimed) : ps = [] ∧ ms = [] := by
  cases h with
  | unclaimed => exact ⟨rfl, rfl⟩
  | claimed => exact ⟨rfl, rfl⟩
  | minted => cases hc; cases hs
  | initialized => cases hc; cases hs

omit [LinearOrder ι] in
theorem of_unclaimed (h : NewPhase cs ps ms) (hc : cs = []) : ps = [] ∧ ms = [] := by
  cases h with
  | unclaimed => exact ⟨rfl, rfl⟩
  | claimed => cases hc
  | minted => cases hc
  | initialized => cases hc

omit [LinearOrder ι] in
theorem of_pending (h : NewPhase cs ps ms) {p : Pending ι} (hp : ps.filter (fun p => p.status = .pending) = [p]) :
    cs = [⟨p.claimId, p.identity, .minted⟩] ∧ ps = [⟨p.authorityId, p.claimId, p.identity, .pending⟩] := by
  cases h with
  | unclaimed => cases hp
  | claimed => cases hp
  | minted => cases hp; exact ⟨rfl, rfl⟩
  | initialized => cases hp

omit [LinearOrder ι] in
theorem pending_of_mem (h : NewPhase cs ps ms) {p : Pending ι} (hp : p ∈ ps) : ps = [p] := by
  cases h with
  | unclaimed => cases hp
  | claimed => cases hp
  | minted => rw [List.mem_singleton.mp hp]
  | initialized => rw [List.mem_singleton.mp hp]

end NewPhase

theorem rank_migrate (d : Database ι) (token : ι) : d.schema.rank ≤ (migrate d token).schema.rank := by
  cases hs : d.schema <;> simp [migrate, hs, Schema.rank]

theorem claimRows_migrate (d : Database ι) (token : ι) : (migrate d token).claimRows = d.claimRows := by
  cases hs : d.schema with
  | booted => cases hc : d.claims <;> simp [migrate, hs, hc, Database.claimRows, Table.empty]
  | empty => simp [migrate, hs, Database.claimRows]
  | m061 => simp [migrate, hs, Database.claimRows]
  | m088 => simp [migrate, hs, Database.claimRows]
  | m096 => simp [migrate, hs, Database.claimRows]

theorem claims_migrate {d : Database ι} {token : ι} (h : d.claims = none → d.schema.rank < Schema.m061.rank)
    (hn : (migrate d token).claims = none) : (migrate d token).schema.rank < Schema.m061.rank := by
  cases hs : d.schema <;> simp_all [migrate, Schema.rank]

theorem Consistent.migrate {d : Database ι} (h : Consistent d) (token : ι) : Consistent (migrate d token) := by
  have hadv : Advance (fun _ => []) d (.migrate token) (Authority.migrate d token) := advance_migrate h.phase token
  have hnew : (Authority.migrate d token).pending = d.pending ∧ (Authority.migrate d token).marker = d.marker := by
    unfold Authority.migrate
    split <;> exact ⟨rfl, rfl⟩
  have hexisting : (Authority.migrate d token).existing = d.existing := by
    unfold Authority.migrate
    split <;> rfl
  refine ⟨hadv.phase h.phase, ?_, claims_migrate h.claimTable, fun hr => ?_, fun hc => ?_⟩
  · rw [claimRows_migrate, hnew.1, hnew.2]
    exact h.newPhase
  · rw [hexisting]
    exact h.cutoverTable (lt_of_le_of_lt (rank_migrate d token) hr)
  · rw [hexisting]
    exact h.exclusive (claimRows_migrate d token ▸ hc)

theorem Consistent.mintClaim {d d' : Database ι} {identity : Identity ι} {claimId id : ι} (h : Consistent d)
    (hm : mintNewDatabaseClaim d identity claimId = .ok (id, d')) : Consistent d' := by
  rcases mintNewDatabaseClaim_ok hm with ⟨_, _, _, _, rfl⟩ | ⟨hnone, hschema, _, claims, hrows, rfl⟩
  · exact h
  · have hempty : d.existing.rows = [] := h.cutoverTable (by rw [hschema]; decide)
    have hclaims : d.claimRows = [] := by rw [Database.claimRows, hnone]; rfl
    obtain ⟨hp, hm⟩ := h.newPhase.of_unclaimed hclaims
    refine ⟨h.phase, ?_, by rintro ⟨⟩, h.cutoverTable, fun _ => hempty⟩
    change NewPhase claims.rows d.pending.rows d.marker.rows
    rw [hrows, hp, hm]
    exact .claimed claimId identity

theorem Consistent.mintPending {d d' : Database ι} {identity : Identity ι} {claimId authorityId id : ι} {gitBlank : Bool}
    (h : Consistent d) (hm : mintPendingAuthority d identity claimId authorityId gitBlank = .ok (id, d')) :
    Consistent d' := by
  obtain ⟨claims, c, hclaims, hrows, rfl, rfl, ⟨_, rfl, _⟩ | ⟨hstatus, rfl, _, _, pending, claims', hp, hc, rfl⟩⟩ :=
    mintPendingAuthority_ok hm
  · exact h
  · have hclaimRows : d.claimRows = [c] := by rw [Database.claimRows, hclaims]; exact hrows
    obtain ⟨hps, hms⟩ := h.newPhase.of_claimed hclaimRows hstatus
    have hempty : d.existing.rows = [] := h.exclusive (by rw [hclaimRows]; exact List.cons_ne_nil _ _)
    refine ⟨h.phase, ?_, by rintro ⟨⟩, h.cutoverTable, fun _ => hempty⟩
    change NewPhase claims'.rows pending.rows d.marker.rows
    rw [hc, hp, hps, hms]
    exact .minted c.claimId id c.identity

theorem Consistent.consume {d d' : Database ι} {identity : Identity ι} {admission : Admission} (h : Consistent d)
    (hm : consumeOrValidateNativeAuthority d identity = .ok (admission, d')) : Consistent d' := by
  rcases consumeOrValidateNativeAuthority_ok hm with ⟨_, _, _, _, _, _, _, _, rfl⟩ |
    ⟨_, p, hfilter, rfl, _, marker, pending, hmarker, hpending, rfl⟩
  · exact h
  · obtain ⟨hcs, hps⟩ := h.newPhase.of_pending hfilter
    refine ⟨h.phase, ?_, h.claimTable, h.cutoverTable, h.exclusive⟩
    change NewPhase d.claimRows pending.rows marker.rows
    rw [hcs, hmarker, hpending, hps]
    simpa using NewPhase.initialized p.claimId p.authorityId p.identity

theorem Consistent.next {canonicalDigest : List (Binding ι) → Text} {d : Database ι} (h : Consistent d) (e : Event ι) :
    Consistent (next canonicalDigest d e) := by
  cases e with
  | mintClaim identity claimId =>
    rw [Authority.next]
    cases hm : mintNewDatabaseClaim d identity claimId with
    | error code => exact h
    | ok result => exact h.mintClaim hm
  | migrate token => exact h.migrate token
  | mintPending identity claimId authorityId gitBlank =>
    rw [Authority.next]
    cases hm : mintPendingAuthority d identity claimId authorityId gitBlank with
    | error code => exact h
    | ok result => exact h.mintPending hm
  | consume identity =>
    rw [Authority.next]
    cases hm : consumeOrValidateNativeAuthority d identity with
    | error code => exact h
    | ok result => exact h.consume hm
  | beginCutover call =>
    have hadv : Advance canonicalDigest d (.beginCutover call) _ := advance_begin h.phase call
    have hphase := hadv.phase h.phase
    rw [Authority.next]
    cases hb : beginExistingDatabaseAuthority canonicalDigest d call with
    | error code => exact h
    | ok result =>
      obtain ⟨f, d'⟩ := result
      rw [hb] at hphase
      cases (begin_begun hb).1 with
      | again => exact ⟨hphase, h.newPhase, h.claimTable, h.cutoverTable, h.exclusive⟩
      | opens => exact ⟨hphase, h.newPhase, h.claimTable, h.cutoverTable, h.exclusive⟩
      | resumes => exact ⟨hphase, h.newPhase, h.claimTable, h.cutoverTable, h.exclusive⟩
  | finalizeCutover call =>
    have hadv : Advance canonicalDigest d (.finalizeCutover call) _ := advance_finalize h.phase call
    have hphase := hadv.phase h.phase
    rw [Authority.next]
    cases hf : finalizeExistingDatabaseAuthority canonicalDigest d call with
    | error code => exact h
    | ok result =>
      obtain ⟨id, d'⟩ := result
      rw [hf] at hphase
      obtain ⟨⟨r, _, _, hdone⟩, hclaims, _, _⟩ := finalize_finalized hf
      have hrank := finalize_rank hf
      cases hdone with
      | again => exact ⟨hphase, h.newPhase, h.claimTable, h.cutoverTable, h.exclusive⟩
      | commits =>
        exact ⟨hphase, h.newPhase, h.claimTable, fun hr => absurd hr (not_lt.mpr hrank), fun hc => absurd hclaims hc⟩
  | plan runs vaults files =>
    rw [Authority.next]
    split
    · exact h
    · exact ⟨h.phase, h.newPhase, h.claimTable, h.cutoverTable, h.exclusive⟩
  | write content =>
    rw [Authority.next]
    split
    · exact h
    · exact ⟨h.phase, h.newPhase, h.claimTable, h.cutoverTable, h.exclusive⟩

omit [LinearOrder ι] in
theorem consistent_initial : Consistent (Database.initial : Database ι) :=
  ⟨phase_initial, .unclaimed, fun _ => Nat.zero_lt_two, fun _ => rfl, fun _ => rfl⟩

theorem consistent_of_run {canonicalDigest : List (Binding ι) → Text} {es : List (Event ι)} {d : Database ι}
    (h : Run (step canonicalDigest) Database.initial es d) : Consistent d := by
  refine h.invariant ?_ consistent_initial
  rintro s e t hs rfl
  exact hs.next e

section Guards
variable {canonicalDigest : List (Binding ι) → Text} {d d' : Database ι}

/-- One of the two guards of a startup accepts. -/
def GuardAccepts (canonicalDigest : List (Binding ι) → Text) (d : Database ι) (backend : Backend) : Prop :=
  preMigrationRevisionAuthorityGuard d backend = .ok () ∨
    ∃ identity result, startupRevisionAuthorityPreflight canonicalDigest d backend identity = .ok result

/-- A guard of another backend accepts no database with a claim or an authority. -/
theorem other_guard_empty {backend : Backend} (hb : backend ≠ .postgresNative)
    (h : GuardAccepts canonicalDigest d backend) : d.claimRows = [] ∧ d.existing.rows = [] := by
  rcases h with h | ⟨identity, result, h⟩
  · rw [preMigrationRevisionAuthorityGuard, if_neg hb] at h
    have hcounts := refuse_eq_ok.mp h
    simp only [not_or, not_not, List.length_eq_zero_iff] at hcounts
    exact ⟨hcounts.1, hcounts.2.1⟩
  · rw [startupRevisionAuthorityPreflight, if_neg hb] at h
    obtain ⟨⟨⟩, hreject, _⟩ := bind_eq_ok.mp h
    obtain ⟨⟨⟩, _, hreject⟩ := bind_eq_ok.mp hreject
    obtain ⟨⟨⟩, hcounts, _⟩ := bind_eq_ok.mp hreject
    have hcounts := refuse_eq_ok.mp hcounts
    simp only [not_or, not_not, List.length_eq_zero_iff] at hcounts
    exact ⟨hcounts.1, hcounts.2.2.2⟩

/-- The one authority a Native startup finds or writes. -/
inductive OneAuthority (d : Database ι) (identity : Identity ι) : Prop
  | committed (a : ExistingAuthority ι) : d.existing.rows = [a] → d.marker.rows = [] → d.fenceState = .committed →
      a.identity.bindingMatches identity → OneAuthority d identity
  | initialized (m : Marker ι) (p : Pending ι) : d.marker.rows = [m] → d.existing.rows = [] → d.pending.rows = [p] →
      p.authorityId = m.authorityId → p.status = .consumed → m.identity.bindingMatches identity →
      OneAuthority d identity

omit [LinearOrder ι] in
theorem bindingMatches_refl (i : Identity ι) : i.bindingMatches i := ⟨rfl, rfl, rfl, rfl⟩

theorem consumeOrValidateExisting_ok {identity : Identity ι} {admission : Admission}
    (h : consumeOrValidateExistingDatabaseAuthority canonicalDigest d identity = .ok admission) :
    ∃ a, d.existing.rows = [a] ∧ a.identity.bindingMatches identity ∧ d.fenceState = .committed := by
  obtain ⟨⟨⟩, _, h⟩ := bind_eq_ok.mp h
  obtain ⟨a, ha, h⟩ := bind_eq_ok.mp h
  obtain ⟨_, _, h⟩ := bind_eq_ok.mp h
  obtain ⟨⟨⟩, hmatch, h⟩ := bind_eq_ok.mp h
  obtain ⟨⟨⟩, hfence, _⟩ := bind_eq_ok.mp h
  refine ⟨a, singleton_rows (found_eq_ok.mp ha), ?_, ?_⟩
  · exact not_not.mp (not_or.mp (refuse_eq_ok.mp hmatch)).1
  · have hany := refuse_eq_ok.mp hfence
    simp only [Bool.not_eq_true', Bool.not_eq_false, Option.any_eq_true, Bool.and_eq_true, decide_eq_true_eq] at hany
    obtain ⟨f, hf, ⟨hstate, _⟩, _⟩ := hany
    rw [Database.fenceState, hf]
    exact hstate

theorem preflight_one_authority {identity : Identity ι} {admission : Admission} (h : Consistent d)
    (hp : startupRevisionAuthorityPreflight canonicalDigest d .postgresNative identity = .ok (admission, d')) :
    OneAuthority d' identity := by
  rw [startupRevisionAuthorityPreflight, if_pos rfl] at hp
  obtain ⟨⟨⟩, _, hp⟩ := bind_eq_ok.mp hp
  obtain ⟨⟨⟩, _, hp⟩ := bind_eq_ok.mp hp
  split at hp
  · rename_i hsome
    obtain ⟨adm, hadm, hp⟩ := bind_eq_ok.mp hp
    cases hp
    obtain ⟨a, ha, hmatch, hstate⟩ := consumeOrValidateExisting_ok hadm
    have hclaims : d.claimRows = [] := by
      by_contra hc
      rw [h.exclusive hc] at ha
      cases ha
    exact .committed a ha (h.newPhase.of_unclaimed hclaims).2 hstate hmatch
  · rename_i hnone
    have hexisting : d.existing.rows = [] := List.length_eq_zero_iff.mp (not_not.mp hnone)
    rcases consumeOrValidateNativeAuthority_ok hp with ⟨m, p, hm, hmatch, hmem, hkey, hstatus, _, rfl⟩ |
      ⟨_, p, hfilter, rfl, _, marker, pending, hmarker, hpending, rfl⟩
    · refine .initialized m p hm hexisting ?_ hkey hstatus hmatch
      exact h.newPhase.pending_of_mem (Table.mem_def.mp hmem)
    · obtain ⟨_, hps⟩ := h.newPhase.of_pending hfilter
      refine .initialized _ { p with status := .consumed } hmarker hexisting ?_ rfl rfl (bindingMatches_refl p.identity)
      change pending.rows = _
      rw [hpending, hps]
      simp

/-- A Native guard accepts no database without a claim and without an authority. -/
theorem native_guard_nonempty (h : Consistent d) (hn : GuardAccepts canonicalDigest d .postgresNative) :
    d.claimRows ≠ [] ∨ d.existing.rows ≠ [] := by
  rcases hn with hn | ⟨identity, ⟨admission, d'⟩, hn⟩
  · rw [preMigrationRevisionAuthorityGuard, if_pos rfl] at hn
    obtain ⟨⟨⟩, _, hn⟩ := bind_eq_ok.mp hn
    rcases not_not.mp (refuse_eq_ok.mp hn) with ⟨hc, _⟩ | ⟨_, he⟩
    · exact Or.inl (List.ne_nil_of_length_pos (by omega))
    · exact Or.inr (List.ne_nil_of_length_pos (by omega))
  · rw [startupRevisionAuthorityPreflight, if_pos rfl] at hn
    obtain ⟨⟨⟩, _, hn⟩ := bind_eq_ok.mp hn
    obtain ⟨⟨⟩, _, hn⟩ := bind_eq_ok.mp hn
    split at hn
    · rename_i hsome
      exact Or.inr fun he => hsome (by rw [he]; rfl)
    · refine Or.inl fun hc => ?_
      obtain ⟨hps, hms⟩ := h.newPhase.of_unclaimed hc
      rcases consumeOrValidateNativeAuthority_ok hn with ⟨m, p, hm, _⟩ | ⟨_, p, hfilter, _⟩
      · rw [hms] at hm
        cases hm
      · rw [hps] at hfilter
        cases hfilter

theorem guards_exclude (h : Consistent d) {backend : Backend} (hb : backend ≠ .postgresNative)
    (hn : GuardAccepts canonicalDigest d .postgresNative) : ¬ GuardAccepts canonicalDigest d backend := by
  intro ho
  obtain ⟨hc, he⟩ := other_guard_empty hb ho
  exact (native_guard_nonempty h hn).elim (fun hne => hne hc) (fun hne => hne he)

end Guards

end Akb.Authority
