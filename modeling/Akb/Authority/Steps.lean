import Akb.Authority.Bootstrap

/-! What each transaction does when it commits. -/
namespace Akb.Authority
open Akb.Library
variable {ι : Type} [LinearOrder ι]

omit [LinearOrder ι] in
theorem singleton_get? {ρ : Type} (t : Singleton ρ) : t.get? true = t.rows.head? := by
  rw [Table.get?]
  cases t.rows <;> simp

omit [LinearOrder ι] in
theorem singleton_insert? {ρ : Type} {t u : Singleton ρ} {r : ρ} (h : t.insert? r = some u) :
    t.rows = [] ∧ u.rows = [r] := by
  unfold Table.insert? at h
  split at h
  · rename_i hn
    cases h
    rw [singleton_get?, List.head?_eq_none_iff] at hn
    exact ⟨hn, congrArg (fun rows => rows ++ [r]) hn⟩
  · cases h

section Phases
variable {canonicalDigest : List (Binding ι) → Text} {d d' : Database ι}

omit [LinearOrder ι] in
theorem rejectNewDatabaseAuthorityConflict_ok (h : rejectNewDatabaseAuthorityConflict d = .ok ()) :
    d.claimRows = [] ∧ d.pending.rows = [] ∧ d.marker.rows = [] := by
  obtain ⟨⟨⟩, _, h⟩ := bind_eq_ok.mp h
  simpa [not_or] using refuse_eq_ok.mp h

/-- What `begin_existing_database_authority` does when it returns. -/
inductive Begun (d : Database ι) (call : BeginCall ι) : Fence ι → Database ι → Prop
  | again (a : ExistingAuthority ι) (f : Fence ι) : d.existing.rows.head? = some a →
      Begun d call f { d with transientGuards := false }
  | opens (legacy : LegacyFence ι) (r : Receipt ι) (durable : Singleton (Receipt ι)) :
      d.existing.rows.head? = none → d.legacyFence = some legacy → legacy.state = .open → legacy.epoch = 0 →
      d.durable.rows = [] → durable.rows = [r] → r.cutoverId = call.cutoverId → r.fenceToken = call.token →
      r.legacyWriteEpoch = legacy.epoch + 1 → r.identity = call.identity →
      Begun d call (fenceFromRow r none .fenced) { d with
        legacyFence := some ⟨r.legacyWriteEpoch, .fenced, some r.cutoverId⟩
        durable := durable
        transientGuards := true }
  | resumes (legacy : LegacyFence ι) (r : Receipt ι) : d.existing.rows.head? = none → d.legacyFence = some legacy →
      legacy.state = .fenced → d.durable.rows.head? = some r →
      Begun d call (fenceFromRow r none .fenced) { d with transientGuards := true }

theorem beginOpen_begun {legacy : LegacyFence ι} {call : BeginCall ι} {f : Fence ι}
    (h : beginOpen canonicalDigest d legacy call = .ok (f, d')) (hlegacy : d.legacyFence = some legacy)
    (hstate : legacy.state = .open) (hnone : d.existing.rows.head? = none) : Begun d call f d' := by
  obtain ⟨⟨⟩, hd, h⟩ := bind_eq_ok.mp h
  obtain ⟨⟨⟩, he, h⟩ := bind_eq_ok.mp h
  obtain ⟨snapshot, _, h⟩ := bind_eq_ok.mp h
  obtain ⟨⟨⟩, _, h⟩ := bind_eq_ok.mp h
  obtain ⟨⟨⟩, _, h⟩ := bind_eq_ok.mp h
  obtain ⟨durable, hins, h⟩ := bind_eq_ok.mp h
  cases h
  have hepoch := not_not.mp (refuse_eq_ok.mp he)
  exact .opens legacy _ durable hnone hlegacy hstate hepoch (not_not.mp (refuse_eq_ok.mp hd))
    (singleton_insert? (found_eq_ok.mp hins)).2 rfl rfl rfl rfl

theorem validateFencedAuthorityReceipt_ok {durable : Option (Receipt ι)} {legacy : LegacyFence ι} {identity : Identity ι}
    {cutoverId : ι} {r : Receipt ι}
    (h : validateFencedAuthorityReceipt canonicalDigest d durable legacy identity cutoverId = .ok r) :
    legacy.state = .fenced ∧ durable = some r := by
  obtain ⟨⟨⟩, hs, h⟩ := bind_eq_ok.mp h
  obtain ⟨⟨⟩, _, h⟩ := bind_eq_ok.mp h
  obtain ⟨s, hd, h⟩ := bind_eq_ok.mp h
  obtain ⟨⟨⟩, _, h⟩ := bind_eq_ok.mp h
  obtain ⟨⟨⟩, _, h⟩ := bind_eq_ok.mp h
  obtain ⟨⟨⟩, _, h⟩ := bind_eq_ok.mp h
  obtain ⟨_, _, h⟩ := bind_eq_ok.mp h
  obtain ⟨⟨⟩, _, h⟩ := bind_eq_ok.mp h
  cases h
  exact ⟨not_not.mp (refuse_eq_ok.mp hs), found_eq_ok.mp hd⟩

theorem begin_begun {call : BeginCall ι} {f : Fence ι}
    (h : beginExistingDatabaseAuthority canonicalDigest d call = .ok (f, d')) :
    Begun d call f d' ∧ d.claimRows = [] ∧ d.pending.rows = [] ∧ d.marker.rows = [] := by
  obtain ⟨⟨⟩, _, h⟩ := bind_eq_ok.mp h
  obtain ⟨⟨⟩, _, h⟩ := bind_eq_ok.mp h
  obtain ⟨⟨⟩, hnew, h⟩ := bind_eq_ok.mp h
  obtain ⟨⟨⟩, _, h⟩ := bind_eq_ok.mp h
  obtain ⟨legacy, hl, h⟩ := bind_eq_ok.mp h
  refine ⟨?_, rejectNewDatabaseAuthorityConflict_ok hnew⟩
  have hlegacy := found_eq_ok.mp hl
  split at h
  · rename_i a ha
    obtain ⟨committed, _, h⟩ := bind_eq_ok.mp h
    cases h
    exact .again a f (singleton_get? d.existing ▸ ha)
  · rename_i hnone hstate
    exact beginOpen_begun h hlegacy hstate (singleton_get? d.existing ▸ hnone)
  · rename_i hnone hstate
    obtain ⟨r, hr, h⟩ := bind_eq_ok.mp h
    cases h
    obtain ⟨_, hdurable⟩ := validateFencedAuthorityReceipt_ok hr
    exact .resumes legacy r (singleton_get? d.existing ▸ hnone) hlegacy hstate (singleton_get? d.durable ▸ hdurable)
  · cases h

/-- The call presents exactly what the receipt recorded. -/
structure Presents (call : FinalizeCall ι) (r : Receipt ι) : Prop where
  values : requestedFenceValues call = .ok (r.cutoverId, r.fenceToken, r.legacyWriteEpoch)
  snapshot : ∀ f ∈ call.fence, f.snapshot = r.snapshot
  identity : call.identity = r.identity

/-- What `finalize_existing_database_authority` does when it returns. -/
inductive Finalized (d : Database ι) (call : FinalizeCall ι) (r : Receipt ι) : ι → Database ι → Prop
  | again (a : ExistingAuthority ι) : d.existing.rows.head? = some a →
      Finalized d call r a.authorityId { d with transientGuards := false }
  | commits (legacy : LegacyFence ι) (existing : Singleton (ExistingAuthority ι)) : d.existing.rows.head? = none →
      d.legacyFence = some legacy → legacy.state = .fenced →
      existing.rows = [⟨call.authorityId, r.cutoverId, r.identity, r.snapshot, r.legacyWriteEpoch⟩] →
      Finalized d call r call.authorityId { d with
        existing := existing
        legacyFence := some { legacy with state := .committed }
        transientGuards := false }

theorem fenceArgumentsMatchReceipt_iff {r : Receipt ι} {requested : ι × ι × Int} {fence : Option (Fence ι)} :
    fenceArgumentsMatchReceipt r requested fence = true ↔
      requested = (r.cutoverId, r.fenceToken, r.legacyWriteEpoch) ∧ ∀ f ∈ fence, f.snapshot = r.snapshot := by
  obtain ⟨c, t, e⟩ := requested
  simp only [fenceArgumentsMatchReceipt, Bool.and_eq_true, decide_eq_true_eq, Option.all_eq_true, Prod.mk.injEq]
  constructor
  · rintro ⟨⟨⟨rfl, rfl⟩, rfl⟩, hf⟩
    exact ⟨⟨rfl, rfl, rfl⟩, fun f hm => by simpa using hf f hm⟩
  · rintro ⟨⟨rfl, rfl, rfl⟩, hf⟩
    exact ⟨⟨⟨rfl, rfl⟩, rfl⟩, fun f hm => by simpa using hf f hm⟩

theorem finalize_finalized {call : FinalizeCall ι} {id : ι}
    (h : finalizeExistingDatabaseAuthority canonicalDigest d call = .ok (id, d')) :
    (∃ r, d.durable.rows.head? = some r ∧ Presents call r ∧ Finalized d call r id d') ∧
      d.claimRows = [] ∧ d.pending.rows = [] ∧ d.marker.rows = [] := by
  obtain ⟨requested, hreq, h⟩ := bind_eq_ok.mp h
  obtain ⟨⟨⟩, _, h⟩ := bind_eq_ok.mp h
  obtain ⟨⟨⟩, _, h⟩ := bind_eq_ok.mp h
  obtain ⟨⟨⟩, hnew, h⟩ := bind_eq_ok.mp h
  obtain ⟨⟨⟩, _, h⟩ := bind_eq_ok.mp h
  obtain ⟨legacy, hl, h⟩ := bind_eq_ok.mp h
  obtain ⟨r, hr, h⟩ := bind_eq_ok.mp h
  obtain ⟨⟨⟩, hmatch, h⟩ := bind_eq_ok.mp h
  obtain ⟨⟨⟩, _, h⟩ := bind_eq_ok.mp h
  obtain ⟨⟨⟩, hid, h⟩ := bind_eq_ok.mp h
  obtain ⟨rfl, hsnap⟩ := fenceArgumentsMatchReceipt_iff.mp (by simpa using refuse_eq_ok.mp hmatch)
  have hidentity := not_not.mp (refuse_eq_ok.mp hid)
  have hpresents : Presents call r := ⟨hreq, hsnap, hidentity.symm⟩
  refine ⟨⟨r, singleton_get? d.durable ▸ found_eq_ok.mp hr, hpresents, ?_⟩, rejectNewDatabaseAuthorityConflict_ok hnew⟩
  split at h
  · rename_i a ha
    obtain ⟨_, _, h⟩ := bind_eq_ok.mp h
    cases h
    exact .again a (singleton_get? d.existing ▸ ha)
  · rename_i hnone
    obtain ⟨⟨⟩, hstate, h⟩ := bind_eq_ok.mp h
    obtain ⟨snapshot, _, h⟩ := bind_eq_ok.mp h
    obtain ⟨⟨⟩, hs, h⟩ := bind_eq_ok.mp h
    obtain ⟨⟨⟩, _, h⟩ := bind_eq_ok.mp h
    obtain ⟨existing, hins, h⟩ := bind_eq_ok.mp h
    obtain ⟨⟨⟩, _, h⟩ := bind_eq_ok.mp h
    cases h
    refine .commits legacy existing (singleton_get? d.existing ▸ hnone) (found_eq_ok.mp hl)
      (not_not.mp (refuse_eq_ok.mp hstate)) ?_
    rw [(singleton_insert? (found_eq_ok.mp hins)).2, hidentity, not_not.mp (refuse_eq_ok.mp hs)]

theorem finalize_rank {call : FinalizeCall ι} {id : ι}
    (h : finalizeExistingDatabaseAuthority canonicalDigest d call = .ok (id, d')) :
    Schema.m061.rank ≤ d.schema.rank := by
  obtain ⟨_, _, h⟩ := bind_eq_ok.mp h
  obtain ⟨⟨⟩, _, h⟩ := bind_eq_ok.mp h
  obtain ⟨⟨⟩, _, h⟩ := bind_eq_ok.mp h
  obtain ⟨⟨⟩, hnew, _⟩ := bind_eq_ok.mp h
  obtain ⟨⟨⟩, hrank, _⟩ := bind_eq_ok.mp hnew
  exact not_lt.mp (refuse_eq_ok.mp hrank)

/-- What `mint_new_database_claim` does when it returns. -/
theorem mintNewDatabaseClaim_ok {identity : Identity ι} {claimId id : ι}
    (h : mintNewDatabaseClaim d identity claimId = .ok (id, d')) :
    (∃ c, d.claimRows = [c] ∧ c.identity = identity ∧ id = c.claimId ∧ d' = d) ∨
      (d.claims = none ∧ d.schema = .empty ∧ id = claimId ∧
        ∃ claims : Singleton (Claim ι), claims.rows = [⟨claimId, identity, .claimed⟩] ∧
          d' = { d with claims := some claims }) := by
  unfold mintNewDatabaseClaim at h
  split at h
  · rename_i claims hclaims
    split at h
    · cases h
    · rename_i existing hrows
      obtain ⟨⟨⟩, hid, h⟩ := bind_eq_ok.mp h
      cases h
      refine Or.inl ⟨existing, ?_, not_not.mp (refuse_eq_ok.mp hid), rfl, rfl⟩
      rw [Database.claimRows, hclaims]
      exact hrows
    · cases h
  · rename_i hclaims
    obtain ⟨⟨⟩, hschema, h⟩ := bind_eq_ok.mp h
    obtain ⟨⟨⟩, _, h⟩ := bind_eq_ok.mp h
    obtain ⟨claims, hins, h⟩ := bind_eq_ok.mp h
    cases h
    exact Or.inr ⟨hclaims, not_not.mp (refuse_eq_ok.mp hschema), rfl, claims, (singleton_insert? (found_eq_ok.mp hins)).2, rfl⟩

omit [LinearOrder ι] in
/-- The one row of a singleton. -/
theorem singleton_rows {ρ : Type} {t : Singleton ρ} {r : ρ} (h : t.get? true = some r) : t.rows = [r] := by
  have hu := t.unique
  rw [singleton_get?] at h
  rcases hr : t.rows with _ | ⟨a, _ | ⟨b, l⟩⟩
  · rw [hr] at h
    cases h
  · rw [hr] at h
    cases h
    rfl
  · rw [hr] at hu
    simp at hu

omit [LinearOrder ι] in
theorem rows_of_insert? {ρ κ : Type} [DecidableEq κ] {key : ρ → κ} {t u : Table ρ key} {r : ρ}
    (h : t.insert? r = some u) : u.rows = t.rows ++ [r] := by
  unfold Table.insert? at h
  split at h
  · cases h
    rfl
  · cases h

theorem insertPending_ok {t u : Table (Pending ι) Pending.authorityId} {row : Pending ι}
    (h : insertPending t row = some u) :
    (∀ p ∈ t, p.claimId ≠ row.claimId ∧ p.status ≠ .pending) ∧ u.rows = t.rows ++ [row] := by
  unfold insertPending at h
  split at h
  · cases h
  · rename_i hnone
    refine ⟨fun p hp => ?_, rows_of_insert? h⟩
    simp only [Bool.not_eq_true, List.any_eq_false, Bool.or_eq_true, decide_eq_true_eq, not_or] at hnone
    exact hnone p hp

/-- What `mint_pending_authority` does when it returns. -/
theorem mintPendingAuthority_ok {identity : Identity ι} {claimId authorityId id : ι} {gitBlank : Bool}
    (h : mintPendingAuthority d identity claimId authorityId gitBlank = .ok (id, d')) :
    ∃ claims c, d.claims = some claims ∧ claims.rows = [c] ∧ c.claimId = claimId ∧ c.identity = identity ∧
      ((c.status = .minted ∧ d' = d ∧ ∃ p ∈ d.pending, p.claimId = claimId ∧ p.identity = identity ∧ id = p.authorityId) ∨
        (c.status = .claimed ∧ id = authorityId ∧ d.schema.rank ≥ Schema.m096.rank ∧
          (∀ p ∈ d.pending, p.claimId ≠ claimId ∧ p.status ≠ .pending) ∧
          ∃ (pending : Table (Pending ι) Pending.authorityId) (claims' : Singleton (Claim ι)),
            pending.rows = d.pending.rows ++ [⟨authorityId, claimId, identity, .pending⟩] ∧
            claims'.rows = [{ c with status := .minted }] ∧
            d' = { d with pending := pending, claims := some claims' })) := by
  obtain ⟨claims, hclaims, h⟩ := bind_eq_ok.mp h
  obtain ⟨c, hc, h⟩ := bind_eq_ok.mp h
  obtain ⟨⟨⟩, hmatch, h⟩ := bind_eq_ok.mp h
  obtain ⟨⟨⟩, _, h⟩ := bind_eq_ok.mp h
  have hrows := singleton_rows (found_eq_ok.mp hc)
  obtain ⟨hid, hidentity⟩ : c.claimId = claimId ∧ c.identity = identity := by
    simpa [not_or] using refuse_eq_ok.mp hmatch
  refine ⟨claims, c, found_eq_ok.mp hclaims, hrows, hid, hidentity, ?_⟩
  split at h
  · rename_i hstatus
    obtain ⟨row, hrow, h⟩ := bind_eq_ok.mp h
    obtain ⟨⟨⟩, hrid, h⟩ := bind_eq_ok.mp h
    cases h
    have hfind := found_eq_ok.mp hrow
    exact Or.inl ⟨hstatus, rfl, row, List.mem_of_find?_eq_some hfind, by simpa using List.find?_some hfind,
      not_not.mp (refuse_eq_ok.mp hrid), rfl⟩
  · rename_i hstatus
    obtain ⟨⟨⟩, _, h⟩ := bind_eq_ok.mp h
    obtain ⟨⟨⟩, _, h⟩ := bind_eq_ok.mp h
    obtain ⟨⟨⟩, hrank, h⟩ := bind_eq_ok.mp h
    obtain ⟨⟨⟩, _, h⟩ := bind_eq_ok.mp h
    obtain ⟨⟨⟩, _, h⟩ := bind_eq_ok.mp h
    obtain ⟨pending, hins, h⟩ := bind_eq_ok.mp h
    cases h
    obtain ⟨hfree, hmem⟩ := insertPending_ok (found_eq_ok.mp hins)
    exact Or.inr ⟨hstatus, rfl, not_lt.mp (refuse_eq_ok.mp hrank), hfree, pending, _, hmem,
      by simp [Table.updateWhere, hrows, hstatus], rfl⟩

/-- What `consume_or_validate_native_authority` does when it returns. -/
theorem consumeOrValidateNativeAuthority_ok {identity : Identity ι} {admission : Admission}
    (h : consumeOrValidateNativeAuthority d identity = .ok (admission, d')) :
    (∃ m p, d.marker.rows = [m] ∧ m.identity.bindingMatches identity ∧ p ∈ d.pending ∧ p.authorityId = m.authorityId ∧
      p.status = .consumed ∧ admission = .validated ∧ d' = d) ∨
    (d.marker.rows = [] ∧ ∃ p, d.pending.rows.filter (fun p => p.status = .pending) = [p] ∧ p.identity = identity ∧
      admission = .initialized ∧ ∃ (marker : Singleton (Marker ι)) (pending : Table (Pending ι) Pending.authorityId),
        marker.rows = [⟨p.authorityId, p.claimId, identity⟩] ∧
        pending.rows = d.pending.rows.map (fun q =>
          if q.authorityId = p.authorityId && q.status = .pending then { q with status := .consumed } else q) ∧
        d' = { d with marker := marker, pending := pending }) := by
  obtain ⟨⟨⟩, _, h⟩ := bind_eq_ok.mp h
  split at h
  · rename_i m hm
    obtain ⟨⟨⟩, hbind, h⟩ := bind_eq_ok.mp h
    obtain ⟨p, hp, h⟩ := bind_eq_ok.mp h
    obtain ⟨⟨⟩, hstatus, h⟩ := bind_eq_ok.mp h
    cases h
    obtain ⟨hmem, hkey⟩ := Table.mem_of_get? (found_eq_ok.mp hp)
    exact Or.inl ⟨m, p, singleton_rows hm, not_not.mp (refuse_eq_ok.mp hbind), hmem, hkey,
      not_not.mp (refuse_eq_ok.mp hstatus), rfl, rfl⟩
  · rename_i hm
    rw [singleton_get?, List.head?_eq_none_iff] at hm
    split at h
    · rename_i p hfilter
      obtain ⟨⟨⟩, hid, h⟩ := bind_eq_ok.mp h
      obtain ⟨⟨⟩, _, h⟩ := bind_eq_ok.mp h
      obtain ⟨⟨⟩, _, h⟩ := bind_eq_ok.mp h
      obtain ⟨marker, hins, h⟩ := bind_eq_ok.mp h
      cases h
      exact Or.inr ⟨hm, p, hfilter, not_not.mp (refuse_eq_ok.mp hid), rfl, marker, _,
        (singleton_insert? (found_eq_ok.mp hins)).2, rfl, rfl⟩
    · cases h

end Phases
end Akb.Authority
