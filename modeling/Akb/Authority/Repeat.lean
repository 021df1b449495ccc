import Akb.Authority.Admission

/-! A bootstrap that was interrupted and is repeated, and the first startup after it. -/
namespace Akb.Authority
open Akb.Library
variable {ι : Type} [LinearOrder ι]

section Bootstrap
variable {d d' : Database ι}

theorem Consistent.initDb (h : Consistent d) (token : ι) : Consistent (initDb d token) :=
  (((h.migrate token).migrate token).migrate token).migrate token

/-- What a bootstrap leaves: one claim, one authority record, and the marker a startup wrote before, if any. -/
structure Bootstrapped (d : Database ι) (identity : Identity ι) (report : BootstrapReport ι) : Prop where
  claim : d.claimRows = [⟨report.claimId, identity, .minted⟩]
  pending : d.pending.rows =
    [⟨report.authorityId, report.claimId, identity, if report.initialized then .consumed else .pending⟩]
  marker : d.marker.rows.length = if report.initialized then 1 else 0

omit [LinearOrder ι] in
theorem NewPhase.of_minted {cs : List (Claim ι)} {ps : List (Pending ι)} {ms : List (Marker ι)} {claimId : ι}
    {identity : Identity ι} {p : Pending ι} (h : NewPhase cs ps ms) (hc : cs = [⟨claimId, identity, .minted⟩])
    (hp : p ∈ ps) : p.claimId = claimId ∧ p.identity = identity ∧
      ((ps = [⟨p.authorityId, claimId, identity, .pending⟩] ∧ ms = []) ∨
        (ps = [⟨p.authorityId, claimId, identity, .consumed⟩] ∧ ms = [⟨p.authorityId, claimId, identity⟩])) := by
  cases h with
  | unclaimed => cases hc
  | claimed => cases hc
  | minted =>
    cases hc
    rw [List.mem_singleton.mp hp]
    exact ⟨rfl, rfl, Or.inl ⟨rfl, rfl⟩⟩
  | initialized =>
    cases hc
    rw [List.mem_singleton.mp hp]
    exact ⟨rfl, rfl, Or.inr ⟨rfl, rfl⟩⟩

theorem bootstrap_ok {identity : Identity ι} {claimId authorityId token : ι} {gitBlank : Bool}
    {report : BootstrapReport ι} (h : Consistent d)
    (hb : bootstrapPostgresNative d identity claimId authorityId token gitBlank = .ok (report, d')) :
    Bootstrapped d' identity report := by
  obtain ⟨⟨claim, d₁⟩, hclaim, hb⟩ := bind_eq_ok.mp hb
  obtain ⟨⟨authority, d₂⟩, hmint, hb⟩ := bind_eq_ok.mp hb
  have h₁ := h.mintClaim hclaim
  have h₂ := (h₁.initDb token).mintPending hmint
  -- the claim of the bootstrap has its pending record
  have hrecords : d₂.claimRows = [⟨claim, identity, .minted⟩] ∧ ∃ p ∈ d₂.pending.rows, authority = p.authorityId := by
    obtain ⟨claims, c, hclaims, hrows, rfl, rfl, ⟨hstatus, rfl, p, hp, _, _, rfl⟩ | ⟨_, rfl, _, _, pending, claims', hps, hcs, rfl⟩⟩ :=
      mintPendingAuthority_ok hmint
    · refine ⟨?_, p, hp, rfl⟩
      rw [Database.claimRows, hclaims]
      change claims.rows = _
      rw [hrows, ← hstatus]
    · refine ⟨hcs, ⟨authority, c.claimId, c.identity, .pending⟩, ?_, rfl⟩
      change _ ∈ pending.rows
      rw [hps]
      exact List.mem_append_right _ (List.mem_singleton_self _)
  obtain ⟨hc, p, hp, rfl⟩ := hrecords
  obtain ⟨_, _, hphase⟩ := h₂.newPhase.of_minted hc hp
  dsimp only at hb
  split at hb
  · rename_i marker hm
    obtain ⟨⟨⟩, _, hb⟩ := bind_eq_ok.mp hb
    obtain ⟨_, _, hb⟩ := bind_eq_ok.mp hb
    obtain ⟨⟨⟩, _, hb⟩ := bind_eq_ok.mp hb
    cases hb
    rcases hphase with ⟨_, hms⟩ | ⟨hps, hms⟩
    · rw [singleton_get?, hms] at hm
      cases hm
    · exact ⟨hc, hps, by rw [hms]; rfl⟩
  · rename_i hm
    cases hb
    rw [singleton_get?, List.head?_eq_none_iff] at hm
    rcases hphase with ⟨hps, hms⟩ | ⟨_, hms⟩
    · exact ⟨hc, hps, by rw [hms]; rfl⟩
    · rw [hms] at hm
      cases hm

/-- A transaction of the bootstrap of one deployment. -/
inductive BootstrapEvent (identity : Identity ι) : Event ι → Prop
  | mintClaim (claimId : ι) : BootstrapEvent identity (.mintClaim identity claimId)
  | migrate (token : ι) : BootstrapEvent identity (.migrate token)
  | mintPending (claimId authorityId : ι) (gitBlank : Bool) :
      BootstrapEvent identity (.mintPending identity claimId authorityId gitBlank)

/-- A database on which only the bootstrap of one deployment was at work. -/
structure Interrupted (identity : Identity ι) (claimId : ι) (d : Database ι) : Prop where
  consistent : Consistent d
  claim : ∃ status, d.claimRows = [⟨claimId, identity, status⟩]
  marker : d.marker.rows = []
  content : d.content = 0
  opened : d.legacyFence.all (fun fence => fence.state = .open) = true

theorem Interrupted.event {canonicalDigest : List (Binding ι) → Text} {identity : Identity ι} {claimId : ι} {e : Event ι}
    (h : Interrupted identity claimId d) (he : BootstrapEvent identity e) :
    Interrupted identity claimId (next canonicalDigest d e) := by
  have hnext : Consistent (Authority.next canonicalDigest d e) := h.consistent.next e
  obtain ⟨status, hc⟩ := h.claim
  cases he with
  | mintClaim c =>
    rw [Authority.next] at hnext ⊢
    cases hm : mintNewDatabaseClaim d identity c with
    | error code => exact h
    | ok result =>
      obtain ⟨id, d'⟩ := result
      rcases mintNewDatabaseClaim_ok hm with ⟨_, _, _, _, rfl⟩ | ⟨hnone, _⟩
      · exact h
      · rw [Database.claimRows, hnone] at hc
        cases hc
  | migrate token =>
    refine ⟨hnext, ⟨status, (claimRows_migrate d token).trans hc⟩, ?_, ?_, ?_⟩
    · rw [Authority.next, migrate]
      split <;> exact h.marker
    · rw [Authority.next, migrate]
      split <;> exact h.content
    · have hopened := h.opened
      rw [Authority.next, migrate]
      split
      · exact hopened
      · exact hopened
      · cases hl : d.legacyFence with
        | none => rfl
        | some fence => simpa [hl] using hopened
      · exact hopened
      · exact hopened
  | mintPending c authorityId gitBlank =>
    rw [Authority.next] at hnext ⊢
    cases hm : mintPendingAuthority d identity c authorityId gitBlank with
    | error code => exact h
    | ok result =>
      rw [hm] at hnext
      obtain ⟨id, d'⟩ := result
      obtain ⟨claims, c', hclaims, hrows, rfl, hid, ⟨_, rfl, _⟩ | ⟨_, _, _, _, pending, claims', _, hcs, rfl⟩⟩ :=
        mintPendingAuthority_ok hm
      · exact h
      · have heq : c' = ⟨claimId, identity, status⟩ := by
          rw [Database.claimRows, hclaims] at hc
          exact List.singleton_inj.mp (hrows.symm.trans hc)
        refine ⟨hnext, ⟨.minted, ?_⟩, h.marker, h.content, h.opened⟩
        change claims'.rows = _
        rw [hcs, heq]

theorem Interrupted.initDb {identity : Identity ι} {claimId : ι} (h : Interrupted identity claimId d) (token : ι) :
    Interrupted identity claimId (initDb d token) ∧ (initDb d token).schema = .m096 := by
  have hstep {s : Database ι} (hs : Interrupted identity claimId s) : Interrupted identity claimId (migrate s token) :=
    @Interrupted.event _ _ _ (fun _ => []) _ _ _ hs (.migrate token)
  refine ⟨hstep (hstep (hstep (hstep h))), ?_⟩
  cases hs : d.schema <;> simp [Authority.initDb, migrate, hs]

omit [LinearOrder ι] in
theorem NewPhase.of_unmarked {ps : List (Pending ι)} {claimId : ι} {identity : Identity ι} {status : ClaimStatus}
    (h : NewPhase [⟨claimId, identity, status⟩] ps []) : (status = .claimed ∧ ps = []) ∨
      (status = .minted ∧ ∃ authorityId, ps = [⟨authorityId, claimId, identity, .pending⟩]) := by
  cases h with
  | claimed => exact Or.inl ⟨rfl, rfl⟩
  | minted _ authorityId => exact Or.inr ⟨rfl, authorityId, rfl⟩

omit [LinearOrder ι] in
theorem insert?_of_empty {ρ κ : Type} [DecidableEq κ] {key : ρ → κ} {t : Table ρ key} (h : t.rows = []) (r : ρ) :
    ∃ u, t.insert? r = some u := by
  have hnone : t.get? (key r) = none := by rw [Table.get?, h]; rfl
  exact ⟨_, dif_pos hnone⟩

theorem insertPending_of_empty {t : Table (Pending ι) Pending.authorityId} (h : t.rows = []) (row : Pending ι) :
    ∃ u, insertPending t row = some u := by
  have hany : t.rows.any (fun p => p.claimId = row.claimId || p.status = .pending) = false := by rw [h]; rfl
  rw [insertPending, hany]
  exact insert?_of_empty h row

/-- On such a database the pending record is minted, or was. -/
theorem Interrupted.mintPending {identity : Identity ι} {claimId : ι} (h : Interrupted identity claimId d)
    (hschema : d.schema = .m096) (authorityId : ι) :
    ∃ id d', mintPendingAuthority d identity claimId authorityId true = .ok (id, d') ∧
      Interrupted identity claimId d' ∧ d'.schema = .m096 := by
  obtain ⟨status, hc⟩ := h.claim
  obtain ⟨claims, hclaims⟩ : ∃ claims, d.claims = some claims := by
    cases hcl : d.claims with
    | none => rw [Database.claimRows, hcl] at hc; cases hc
    | some claims => exact ⟨claims, rfl⟩
  have hget : claims.get? true = some ⟨claimId, identity, status⟩ := by
    rw [Database.claimRows, hclaims] at hc
    rw [singleton_get?]
    exact congrArg List.head? hc
  have hok : ∃ result, mintPendingAuthority d identity claimId authorityId true = .ok result := by
    have hphase := h.consistent.newPhase
    rw [hc, h.marker] at hphase
    rcases hphase.of_unmarked with ⟨rfl, hps⟩ | ⟨rfl, a, hps⟩
    · obtain ⟨pending, hins⟩ := insertPending_of_empty hps ⟨authorityId, claimId, identity, .pending⟩
      simp only [mintPendingAuthority, hclaims, hget, found, ok_bind, refuse, ne_eq, not_true, or_self, if_false, hschema,
        hps, List.find?_nil, Option.isSome_none, Bool.false_eq_true, Nat.lt_irrefl, h.content, Bool.not_true, hins]
      exact ⟨_, rfl⟩
    · have hfind : d.pending.rows.find? (fun p => p.claimId = claimId) = some ⟨a, claimId, identity, .pending⟩ := by
        simp [hps]
      simp only [mintPendingAuthority, hclaims, hget, found, ok_bind, refuse, ne_eq, not_true, or_self, if_false, hschema,
        hfind]
      exact ⟨_, rfl⟩
  obtain ⟨⟨id, d'⟩, hresult⟩ := hok
  have hnext : Interrupted identity claimId
      (next (fun _ => []) d (.mintPending identity claimId authorityId true)) := h.event (.mintPending claimId authorityId true)
  rw [next, hresult] at hnext
  refine ⟨id, d', hresult, hnext, ?_⟩
  obtain ⟨_, _, _, _, _, _, ⟨_, rfl, _⟩ | ⟨_, _, _, _, _, _, _, _, rfl⟩⟩ := mintPendingAuthority_ok hresult
  · exact hschema
  · exact hschema

/-- A bootstrap that is repeated completes without a marker, and the first startup writes one. -/
theorem Interrupted.repeats (canonicalDigest : List (Binding ι) → Text) {identity : Identity ι} {claimId : ι}
    (h : Interrupted identity claimId d) (newClaimId authorityId token : ι) :
    ∃ id d', bootstrapPostgresNative d identity newClaimId authorityId token true = .ok (⟨false, claimId, id⟩, d') ∧
      d'.marker.rows = [] ∧ ∃ d'' m,
        startupRevisionAuthorityPreflight canonicalDigest d' .postgresNative identity = .ok (.initialized, d'') ∧
        d''.marker.rows = [m] := by
  obtain ⟨status, hc⟩ := h.claim
  have hclaim : mintNewDatabaseClaim d identity newClaimId = .ok (claimId, d) := by
    cases hcl : d.claims with
    | none => rw [Database.claimRows, hcl] at hc; cases hc
    | some claims =>
      rw [Database.claimRows, hcl] at hc
      change claims.rows = _ at hc
      simp only [mintNewDatabaseClaim, hcl, hc]
      simp only [refuse, ne_eq, not_true, if_false]
      rfl
  obtain ⟨hdb, hschema⟩ := h.initDb token
  obtain ⟨id, d', hmint, hleft, hschema'⟩ := hdb.mintPending hschema authorityId
  have hboot : bootstrapPostgresNative d identity newClaimId authorityId token true = .ok (⟨false, claimId, id⟩, d') := by
    have hmarker : d'.marker.get? true = none := by rw [singleton_get?, hleft.marker]; rfl
    simp only [bootstrapPostgresNative, hclaim, ok_bind, hmint, hmarker]
    rfl
  refine ⟨id, d', hboot, hleft.marker, ?_⟩
  have hdone := bootstrap_ok h.consistent hboot
  have hexisting : d'.existing.rows = [] := hleft.consistent.exclusive (by rw [hdone.claim]; exact List.cons_ne_nil _ _)
  have hfence : d'.legacyFence.any (fun fence => fence.state ≠ .open &&
      (fence.state = .fenced || d'.existing.rows.length = 0)) = false := by
    have hopened := hleft.opened
    cases hl : d'.legacyFence with
    | none => rfl
    | some fence =>
      rw [hl] at hopened
      simp [of_decide_eq_true hopened]
  have hfilter : d'.pending.rows.filter (fun p => p.status = .pending) = [⟨id, claimId, identity, .pending⟩] := by
    simp [hdone.pending]
  obtain ⟨marker, hins⟩ := insert?_of_empty hleft.marker ⟨id, claimId, identity⟩
  have hget : d'.marker.get? true = none := by rw [singleton_get?, hleft.marker]; rfl
  have hrank : ¬ d'.schema.rank < Schema.m088.rank := by rw [hschema']; decide
  have hconsume : ∃ d'', consumeOrValidateNativeAuthority d' identity = .ok (.initialized, d'') := by
    simp only [consumeOrValidateNativeAuthority, refuse, ok_bind, hget, hfilter, ne_eq, not_true, if_false,
      hschema', Nat.lt_irrefl, hleft.content, hins, found]
    exact ⟨_, rfl⟩
  obtain ⟨d'', hd⟩ := hconsume
  rcases consumeOrValidateNativeAuthority_ok hd with ⟨m, _, hm, _⟩ | ⟨_, p, _, _, _, marker', _, hm, _, hstate⟩
  · rw [hleft.marker] at hm
    cases hm
  · refine ⟨d'', ⟨p.authorityId, p.claimId, identity⟩, ?_, by rw [hstate]; exact hm⟩
    rw [startupRevisionAuthorityPreflight, if_pos rfl, rejectIncompleteExistingAuthorityFence, hfence, hexisting]
    simp only [refuse, if_neg hrank, Bool.false_eq_true, if_false, List.length_nil, ne_eq, not_true, ok_bind]
    exact hd

end Bootstrap

section Interruption
variable {canonicalDigest : List (Binding ι) → Text} {identity : Identity ι} {claimId : ι}

theorem Interrupted.first (canonicalDigest : List (Binding ι) → Text) (h : identity.storable = true) :
    Interrupted identity claimId (next canonicalDigest Database.initial (.mintClaim identity claimId)) := by
  obtain ⟨claims, hins⟩ := insert?_of_empty (t := (Table.empty : Singleton (Claim ι))) rfl ⟨claimId, identity, .claimed⟩
  have hmint : mintNewDatabaseClaim Database.initial identity claimId =
      .ok (claimId, { Database.initial with claims := some claims }) := by
    simp only [mintNewDatabaseClaim, Database.initial, refuse, ne_eq, not_true, if_false, ok_bind, h, Bool.not_true,
      Bool.false_eq_true, hins, found]
    rfl
  have hnext : Consistent (Authority.next canonicalDigest Database.initial (.mintClaim identity claimId)) :=
    consistent_initial.next _
  rw [next, hmint] at hnext ⊢
  exact ⟨hnext, ⟨.claimed, (singleton_insert? hins).2⟩, rfl, rfl, rfl⟩

theorem Interrupted.run {d d' : Database ι} {es : List (Event ι)} (h : Interrupted identity claimId d)
    (hes : ∀ e ∈ es, BootstrapEvent identity e) (hrun : Run (step canonicalDigest) d es d') :
    Interrupted identity claimId d' := by
  induction hrun with
  | nil => exact h
  | cons hstep _ ih =>
    cases hstep
    exact ih (h.event (hes _ List.mem_cons_self)) fun e he => hes e (List.mem_cons_of_mem _ he)

end Interruption

/-- No database a run reaches is admitted by guards of two backends; a Native startup is admitted with exactly one
authority, of its own deployment; and a repeated bootstrap ends with one claim and one authority record, without
a marker until the first startup writes the only one. -/
theorem one_backend_admitted (canonicalDigest : List (Binding ι) → Text) (es : List (Event ι)) (d : Database ι)
    (h : Run (step canonicalDigest) Database.initial es d) :
    (∀ backend, backend ≠ .postgresNative →
      ¬ (GuardAccepts canonicalDigest d .postgresNative ∧ GuardAccepts canonicalDigest d backend)) ∧
    (∀ identity admission d', startupRevisionAuthorityPreflight canonicalDigest d .postgresNative identity =
      .ok (admission, d') → OneAuthority d' identity) ∧
    (∀ identity claimId authorityId token gitBlank report d',
      bootstrapPostgresNative d identity claimId authorityId token gitBlank = .ok (report, d') →
        Bootstrapped d' identity report) ∧
    ∀ identity claimId rest, es = .mintClaim identity claimId :: rest → (∀ e ∈ rest, BootstrapEvent identity e) →
      identity.storable = true → ∀ newClaimId authorityId token, ∃ id d',
        bootstrapPostgresNative d identity newClaimId authorityId token true = .ok (⟨false, claimId, id⟩, d') ∧
        d'.marker.rows = [] ∧ ∃ d'' m,
          startupRevisionAuthorityPreflight canonicalDigest d' .postgresNative identity = .ok (.initialized, d'') ∧
          d''.marker.rows = [m] := by
  have hcons := consistent_of_run h
  refine ⟨fun backend hb hboth => guards_exclude hcons hb hboth.1 hboth.2, fun _ _ _ hp => preflight_one_authority hcons hp,
    fun _ _ _ _ _ _ _ hb => bootstrap_ok hcons hb, ?_⟩
  rintro identity claimId rest rfl hrest hstorable newClaimId authorityId token
  refine Interrupted.repeats canonicalDigest ?_ newClaimId authorityId token
  cases h with
  | cons hfirst hrun =>
    cases hfirst
    exact (Interrupted.first canonicalDigest hstorable).run hrest hrun

section Sample

/-- A bootstrap that stops after its first transaction. -/
def sampleInterruption : List (Event Nat) := [.mintClaim sampleIdentity 4]

def sampleClaimed : Database Nat := sampleInterruption.foldl (next fun _ => sampleDigest) Database.initial

theorem one_backend_admitted_interrupted : ∃ id d',
    bootstrapPostgresNative sampleClaimed sampleIdentity 5 6 7 true = .ok (⟨false, 4, id⟩, d') ∧ d'.marker.rows = [] := by
  obtain ⟨id, d', hboot, hmarker, _⟩ :=
    (one_backend_admitted (fun _ => sampleDigest) _ _ (run_of_foldl _ _ sampleInterruption)).2.2.2 sampleIdentity 4 [] rfl
      (by simp) (by decide) 5 6 7
  exact ⟨id, d', hboot, hmarker⟩

/-- Repeating a bootstrap does not write the marker. -/
theorem repeated_bootstrap_unmarked : ¬ ∀ (es : List (Event Nat)) (d d' : Database Nat) (identity : Identity Nat)
    (claimId authorityId token : Nat) (report : BootstrapReport Nat),
    Run (step fun _ => sampleDigest) Database.initial es d →
    bootstrapPostgresNative d identity claimId authorityId token true = .ok (report, d') →
    d'.marker.rows.length = 1 := by
  intro h
  have hboot : (bootstrapPostgresNative sampleClaimed sampleIdentity 5 6 7 true).toOption.map (fun r => r.2.marker.rows.length) =
      some 0 := by decide
  cases hb : bootstrapPostgresNative sampleClaimed sampleIdentity 5 6 7 true with
  | error code =>
    rw [hb] at hboot
    cases hboot
  | ok result =>
    have hone := h _ _ result.2 _ _ _ _ result.1 (run_of_foldl _ _ sampleInterruption) hb
    rw [hb] at hboot
    have hzero : result.2.marker.rows.length = 0 := Option.some.inj hboot
    omega

end Sample
end Akb.Authority
