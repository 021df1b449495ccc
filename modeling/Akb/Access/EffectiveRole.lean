import Akb.Access.Roles
import Akb.Library.Fallible

/-! The materialized row of a pair is the strongest of its contributions, after
any sequence of contribution writes. -/
namespace Akb.Access
open Akb.Library
variable {Vault User : Type} [DecidableEq Vault] [DecidableEq User]

/-- What `vault_access` owes to the contributions of one pair. -/
structure PairMaterialized (t : Tables Vault User) (p : Vault × User) : Prop where
  row_iff : (∃ a ∈ t.access, a.pair = p) ↔ ∃ c ∈ t.contributions, c.pair = p
  strongest : ∀ a ∈ t.access, a.pair = p → ∀ c ∈ t.contributions, c.pair = p →
    roleHierarchy c.role.role ≤ roleHierarchy a.role
  basis : ∀ a ∈ t.access, a.pair = p → ∃ c ∈ t.contributions,
    c.pair = p ∧ c.role.role = a.role ∧ c.grantedBy = a.grantedBy

def Materialized (t : Tables Vault User) : Prop := ∀ p, PairMaterialized t p

omit [DecidableEq Vault] [DecidableEq User] in
theorem materialized_empty : Materialized (Tables.empty : Tables Vault User) := by
  intro p
  constructor <;> simp [Tables.empty]

omit [DecidableEq Vault] [DecidableEq User] in
/-- A pair's obligation reads that pair's rows only. -/
theorem PairMaterialized.congr {t u : Tables Vault User} {p : Vault × User} (h : PairMaterialized t p)
    (hc : ∀ c, c.pair = p → (c ∈ u.contributions ↔ c ∈ t.contributions))
    (ha : ∀ a, a.pair = p → (a ∈ u.access ↔ a ∈ t.access)) : PairMaterialized u p where
  row_iff := by
    have hl : (∃ a ∈ u.access, a.pair = p) ↔ ∃ a ∈ t.access, a.pair = p :=
      exists_congr (fun a => and_congr_left (ha a))
    have hr : (∃ c ∈ u.contributions, c.pair = p) ↔ ∃ c ∈ t.contributions, c.pair = p :=
      exists_congr (fun c => and_congr_left (hc c))
    rw [hl, hr]
    exact h.row_iff
  strongest a hau hap c hcu hcp := h.strongest a ((ha a hap).mp hau) hap c ((hc c hcp).mp hcu) hcp
  basis a hau hap := by
    obtain ⟨c, hct, hcp, hr⟩ := h.basis a ((ha a hap).mp hau) hap
    exact ⟨c, (hc c hcp).mpr hct, hcp, hr⟩

theorem mem_pairRows {scan : ScanOrder Vault User} {t : Tables Vault User} {vault : Vault} {user : User}
    {c : Contribution Vault User} :
    c ∈ pairRows scan t vault user ↔ c ∈ t.contributions ∧ c.pair = (vault, user) := by
  rw [pairRows, (scan.perm _).mem_iff]
  simp [Table.mem_def]

theorem currentEffectiveRole_eq_some {t : Tables Vault User} {a : AccessRow Vault User} (ha : a ∈ t.access) :
    currentEffectiveRole t a.vaultId a.userId = some a.role := by
  have hg : t.access.get? (a.vaultId, a.userId) = some a := Table.get?_eq_some.mpr ⟨ha, rfl⟩
  rw [currentEffectiveRole, hg]
  rfl

theorem currentEffectiveRole_eq_none {t : Tables Vault User} {vault : Vault} {user : User}
    (h : ∀ a ∈ t.access, a.pair ≠ (vault, user)) : currentEffectiveRole t vault user = none := by
  rw [currentEffectiveRole, Table.get?_eq_none.mpr h]
  rfl

/-- Everything a recomputation does: the contributions stay, other pairs keep
their rows, the pair's obligation holds, and the returned role is the stored one. -/
theorem materialize_spec (scan : ScanOrder Vault User) (t : Tables Vault User) (vault : Vault) (user : User) :
    (materialize scan t vault user).2.contributions = t.contributions ∧
    (∀ a, a.pair ≠ (vault, user) → (a ∈ (materialize scan t vault user).2.access ↔ a ∈ t.access)) ∧
    PairMaterialized (materialize scan t vault user).2 (vault, user) ∧
    (materialize scan t vault user).1 = currentEffectiveRole (materialize scan t vault user).2 vault user := by
  unfold materialize
  dsimp only
  split
  · rename_i hnone
    rw [effectiveRole_eq_none] at hnone
    have hrows : ∀ c ∈ t.contributions, c.pair ≠ (vault, user) := by
      intro c hc hp
      have hm := List.mem_map_of_mem (f := fun c => some c.role.role) (mem_pairRows.mpr ⟨hc, hp⟩ :
        c ∈ pairRows scan t vault user)
      cases hnone _ hm
    have hgone : ∀ a ∈ t.access.deleteWhere (fun a => a.pair = (vault, user)), a.pair ≠ (vault, user) := by
      intro a ha
      simpa using (Table.mem_deleteWhere.mp ha).2
    refine ⟨rfl, ?_, ⟨?_, ?_, ?_⟩, (currentEffectiveRole_eq_none hgone).symm⟩
    · intro a ha
      simp [Table.mem_deleteWhere, ha]
    · exact ⟨fun ⟨a, ha, hp⟩ => absurd hp (hgone a ha), fun ⟨c, hc, hp⟩ => absurd hp (hrows c hc)⟩
    · exact fun a ha hp => absurd hp (hgone a ha)
    · exact fun a ha hp => absurd hp (hgone a ha)
  · rename_i effective hsome
    -- The winning role is carried by some scanned row, so the attribution search succeeds.
    obtain ⟨winner, hwinner, hrole⟩ := List.mem_map.mp (effectiveRole_mem hsome)
    have hfound : ∃ c, (pairRows scan t vault user).find? (fun c => c.role.role = effective) = some c := by
      rw [← Option.isSome_iff_exists, List.find?_isSome]
      exact ⟨winner, hwinner, by simpa using hrole⟩
    obtain ⟨c, hc⟩ := hfound
    obtain ⟨hct, hcp⟩ := mem_pairRows.mp (List.mem_of_find?_eq_some hc)
    have hcr : c.role.role = effective := by simpa using List.find?_some hc
    rw [hc, Option.bind_some]
    have hmine : ∀ a ∈ t.access.upsert ⟨vault, user, effective, c.grantedBy⟩, a.pair = (vault, user) →
        a = ⟨vault, user, effective, c.grantedBy⟩ := by
      intro a ha hp
      rcases Table.mem_upsert.mp ha with h | ⟨_, h⟩
      · exact h
      · exact absurd hp h
    have hself : (⟨vault, user, effective, c.grantedBy⟩ : AccessRow Vault User) ∈
        t.access.upsert ⟨vault, user, effective, c.grantedBy⟩ := Table.mem_upsert.mpr (Or.inl rfl)
    refine ⟨rfl, ?_, ⟨?_, ?_, ?_⟩, ?_⟩
    · intro a ha
      rw [Table.mem_upsert]
      exact ⟨fun h => h.elim (fun e => absurd (congrArg AccessRow.pair e) ha) And.left,
        fun h => Or.inr ⟨h, ha⟩⟩
    · exact ⟨fun _ => ⟨c, hct, hcp⟩, fun _ => ⟨_, hself, rfl⟩⟩
    · intro a ha hp d hd hdp
      have hle := effectiveRole_max (List.mem_map_of_mem (f := fun c => some c.role.role)
        (mem_pairRows.mpr ⟨hd, hdp⟩ : d ∈ pairRows scan t vault user))
      rw [hsome] at hle
      rw [hmine a ha hp]
      exact hle
    · intro a ha hp
      rw [hmine a ha hp]
      exact ⟨c, hct, hcp, hcr, rfl⟩
    · exact (currentEffectiveRole_eq_some (t := { t with access := t.access.upsert _ }) hself).symm

/-- A recomputation of one pair restores the obligation everywhere, provided the
contributions of the other pairs were left alone since it last held. -/
theorem materialized_materialize {t u : Tables Vault User} {vault : Vault} {user : User}
    (scan : ScanOrder Vault User) (h : Materialized t) (ha : u.access = t.access)
    (hc : ∀ c, c.pair ≠ (vault, user) → (c ∈ u.contributions ↔ c ∈ t.contributions)) :
    Materialized (materialize scan u vault user).2 := by
  obtain ⟨hcontrib, hother, hpair, _⟩ := materialize_spec scan u vault user
  intro p
  by_cases hp : p = (vault, user)
  · rw [hp]
    exact hpair
  · refine (h p).congr ?_ ?_
    · intro c hcp
      rw [hcontrib]
      exact hc c (by rwa [hcp])
    · intro a hap
      rw [hother a (by rwa [hap]), ha]

omit [DecidableEq User] [DecidableEq Vault] in
theorem Contribution.pair_of_key {c : Contribution Vault User} {vault : Vault} {user : User} {key : SourceKey}
    (h : c.key = (vault, user, key)) : c.pair = (vault, user) := by
  simp only [Contribution.key, Prod.mk.injEq] at h
  simp [Contribution.pair, h.1, h.2.1]

/-- `apply_contribution` either ignores a stale revision or stores one row. -/
theorem applyContribution_cases {scan : ScanOrder Vault User} {t t' : Tables Vault User} {vault : Vault}
    {user : User} {role sourceKey : String} {grantedBy : Option User} {revision : Option Int}
    {out : ContributionOutcome}
    (h : applyContribution scan t vault user role sourceKey grantedBy revision = .ok (out, t')) :
    (∃ stored : Contribution Vault User, t.contributions.get? stored.key = some stored ∧
      stored.pair = (vault, user) ∧ t' = t ∧
      out = ⟨false, currentEffectiveRole t vault user, currentEffectiveRole t vault user, some stored.role.role⟩) ∨
    ∃ c : Contribution Vault User, c.pair = (vault, user) ∧ storeContribution scan t c = (out, t') := by
  simp only [applyContribution, bind_eq_ok] at h
  obtain ⟨role, _, key, _, h⟩ := h
  split at h
  · simp only [bind_eq_ok, pure_eq_ok] at h
    obtain ⟨next, _, h⟩ := h
    exact Or.inr ⟨_, rfl, h⟩
  · rename_i stored hget
    split at h
    · simp only [pure_eq_ok, Prod.mk.injEq] at h
      have hk := (Table.mem_of_get? hget).2
      exact Or.inl ⟨stored, by rw [hk]; exact hget, Contribution.pair_of_key hk, h.2.symm, h.1.symm⟩
    · simp only [bind_eq_ok, pure_eq_ok] at h
      obtain ⟨next, _, h⟩ := h
      exact Or.inr ⟨_, rfl, h⟩
  · simp only [bind_eq_ok, pure_eq_ok] at h
    obtain ⟨next, _, h⟩ := h
    exact Or.inr ⟨_, rfl, h⟩

/-- `remove_contribution` either finds nothing to do or deletes the one row of its key. -/
theorem removeContribution_cases {scan : ScanOrder Vault User} {t t' : Tables Vault User} {vault : Vault}
    {user : User} {sourceKey : String} {revision : Option Int} {out : ContributionOutcome}
    (h : removeContribution scan t vault user sourceKey revision = .ok (out, t')) :
    out.previousEffectiveRole = currentEffectiveRole t vault user ∧
    ((t' = t ∧ out.effectiveRole = out.previousEffectiveRole) ∨
      ∃ key : SourceKey, (out.effectiveRole, t') =
        dropContributions scan t vault user (fun c => c.key = (vault, user, key))) := by
  simp only [removeContribution, bind_eq_ok] at h
  obtain ⟨key, _, h⟩ := h
  split at h
  · cases h
    exact ⟨rfl, Or.inl ⟨rfl, rfl⟩⟩
  · split at h
    · cases h
      exact ⟨rfl, Or.inl ⟨rfl, rfl⟩⟩
    · cases h
      exact ⟨rfl, Or.inr ⟨key, rfl⟩⟩

theorem mem_upsert_other {t : Tables Vault User} {c d : Contribution Vault User} (h : d.pair ≠ c.pair) :
    d ∈ t.contributions.upsert c ↔ d ∈ t.contributions := by
  rw [Table.mem_upsert]
  constructor
  · rintro (rfl | hd)
    · exact absurd rfl h
    · exact hd.1
  · exact fun hd => Or.inr ⟨hd, fun e => h (Contribution.pair_of_key e)⟩

omit [DecidableEq User] [DecidableEq Vault] in
theorem mem_deleteWhere_other {t : Tables Vault User} {p : Vault × User}
    {selected : Contribution Vault User → Bool} (hs : ∀ c, selected c → c.pair = p)
    {d : Contribution Vault User} (h : d.pair ≠ p) :
    d ∈ t.contributions.deleteWhere selected ↔ d ∈ t.contributions := by
  rw [Table.mem_deleteWhere]
  have hn : selected d = false := Bool.not_eq_true _ ▸ fun he => h (hs d he)
  simp [hn]

/-- A call that returns either changed nothing, or rewrote contributions of its
own pair and recomputed that pair. -/
theorem call_cases {scan : ScanOrder Vault User} {t t' : Tables Vault User} {call : Call Vault User}
    {out : ContributionOutcome} (h : call.run scan t = .ok (out, t')) :
    out.previousEffectiveRole = currentEffectiveRole t call.pair.1 call.pair.2 ∧
    ((t' = t ∧ out.effectiveRole = out.previousEffectiveRole) ∨
      ∃ u : Tables Vault User, u.access = t.access ∧
        (∀ c, c.pair ≠ call.pair → (c ∈ u.contributions ↔ c ∈ t.contributions)) ∧
        (out.effectiveRole, t') = materialize scan u call.pair.1 call.pair.2) := by
  cases call with
  | apply vault user role sourceKey grantedBy revision =>
    rcases applyContribution_cases h with ⟨stored, _, _, rfl, rfl⟩ | ⟨c, hp, he⟩
    · exact ⟨rfl, Or.inl ⟨rfl, rfl⟩⟩
    · cases hp
      cases he
      exact ⟨rfl, Or.inr ⟨{ t with contributions := t.contributions.upsert c }, rfl,
        fun _ hd => mem_upsert_other hd, rfl⟩⟩
  | remove vault user sourceKey revision =>
    obtain ⟨hprev, hsame | ⟨key, he⟩⟩ := removeContribution_cases h
    · exact ⟨hprev, Or.inl hsame⟩
    · refine ⟨hprev, Or.inr ⟨{ t with contributions := t.contributions.deleteWhere _ }, rfl,
        fun d hd => mem_deleteWhere_other ?_ hd, he⟩⟩
      exact fun c hc => Contribution.pair_of_key (of_decide_eq_true hc)
  | removeAll vault user =>
    cases h
    exact ⟨rfl, Or.inr ⟨{ t with contributions := t.contributions.deleteWhere _ }, rfl,
      fun d hd => mem_deleteWhere_other (p := (vault, user)) (by simp) hd, rfl⟩⟩

theorem materialized_perform {t : Tables Vault User} (step : ScanOrder Vault User × Call Vault User)
    (h : Materialized t) : Materialized (perform t step) := by
  unfold perform
  cases hr : step.2.run step.1 t with
  | error e => exact h
  | ok out =>
    dsimp only
    rcases (call_cases hr).2 with ⟨he, _⟩ | ⟨u, ha, hc, he⟩
    · rwa [he]
    · rw [show out.2 = (materialize step.1 u step.2.pair.1 step.2.pair.2).2 from congrArg Prod.snd he]
      exact materialized_materialize step.1 h ha hc

theorem materialized_performAll {t : Tables Vault User} (steps : List (ScanOrder Vault User × Call Vault User))
    (h : Materialized t) : Materialized (performAll t steps) := by
  induction steps generalizing t with
  | nil => exact h
  | cons step steps ih => exact ih (materialized_perform step h)

/-- The two roles an outcome reports are the stored roles around the call. -/
theorem outcome_roles {scan : ScanOrder Vault User} {t t' : Tables Vault User} {call : Call Vault User}
    {out : ContributionOutcome} (h : call.run scan t = .ok (out, t')) :
    out.previousEffectiveRole = currentEffectiveRole t call.pair.1 call.pair.2 ∧
    out.effectiveRole = currentEffectiveRole t' call.pair.1 call.pair.2 := by
  obtain ⟨hprev, hcase⟩ := call_cases h
  refine ⟨hprev, ?_⟩
  rcases hcase with ⟨rfl, he⟩ | ⟨u, _, _, he⟩
  · rw [he, hprev]
  · have hs := (materialize_spec scan u call.pair.1 call.pair.2).2.2.2
    rw [← he] at hs
    exact hs

/-- After every sequence of contribution writes from empty tables: a pair has an
access row exactly when it has a contribution, the row's role is the strongest
of them and its grantor is that of a basis with this role; and every call that
returns reports the stored roles before and after it. -/
theorem materialized_effective_role (steps : List (ScanOrder Vault User × Call Vault User)) :
    Materialized (performAll (Tables.empty : Tables Vault User) steps) ∧
    ∀ (scan : ScanOrder Vault User) (call : Call Vault User) (out : ContributionOutcome) (t' : Tables Vault User),
      call.run scan (performAll .empty steps) = .ok (out, t') →
      out.previousEffectiveRole =
        currentEffectiveRole (performAll (Tables.empty : Tables Vault User) steps) call.pair.1 call.pair.2 ∧
      out.effectiveRole = currentEffectiveRole t' call.pair.1 call.pair.2 :=
  ⟨materialized_performAll steps materialized_empty, fun _ _ _ _ h => outcome_roles h⟩

/-- A member with a direct and a team basis. -/
def teamMember : Tables Nat Nat :=
  performAll .empty [(.stored, .apply 1 2 "reader" "direct" none none),
    (.stored, .apply 1 2 "writer" "team:alpha" (some 9) (some 5))]

/-- Losing the team basis takes the member from writer to reader. -/
theorem materialized_effective_role_team :
    ∃ t', Call.run .stored teamMember (.remove 1 2 "team:alpha" (some 6)) =
        .ok (⟨true, some .reader, some .writer, none⟩, t') ∧
      currentEffectiveRole teamMember 1 2 = some .writer ∧ currentEffectiveRole t' 1 2 = some .reader := by
  have hout : (Call.run .stored teamMember (.remove 1 2 "team:alpha" (some 6))).toOption.map Prod.fst =
      some ⟨true, some .reader, some .writer, none⟩ := by decide
  cases h : Call.run .stored teamMember (.remove 1 2 "team:alpha" (some 6)) with
  | error e =>
    rw [h] at hout
    cases hout
  | ok r =>
    obtain ⟨out, t'⟩ := r
    rw [h] at hout
    cases hout
    obtain ⟨hprev, hnow⟩ := (materialized_effective_role _).2 .stored (.remove 1 2 "team:alpha" (some 6)) _ t' h
    exact ⟨t', rfl, hprev.symm, hnow.symm⟩

end Akb.Access
