import Akb.RoleSync.Reconciled

/-! A projection with pending parts: a catalog write leaves some of it to be redone, and every hook
settles its own part. -/
namespace Akb.RoleSync
open Akb.Library Akb.Native

/-- The parts that are not projected yet. -/
structure Pending where
  pairs : Uuid → Uuid → Prop
  owners : Uuid → Prop
  levels : Uuid → Prop
  groups : Uuid → Prop

structure ProjectedBut (c : Catalog) (r : Roles) (p : Pending) : Prop where
  users : ∀ u ∈ c.users, ∀ v s, ¬ p.pairs v u.id →
    Exact r (vaultGroupRoleName v s) (userRoleName u.id) (c.UserAuthority u.id v s)
  anyone : ∀ v s, ¬ p.levels v → Exact r (vaultGroupRoleName v s) authenticatedRole (c.PublicAuthority v s)
  tokens : ∀ t ∈ c.liveScopedTokens, (scopeOfToken t).isSome → ¬ p.owners t.userId →
    ∀ v s, Exact r (vaultGroupRoleName v s) (tokenRoleName t.id) (c.TokenAuthority t v s)
  readable : ∀ t ∈ c.liveScopedTokens, ∀ e, t.vaultScope ≠ some (.error e)
  noOrphans : NoOrphans c r
  hierarchy : ∀ v ∈ c.vaults, ¬ p.groups v.id → Hierarchy r v.id

def Pending.nothing : Pending := ⟨fun _ _ => False, fun _ => False, fun _ => False, fun _ => False⟩

section
variable {pg : Server} {order : SetOrder} {sha1 : List Char → List Char} {c c' : Catalog} {r r' : Roles} {p q : Pending}
  {e : Effect}

theorem Projected.but (h : Projected c r) : ProjectedBut c r .nothing :=
  ⟨fun u hu v s _ => h.users u hu v s, fun v s _ => h.anyone v s, fun t ht hs _ => h.tokens t ht hs, h.readable,
    h.noOrphans, fun v hv _ => h.hierarchy v hv⟩

theorem ProjectedBut.done (h : ProjectedBut c r p) (hp : ∀ v u, ¬ p.pairs v u) (ho : ∀ u, ¬ p.owners u)
    (hl : ∀ v, ¬ p.levels v) (hg : ∀ v, ¬ p.groups v) : Projected c r :=
  ⟨fun u hu v s => h.users u hu v s (hp _ _), fun v s => h.anyone v s (hl v), fun t ht hs => h.tokens t ht hs (ho _),
    h.readable, h.noOrphans, fun v hv => h.hierarchy v hv (hg _)⟩

/-! ### Hooks -/

/-- The groups of the live tokens of a user, and names of token roles. -/
def Effect.tokensOf (c : Catalog) (userId : Uuid) : Effect :=
  ⟨fun g m => (∃ t ∈ c.userTokens userId, m = tokenRoleName t.id) ∧ IsGroup g,
    fun g m => (∃ t ∈ c.userTokens userId, m = tokenRoleName t.id) ∧ IsGroup g, IsToken, fun _ => False⟩

private def tokenEffect (t : Token) : Effect :=
  ⟨(Effect.token t).edges, (Effect.token t).edges, IsToken, fun _ => False⟩

private theorem syncToken_changes {t : Token} {accessible : List (Uuid × String × Access.Role)}
    (h : syncToken pg order accessible t r = .ok r') :
    Changes pg (tokenEffect t) r r' := by
  rw [syncToken] at h
  split at h
  · obtain ⟨r₁, hcreate, h⟩ := bind_eq_ok.mp h
    obtain ⟨wanted, hwanted, h⟩ := bind_eq_ok.mp h
    obtain ⟨r₂, hgrant, hrevoke⟩ := bind_eq_ok.mp h
    obtain ⟨hc, -⟩ := convergeMember (fun _ => False) hgrant hrevoke (fun _ hknown => hknown.elim)
    have hgroup : ∀ g, g ∈ wanted ∨ g ∈ tokenGroupMemberships r₁ (tokenRoleName t.id) → IsGroup g := fun g hg =>
      isGroup_iff.mpr (hg.elim (fun hw => wanted_isGroup hwanted hw) (fun hb => (mem_tokenGroupMemberships.mp hb).1))
    refine ((createRoleIfMissing_spec hcreate).widen (tokenEffect t) ⟨fun _ _ h => h.elim, fun _ _ h => h.elim,
      fun name hname => ⟨t.id, hname⟩, fun _ h => h⟩).trans (hc.mono ⟨fun g m he => ⟨he.1, hgroup g he.2⟩,
      fun g m he => ⟨he.1, hgroup g he.2⟩, fun _ h => h.elim, fun _ h => h⟩)
  · cases h
    exact .refl

private theorem syncToken_exact {t : Token} {scope : VaultScope} (hscope : scopeOfToken t = some scope)
    (h : syncToken pg order (c.accessible t.userId) t r = .ok r') (v : Uuid) (s : Scope) :
    Exact r' (vaultGroupRoleName v s) (tokenRoleName t.id) (c.TokenAuthority t v s) := by
  rw [syncToken] at h
  split at h
  · rename_i scope' hstored
    have hsame : scope' = scope := by
      rw [scopeOfToken, hstored] at hscope
      exact Option.some.inj hscope
    subst hsame
    obtain ⟨r₁, hcreate, h⟩ := bind_eq_ok.mp h
    obtain ⟨wanted, hwanted, h⟩ := bind_eq_ok.mp h
    obtain ⟨r₂, hgrant, hrevoke⟩ := bind_eq_ok.mp h
    obtain ⟨-, hexact⟩ := convergeMember (fun g => isCatalogRole g .vault = true) hgrant hrevoke
      (fun group hknown hhas => mem_tokenGroupMemberships.mpr ⟨hknown, hhas⟩)
    exact (hexact _ (isCatalogRole_vault.mpr ⟨v, s, rfl⟩)).congr (mem_wantedTokenGroupRoles hscope hwanted v s)
  · rename_i hnone
    rw [scopeOfToken] at hscope
    split at hscope
    · rename_i scope' hstored
      rw [hscope] at hstored
      exact absurd hstored (hnone scope)
    · cases hscope

theorem syncUserScopedTokens_spec {userId : Uuid} (h : syncUserScopedTokens pg order c userId r = .ok r') :
    Changes pg (.tokensOf c userId) r r' ∧ ∀ t ∈ c.userTokens userId, (scopeOfToken t).isSome →
      ∀ v s, Exact r' (vaultGroupRoleName v s) (tokenRoleName t.id) (c.TokenAuthority t v s) := by
  have howner {t : Token} (ht : t ∈ c.userTokens userId) : t.userId = userId := of_decide_eq_true (List.mem_filter.mp ht).2
  have hlive {t : Token} (ht : t ∈ c.userTokens userId) : t ∈ c.liveScopedTokens := (List.mem_filter.mp ht).1
  constructor
  · refine performAll_changes h (fun t ht s s' hrun => (syncToken_changes hrun).mono ⟨?_, ?_, fun _ h => h, fun _ h => h⟩)
    · exact fun g m he => ⟨⟨t, ht, he.1⟩, he.2⟩
    · exact fun g m he => ⟨⟨t, ht, he.1⟩, he.2⟩
  · intro t ht hsome v sc
    obtain ⟨scope, hscope⟩ := Option.isSome_iff_exists.mp hsome
    refine performAll_establishes (I := fun _ => True) (P := fun t s => (scopeOfToken t).isSome →
      Exact s (vaultGroupRoleName v sc) (tokenRoleName t.id) (c.TokenAuthority t v sc)) h trivial ?_ ?_ t ht hsome
    · intro t ht s s' _ hrun
      refine ⟨trivial, fun hsome => ?_⟩
      obtain ⟨scope, hscope⟩ := Option.isSome_iff_exists.mp hsome
      rw [← howner ht] at hrun
      exact syncToken_exact hscope hrun v sc
    · intro t ht t' ht' s s' _ hP hrun hsome
      by_cases hid : t.id = t'.id
      · obtain rfl := eq_of_token_id (hlive ht) (hlive ht') hid
        obtain ⟨scope, hscope⟩ := Option.isSome_iff_exists.mp hsome
        rw [← howner ht] at hrun
        exact syncToken_exact hscope hrun v sc
      · exact (hP hsome).changes (syncToken_changes hrun) (token_edges_ne hid)

/-- The memberships of one user in one vault, and those of the user's tokens. -/
def Effect.sync (c : Catalog) (vaultId userId : Uuid) : Effect :=
  ⟨fun g m => (Effect.vault vaultId (userRoleName userId)).edges g m ∨ (Effect.tokensOf c userId).edges g m,
    fun g m => (Effect.vault vaultId (userRoleName userId)).edges g m ∨ (Effect.tokensOf c userId).edges g m,
    fun name => IsUser name ∨ IsToken name, fun _ => False⟩

theorem wantedRole_scope {x : Vault} (hx : x ∈ c.vaults) {u : User} (hu : u ∈ c.users) (s : Scope) :
    (wantedRole c x.id u.id).bind scopeOf = some s ↔ c.UserAuthority u.id x.id s := by
  have hwanted : wantedRole c x.id u.id = if x.ownerId = some u.id then some .admin else c.memberRole? x.id u.id := by
    rw [wantedRole, Table.get?_eq_some.mpr ⟨hx, rfl⟩, Table.get?_eq_some.mpr ⟨hu, rfl⟩]
  have hauthority : c.UserAuthority u.id x.id s ↔
      (if x.ownerId = some u.id then s = .admin else c.Granted x.id u.id s) := by
    constructor
    · rintro ⟨y, hy, hid, hwhy⟩
      rwa [c.vaults.eq_of_key hy hx hid] at hwhy
    · exact fun hwhy => ⟨x, hx, rfl, hwhy⟩
  rw [hwanted, hauthority]
  split
  · rw [Option.bind_some, scopeOf, Option.some.injEq, eq_comm]
  · constructor
    · intro h
      obtain ⟨role, hrole, hs⟩ := Option.bind_eq_some_iff.mp h
      obtain ⟨a, ha, rfl⟩ := Option.map_eq_some_iff.mp hrole
      exact ⟨a, (Table.mem_of_get? ha).1, (Table.mem_of_get? ha).2, hs⟩
    · rintro ⟨a, ha, hpair, hs⟩
      refine Option.bind_eq_some_iff.mpr ⟨a.role, ?_, hs⟩
      rw [Catalog.memberRole?, Access.currentEffectiveRole, Table.get?_eq_some.mpr ⟨ha, hpair⟩]
      rfl

theorem syncVaultUserInConn_spec {x : Vault} (hx : x ∈ c.vaults) {u : User} (hu : u ∈ c.users)
    (h : syncVaultUserInConn pg order c x.id u.id r = .ok r') :
    Changes pg (.sync c x.id u.id) r r' ∧
      (∀ s, Exact r' (vaultGroupRoleName x.id s) (userRoleName u.id) (c.UserAuthority u.id x.id s)) ∧
      ∀ t ∈ c.userTokens u.id, (scopeOfToken t).isSome →
        ∀ v s, Exact r' (vaultGroupRoleName v s) (tokenRoleName t.id) (c.TokenAuthority t v s) := by
  simp only [syncVaultUserInConn, bind_eq_ok] at h
  obtain ⟨r₁, hrevoke, r₂, hgrant, htokens⟩ := h
  obtain ⟨hc₁, hgone⟩ := revokeOthers_spec hrevoke
  obtain ⟨hc₃, hexact₃⟩ := syncUserScopedTokens_spec htokens
  have hgranted : Changes pg ⟨(Effect.vault x.id (userRoleName u.id)).edges, (Effect.vault x.id (userRoleName u.id)).edges,
      IsUser, fun _ => False⟩ r₁ r₂ ∧
      ∀ s, Exact r₂ (vaultGroupRoleName x.id s) (userRoleName u.id) ((wantedRole c x.id u.id).bind scopeOf = some s) := by
    unfold grantWanted at hgrant
    split at hgrant
    · rename_i hnone
      cases hgrant
      rw [hnone] at hgone
      rw [hnone]
      exact ⟨.refl, fun s => ⟨fun hw => (by cases hw), fun hhas => absurd hhas (hgone s (by simp))⟩⟩
    · rename_i role hsome
      obtain ⟨s₁, hcreate, hgrant⟩ := bind_eq_ok.mp hgrant
      obtain ⟨group, hgroup, hgrant⟩ := bind_eq_ok.mp hgrant
      obtain ⟨scope, hscope, rfl⟩ := groupRoleName_ok hgroup
      rw [hsome, Option.bind_some, hscope] at hgone
      rw [hsome, Option.bind_some, hscope]
      have hcreated := createRoleIfMissing_spec hcreate
      obtain ⟨hc, hexact⟩ := exact_of_grant (fun other hne hhas => hgone other hne ((hcreated.has id).mp hhas)) hgrant
      refine ⟨(hcreated.widen ⟨_, _, IsUser, _⟩ ⟨fun _ _ h => h.elim, fun _ _ h => h.elim, fun name hname => ⟨u.id, hname⟩,
        fun _ h => h⟩).trans (hc.mono ⟨fun _ _ h => h, fun _ _ h => h, fun _ h => h.elim, fun _ h => h⟩), hexact⟩
  obtain ⟨hc₂, hexact₂⟩ := hgranted
  refine ⟨((hc₁.mono ?_).trans (hc₂.mono ?_)).trans (hc₃.mono ?_), fun s => ?_, hexact₃⟩
  · exact ⟨fun _ _ h => .inl h, fun _ _ h => .inl h, fun _ h => h.elim, fun _ h => h⟩
  · exact ⟨fun _ _ h => .inl h, fun _ _ h => .inl h, fun _ h => .inl h, fun _ h => h⟩
  · exact ⟨fun _ _ h => .inr h, fun _ _ h => .inr h, fun _ h => .inr h, fun _ h => h⟩
  · refine ((hexact₂ s).changes hc₃ ?_).congr (wantedRole_scope hx hu s)
    rintro ⟨⟨t, -, ht⟩, -⟩
    exact user_ne_token u.id t.id ht

theorem spares_sync (v u : Uuid) : SparesGroups (.sync c v u) := by
  refine ⟨fun g m _ hm he => ?_, fun name hn => ?_⟩
  · rcases he with ⟨rfl, -⟩ | ⟨⟨t, -, rfl⟩, -⟩
    · exact not_isGroup_user u hm
    · exact not_isGroup_token t.id hm
  · rcases hn with ⟨u', rfl⟩ | ⟨t, rfl⟩
    · exact not_isGroup_user u'
    · exact not_isGroup_token t

/-- A hook for a user settles its pair, and the tokens of the user. -/
theorem ProjectedBut.sync {x : Vault} (hx : x ∈ c.vaults) {u : User} (hu : u ∈ c.users) (hp : ProjectedBut c r p)
    (h : syncVaultUserInConn pg order c x.id u.id r = .ok r') :
    ProjectedBut c r' { p with pairs := fun v w => p.pairs v w ∧ ¬ (v = x.id ∧ w = u.id),
                               owners := fun w => p.owners w ∧ w ≠ u.id } := by
  obtain ⟨hc, husers, htokens⟩ := syncVaultUserInConn_spec hx hu h
  refine ⟨fun w hw v s hpending => ?_, fun v s hpending => ?_, fun t ht hsome hpending v s => ?_, hp.readable,
    hp.noOrphans.spared hc (spares_sync _ _), fun v hv hpending => (hp.hierarchy v hv hpending).spared hc (spares_sync _ _)⟩
  · by_cases hmine : v = x.id ∧ w.id = u.id
    · rw [hmine.1, hmine.2]
      exact husers s
    · refine (hp.users w hw v s (fun hpair => hpending ⟨hpair, hmine⟩)).changes hc ?_
      rintro (⟨hmember, scope, hgroup⟩ | ⟨⟨t, -, ht⟩, -⟩)
      · exact hmine ⟨(vaultGroupRoleName_inj hgroup).1, userRoleName_injective hmember⟩
      · exact user_ne_token _ _ ht
  · refine (hp.anyone v s hpending).changes hc ?_
    rintro (⟨hmember, -⟩ | ⟨⟨t, -, ht⟩, -⟩)
    · exact user_ne_authenticated _ hmember.symm
    · exact token_ne_authenticated _ ht.symm
  · by_cases hmine : t.userId = u.id
    · exact htokens t (List.mem_filter.mpr ⟨ht, decide_eq_true hmine⟩) hsome v s
    · refine (hp.tokens t ht hsome (fun howner => hpending ⟨howner, hmine⟩) v s).changes hc ?_
      rintro (⟨hmember, -⟩ | ⟨⟨t', ht', he⟩, -⟩)
      · exact user_ne_token _ _ hmember.symm
      · obtain ⟨ht', howner⟩ := List.mem_filter.mp ht'
        rw [eq_of_token_id ht ht' (tokenRoleName_injective he)] at hmine
        exact hmine (of_decide_eq_true howner)

/-- The memberships of the wildcard role in one vault. -/
def Effect.level (vaultId : Uuid) : Effect :=
  ⟨(Effect.vault vaultId authenticatedRole).edges, (Effect.vault vaultId authenticatedRole).edges,
    (· = authenticatedRole), fun _ => False⟩

theorem onPublicAccessChangeInConn_spec {vaultId : Uuid} {level : String}
    (h : onPublicAccessChangeInConn pg vaultId level r = .ok r') :
    Changes pg (.level vaultId) r r' ∧
      ∀ s, Exact r' (vaultGroupRoleName vaultId s) authenticatedRole (publicAccessScope level = some s) := by
  obtain ⟨r₁, hcreate, h⟩ := bind_eq_ok.mp h
  obtain ⟨hc, hexact⟩ := syncPublicLevel_spec h
  refine ⟨((createRoleIfMissing_spec hcreate).widen (.level vaultId)
    ⟨fun _ _ h => h.elim, fun _ _ h => h.elim, fun _ h => h, fun _ h => h⟩).trans
    (hc.mono ⟨fun _ _ h => h, fun _ _ h => h, fun _ h => h.elim, fun _ h => h⟩), hexact⟩

/-- The hook for the public level settles the level of its vault. -/
theorem ProjectedBut.level {x : Vault} (hx : x ∈ c.vaults) {level : String} (hlevel : x.publicAccess = some level)
    (hp : ProjectedBut c r p) (h : onPublicAccessChangeInConn pg x.id level r = .ok r') :
    ProjectedBut c r' { p with levels := fun v => p.levels v ∧ v ≠ x.id } := by
  obtain ⟨hc, hexact⟩ := onPublicAccessChangeInConn_spec h
  have hspares : SparesGroups (.level x.id) := by
    refine ⟨fun g m _ hm he => not_isGroup_authenticated (he.1 ▸ hm), ?_⟩
    rintro _ rfl
    exact not_isGroup_authenticated
  refine ⟨fun w hw v s hpending => (hp.users w hw v s hpending).changes hc (fun he => user_ne_authenticated _ he.1),
    fun v s hpending => ?_,
    fun t ht hsome hpending v s => (hp.tokens t ht hsome hpending v s).changes hc (fun he => token_ne_authenticated _ he.1),
    hp.readable, hp.noOrphans.spared hc hspares, fun v hv hpending => (hp.hierarchy v hv hpending).spared hc hspares⟩
  by_cases hmine : v = x.id
  · subst hmine
    refine (hexact s).congr ⟨fun hs => ⟨x, hx, rfl, by rw [hlevel]; exact hs⟩, ?_⟩
    rintro ⟨y, hy, hid, hs⟩
    rw [c.vaults.eq_of_key hy hx hid, hlevel] at hs
    exact hs
  · refine (hp.anyone v s (fun hl => hpending ⟨hl, hmine⟩)).changes hc ?_
    rintro ⟨-, scope, hgroup⟩
    exact hmine (vaultGroupRoleName_inj hgroup).1

end

end Akb.RoleSync

/-! The hook of a new vault, and what a catalog write leaves to the hooks. -/
namespace Akb.RoleSync
open Akb.Library Akb.Native

section
variable {pg : Server} {order : SetOrder} {sha1 : List Char → List Char} {c c' c'' : Catalog} {r r' : Roles} {p : Pending}

/-- The hierarchy of the groups of a vault, its owner and the tokens of the owner. -/
def Effect.create (c : Catalog) (vaultId : Uuid) (owner : Option Uuid) : Effect where
  edges g m := (∃ s s', g = vaultGroupRoleName vaultId s ∧ m = vaultGroupRoleName vaultId s') ∨
    ∃ o ∈ owner, (g = vaultGroupRoleName vaultId .admin ∧ m = userRoleName o) ∨ (Effect.tokensOf c o).edges g m
  adds g m := HierarchyEdge g m ∨ ∃ o ∈ owner, m = userRoleName o ∨ (Effect.tokensOf c o).edges g m
  names name := (∃ s, name = vaultGroupRoleName vaultId s) ∨ IsUser name ∨ IsToken name
  tables _ := False

private theorem create_groups (c : Catalog) (owner : Option Uuid) {vaultId : Uuid} {r₁ : Roles}
    (hcreate : performAll pg.createRoleIfMissing (Scope.all.map (vaultGroupRoleName vaultId)) r = .ok r₁) :
    Changes pg (.create c vaultId owner) r r₁ := by
  refine performAll_changes hcreate (fun role hrole s s' hrun => (createRoleIfMissing_spec hrun).mono
    ⟨fun _ _ h => h.elim, fun _ _ h => h.elim, ?_, fun _ h => h⟩)
  rintro _ rfl
  obtain ⟨scope, -, rfl⟩ := List.mem_map.mp hrole
  exact .inl ⟨scope, rfl⟩

private theorem create_hierarchy (c : Catalog) (owner : Option Uuid) {vaultId : Uuid} {r₁ r₂ : Roles}
    (hwriter : pg.grantMembership (vaultGroupRoleName vaultId .reader) (vaultGroupRoleName vaultId .writer) r = .ok r₁)
    (hadmin : pg.grantMembership (vaultGroupRoleName vaultId .writer) (vaultGroupRoleName vaultId .admin) r₁ = .ok r₂) :
    Changes pg (.create c vaultId owner) r r₂ ∧ Hierarchy r₂ vaultId := by
  obtain ⟨hc₁, hheld₁⟩ := grantMembership_spec hwriter
  obtain ⟨hc₂, hheld₂⟩ := grantMembership_spec hadmin
  refine ⟨(hc₁.widen (.create c vaultId owner) ⟨?_, ?_, fun _ h => h.elim, fun _ h => h⟩).trans
    (hc₂.mono ⟨?_, ?_, fun _ h => h.elim, fun _ h => h⟩), held_of_grant hheld₁ hadmin, hheld₂⟩
  · rintro g m ⟨rfl, rfl⟩
    exact .inl ⟨_, _, rfl, rfl⟩
  · rintro g m ⟨rfl, rfl⟩
    exact .inl ⟨vaultId, .inl ⟨rfl, rfl⟩⟩
  · rintro g m ⟨rfl, rfl⟩
    exact .inl ⟨_, _, rfl, rfl⟩
  · rintro g m ⟨rfl, rfl⟩
    exact .inl ⟨vaultId, .inr ⟨rfl, rfl⟩⟩

theorem onVaultCreateInConn_spec {vaultId : Uuid} {owner : Option Uuid}
    (h : onVaultCreateInConn pg order c vaultId owner r = .ok r') :
    Changes pg (.create c vaultId owner) r r' ∧ Hierarchy r' vaultId ∧
      ∀ o ∈ owner, Held r' (vaultGroupRoleName vaultId .admin) (userRoleName o) ∧
        ∀ t ∈ c.userTokens o, (scopeOfToken t).isSome →
          ∀ v s, Exact r' (vaultGroupRoleName v s) (tokenRoleName t.id) (c.TokenAuthority t v s) := by
  obtain ⟨r₁, hcreate, h⟩ := bind_eq_ok.mp h
  obtain ⟨r₂, hwriter, h⟩ := bind_eq_ok.mp h
  obtain ⟨r₃, hadmin, h⟩ := bind_eq_ok.mp h
  obtain ⟨hc₃, hier⟩ := create_hierarchy c owner hwriter hadmin
  have hc := (create_groups c owner hcreate).trans hc₃
  cases owner with
  | none =>
    cases h
    exact ⟨hc, hier, fun o ho => by cases ho⟩
  | some o =>
    obtain ⟨r₄, hrole, h⟩ := bind_eq_ok.mp h
    obtain ⟨r₅, hgrant, htokens⟩ := bind_eq_ok.mp h
    have hc₄ := createRoleIfMissing_spec hrole
    obtain ⟨hc₅, hheld⟩ := grantMembership_spec hgrant
    obtain ⟨hc₆, hexact⟩ := syncUserScopedTokens_spec htokens
    have hnotToken {g : String} {m : String} (hm : ¬ IsToken m) : ¬ (Effect.tokensOf c o).edges g m := by
      rintro ⟨⟨t, -, rfl⟩, -⟩
      exact hm ⟨t.id, rfl⟩
    refine ⟨((hc.trans (hc₄.mono ?_)).trans (hc₅.mono ?_)).trans (hc₆.mono ?_), ?_, ?_⟩
    · exact ⟨fun _ _ h => h.elim, fun _ _ h => h.elim, fun name hname => .inr (.inl ⟨o, hname⟩), fun _ h => h⟩
    · refine ⟨?_, ?_, fun _ h => h.elim, fun _ h => h⟩
      · exact fun g m he => .inr ⟨o, rfl, .inl he⟩
      · exact fun g m he => .inr ⟨o, rfl, .inl he.2⟩
    · exact ⟨fun g m he => .inr ⟨o, rfl, .inr he⟩, fun g m he => .inr ⟨o, rfl, .inr he⟩, fun _ h => .inr (.inr h),
        fun _ h => h⟩
    · refine ((hier.changes hc₄ id id).grant hgrant).changes hc₆ ?_ ?_
      · exact hnotToken (not_isToken_group _ _)
      · exact hnotToken (not_isToken_group _ _)
    · rintro _ ⟨⟩
      exact ⟨hc₆.held (hnotToken (not_isToken_user o)) hheld, hexact⟩

/-- Where no group of the vault was there before, its hook settles the groups, the owner's pair and
the owner's tokens. -/
theorem ProjectedBut.created {x : Vault} (hx : x ∈ c.vaults) (hfresh : ∀ s, vaultGroupRoleName x.id s ∉ r.names)
    (hp : ProjectedBut c r p) (h : onVaultCreateInConn pg order c x.id x.ownerId r = .ok r') :
    ProjectedBut c r' { p with pairs := fun v u => p.pairs v u ∧ ¬ (v = x.id ∧ x.ownerId = some u),
                               owners := fun u => p.owners u ∧ x.ownerId ≠ some u,
                               groups := fun v => p.groups v ∧ v ≠ x.id } := by
  obtain ⟨hc, hier, howner⟩ := onVaultCreateInConn_spec h
  have habsent (s : Scope) (m : String) : ¬ Has r (vaultGroupRoleName x.id s) m := by
    rintro ⟨e, he, hg, -⟩
    exact hfresh s (hg ▸ (r.known e he).1)
  refine ⟨fun u hu v s hpending => ?_, fun v s hpending => ?_, fun t ht hsome hpending v s => ?_, hp.readable, ?_, ?_⟩
  · by_cases hmine : v = x.id ∧ x.ownerId = some u.id
    · obtain ⟨rfl, hown⟩ := hmine
      have hauthority : c.UserAuthority u.id x.id s ↔ s = .admin := by
        constructor
        · rintro ⟨y, hy, hid, hwhy⟩
          rwa [c.vaults.eq_of_key hy hx hid, if_pos hown] at hwhy
        · exact fun hs => ⟨x, hx, rfl, by rw [if_pos hown]; exact hs⟩
      refine ⟨fun hw => ?_, fun hhas => hauthority.mpr ?_⟩
      · rw [hauthority.mp hw]
        exact (howner u.id hown).1
      · by_contra hne
        refine habsent s _ ((hc.has ?_).mp hhas)
        rintro (⟨s', s'', -, hm⟩ | ⟨o, -, ⟨hg, -⟩ | ⟨⟨t, -, hm⟩, -⟩⟩)
        · exact group_ne_user _ _ _ hm.symm
        · exact hne (vaultGroupRoleName_inj hg).2
        · exact user_ne_token _ _ hm
    · refine (hp.users u hu v s (fun hpair => hpending ⟨hpair, hmine⟩)).changes hc ?_
      rintro (⟨s', s'', -, hm⟩ | ⟨o, ho, ⟨hg, hm⟩ | ⟨⟨t, -, hm⟩, -⟩⟩)
      · exact group_ne_user _ _ _ hm.symm
      · exact hmine ⟨(vaultGroupRoleName_inj hg).1, by rw [userRoleName_injective hm]; exact ho⟩
      · exact user_ne_token _ _ hm
  · refine (hp.anyone v s hpending).changes hc ?_
    rintro (⟨s', s'', -, hm⟩ | ⟨o, ho, ⟨-, hm⟩ | ⟨⟨t, -, hm⟩, -⟩⟩)
    · exact group_ne_authenticated _ _ hm.symm
    · exact user_ne_authenticated _ hm.symm
    · exact token_ne_authenticated _ hm.symm
  · by_cases hmine : x.ownerId = some t.userId
    · exact (howner t.userId hmine).2 t (List.mem_filter.mpr ⟨ht, by simp⟩) hsome v s
    · refine (hp.tokens t ht hsome (fun ho => hpending ⟨ho, hmine⟩) v s).changes hc ?_
      rintro (⟨s', s'', -, hm⟩ | ⟨o, ho, ⟨-, hm⟩ | ⟨⟨t', ht', hm⟩, -⟩⟩)
      · exact group_ne_token _ _ _ hm.symm
      · exact user_ne_token _ _ hm.symm
      · obtain ⟨ht', hownerOf⟩ := List.mem_filter.mp ht'
        rw [eq_of_token_id ht ht' (tokenRoleName_injective hm), of_decide_eq_true hownerOf] at hmine
        exact hmine ho
  · intro name hname hgroup
    rcases hc.names name hname with hold | ⟨s, rfl⟩ | ⟨u, rfl⟩ | ⟨t, rfl⟩
    · exact hp.noOrphans name hold hgroup
    · exact ⟨x, hx, s, rfl⟩
    · exact absurd hgroup (not_isGroup_user u)
    · exact absurd hgroup (not_isGroup_token t)
  · intro v hv hpending
    by_cases hmine : v.id = x.id
    · rw [hmine]
      exact hier
    · refine (hp.hierarchy v hv (fun hg => hpending ⟨hg, hmine⟩)).changes hc ?_ ?_
      all_goals
        rintro (⟨s', s'', hg, -⟩ | ⟨o, ho, ⟨-, hm⟩ | ⟨⟨t, -, hm⟩, -⟩⟩)
        · exact hmine (vaultGroupRoleName_inj hg).1
        · exact group_ne_user _ _ _ hm
        · exact group_ne_token _ _ _ hm

end

end Akb.RoleSync
