import Akb.RoleSync.Projection

/-! What the catalog entitles a user, the public and a token to, and the queries that compute it. -/
namespace Akb.RoleSync
open Akb.Library Akb.Native

namespace Catalog
variable (c : Catalog)

/-- The explicit grant of a pair. -/
def Granted (vaultId userId : Uuid) (scope : Scope) : Prop :=
  ∃ a ∈ c.grants.access, a.pair = (vaultId, userId) ∧ scopeOf a.role = some scope

/-- Administrator of an owned vault, and the granted role on every other one. -/
def UserAuthority (userId vaultId : Uuid) (scope : Scope) : Prop :=
  ∃ v ∈ c.vaults, v.id = vaultId ∧
    (if v.ownerId = some userId then scope = .admin else c.Granted vaultId userId scope)

/-- The scope of a vault that is open to every authenticated user. -/
def PublicAuthority (vaultId : Uuid) (scope : Scope) : Prop :=
  ∃ v ∈ c.vaults, v.id = vaultId ∧ publicAccessScope (v.publicAccess.getD "none") = some scope

/-- The explicit grants and the owned vaults of the token's owner, within the scope of the token. -/
def TokenAuthority (t : Token) (vaultId : Uuid) (scope : Scope) : Prop :=
  ∃ tokenScope, scopeOfToken t = some tokenScope ∧ ∃ v ∈ c.vaults, v.id = vaultId ∧ tokenScope.permits v.name = true ∧
    (c.Granted vaultId t.userId scope ∨ (v.ownerId = some t.userId ∧ scope = .admin))

end Catalog

theorem groupRoleName_ok {vaultId : Uuid} {role : Access.Role} {group : String}
    (h : groupRoleName vaultId role = .ok group) :
    ∃ scope, scopeOf role = some scope ∧ group = vaultGroupRoleName vaultId scope := by
  rw [groupRoleName] at h
  split at h
  · rename_i scope hscope
    exact ⟨scope, hscope, (Except.ok.inj h).symm⟩
  · cases h

theorem mapM_mem {α β ε : Type} {f : α → Except ε β} {xs : List α} {ys : List β} (h : xs.mapM f = .ok ys) (y : β) :
    y ∈ ys ↔ ∃ x ∈ xs, f x = .ok y := by
  induction xs generalizing ys with
  | nil =>
    rw [List.mapM_nil] at h
    cases h
    simp
  | cons x xs ih =>
    rw [List.mapM_cons] at h
    obtain ⟨b, hb, h⟩ := bind_eq_ok.mp h
    obtain ⟨bs, hbs, h⟩ := bind_eq_ok.mp h
    cases h
    have hfirst : y = b ↔ f x = .ok y := by
      rw [hb]
      exact ⟨fun hy => hy ▸ rfl, fun hy => (Except.ok.inj hy).symm⟩
    simp only [List.mem_cons, ih hbs, hfirst]
    constructor
    · rintro (h | ⟨z, hz, h⟩)
      · exact ⟨x, .inl rfl, h⟩
      · exact ⟨z, .inr hz, h⟩
    · rintro ⟨z, rfl | hz, hy⟩
      · exact .inl hy
      · exact .inr ⟨z, hz, hy⟩

variable {c : Catalog}

theorem mem_accessible {userId vaultId : Uuid} {name : String} {role : Access.Role} :
    (vaultId, name, role) ∈ c.accessible userId ↔ ∃ v ∈ c.vaults, v.id = vaultId ∧ v.name = name ∧
      ((∃ a ∈ c.grants.access, a.pair = (vaultId, userId) ∧ a.role = role) ∨
        (v.ownerId = some userId ∧ role = .admin)) := by
  simp only [Catalog.accessible, List.mem_append, List.mem_flatMap, List.mem_map, List.mem_filter, decide_eq_true_eq,
    Prod.mk.injEq, Access.AccessRow.pair, Table.mem_def]
  constructor
  · rintro (⟨a, ⟨ha, rfl⟩, v, ⟨hv, hid⟩, rfl, rfl, rfl⟩ | ⟨v, ⟨hv, howner⟩, rfl, rfl, rfl⟩)
    · exact ⟨v, hv, rfl, rfl, .inl ⟨a, ha, ⟨hid.symm, rfl⟩, rfl⟩⟩
    · exact ⟨v, hv, rfl, rfl, .inr ⟨howner, rfl⟩⟩
  · rintro ⟨v, hv, rfl, rfl, ⟨a, ha, ⟨hid, rfl⟩, rfl⟩ | ⟨howner, rfl⟩⟩
    · exact .inl ⟨a, ⟨ha, rfl⟩, v, ⟨hv, hid.symm⟩, rfl, rfl, rfl⟩
    · exact .inr ⟨v, ⟨hv, howner⟩, rfl, rfl, rfl⟩

/-- The wanted groups of a token are those of its authority. -/
theorem mem_wantedTokenGroupRoles {t : Token} {tokenScope : VaultScope} (hscope : scopeOfToken t = some tokenScope)
    {wanted : List String} (h : wantedTokenGroupRoles (c.accessible t.userId) tokenScope = .ok wanted) (vaultId : Uuid)
    (scope : Scope) : vaultGroupRoleName vaultId scope ∈ wanted ↔ c.TokenAuthority t vaultId scope := by
  rw [wantedTokenGroupRoles] at h
  rw [mapM_mem h]
  constructor
  · rintro ⟨⟨w, name, role⟩, hentry, hgroup⟩
    obtain ⟨s, hs, he⟩ := groupRoleName_ok hgroup
    obtain ⟨rfl, rfl⟩ := vaultGroupRoleName_inj he
    obtain ⟨hentry, hpermits⟩ := List.mem_filter.mp hentry
    obtain ⟨v, hv, hid, rfl, hwhy⟩ := mem_accessible.mp hentry
    refine ⟨tokenScope, hscope, v, hv, hid, hpermits, hwhy.imp ?_ ?_⟩
    · rintro ⟨a, ha, hpair, rfl⟩
      exact ⟨a, ha, hpair, hs⟩
    · rintro ⟨howner, rfl⟩
      exact ⟨howner, (Option.some.inj hs).symm⟩
  · rintro ⟨tokenScope', hscope', v, hv, rfl, hpermits, hwhy⟩
    obtain rfl : tokenScope' = tokenScope := Option.some.inj (hscope'.symm.trans hscope)
    have hrole : ∃ role, (v.id, v.name, role) ∈ c.accessible t.userId ∧ scopeOf role = some scope := by
      rcases hwhy with ⟨a, ha, hpair, hs⟩ | ⟨howner, rfl⟩
      · exact ⟨a.role, mem_accessible.mpr ⟨v, hv, rfl, rfl, .inl ⟨a, ha, hpair, rfl⟩⟩, hs⟩
      · exact ⟨.admin, mem_accessible.mpr ⟨v, hv, rfl, rfl, .inr ⟨howner, rfl⟩⟩, rfl⟩
    obtain ⟨role, hentry, hs⟩ := hrole
    exact ⟨_, List.mem_filter.mpr ⟨hentry, hpermits⟩, by rw [groupRoleName, hs]⟩

/-- Only groups of vaults are wanted. -/
theorem wanted_isGroup {accessible : List (Uuid × String × Access.Role)} {tokenScope : VaultScope}
    {wanted : List String} (h : wantedTokenGroupRoles accessible tokenScope = .ok wanted) {group : String}
    (hg : group ∈ wanted) : isCatalogRole group .vault = true := by
  obtain ⟨entry, -, hgroup⟩ := (mapM_mem h group).mp hg
  obtain ⟨scope, -, he⟩ := groupRoleName_ok hgroup
  exact isCatalogRole_vault.mpr ⟨_, scope, he⟩

theorem mem_tokenGroupMemberships {r : Roles} {tokenRole group : String} :
    group ∈ tokenGroupMemberships r tokenRole ↔ isCatalogRole group .vault = true ∧ Has r group tokenRole := by
  simp only [tokenGroupMemberships, List.mem_map, List.mem_filter, Bool.and_eq_true, decide_eq_true_eq, Has]
  constructor
  · rintro ⟨m, ⟨hm, hmember, hgroup⟩, rfl⟩
    exact ⟨hgroup, m, hm, rfl, hmember⟩
  · rintro ⟨hgroup, m, hm, rfl, hmember⟩
    exact ⟨m, ⟨hm, hmember, hgroup⟩, rfl⟩

theorem isOwned_iff {vaultId userId : Uuid} :
    isOwned c vaultId userId = true ↔ ∃ v ∈ c.vaults, v.id = vaultId ∧ v.ownerId = some userId := by
  simp [isOwned, Table.mem_def]

/-- On a vault of the catalog, the desired memberships are those of the user's authority. -/
theorem mem_desired {desired : List (String × String)} (h : desiredUserMemberships c = .ok desired) {v : Vault}
    (hv : v ∈ c.vaults) (userId : Uuid) (scope : Scope) :
    (vaultGroupRoleName v.id scope, userRoleName userId) ∈ desired ↔ c.UserAuthority userId v.id scope := by
  simp only [desiredUserMemberships, bind_eq_ok, pure_eq_ok] at h
  obtain ⟨members, hmembers, rfl⟩ := h
  rw [List.mem_append, mapM_mem hmembers, List.mem_flatMap]
  constructor
  · rintro (⟨a, ha, hrow⟩ | ⟨w, hw, howner⟩)
    · obtain ⟨group, hgroup, he⟩ := bind_eq_ok.mp hrow
      obtain ⟨s, hs, rfl⟩ := groupRoleName_ok hgroup
      obtain ⟨hgroup, huser⟩ := Prod.mk.inj (Except.ok.inj he)
      obtain ⟨hid, rfl⟩ := vaultGroupRoleName_inj hgroup
      obtain ⟨ha, hfree⟩ := List.mem_filter.mp ha
      have hu := userRoleName_injective huser
      refine ⟨v, hv, rfl, ?_⟩
      rw [if_neg]
      · exact ⟨a, ha, by rw [Access.AccessRow.pair, hid, hu], hs⟩
      · intro howner
        rw [Bool.not_eq_true', ← Bool.not_eq_true, isOwned_iff] at hfree
        exact hfree ⟨v, hv, hid.symm, hu ▸ howner⟩
    · obtain ⟨owner, hsome, he⟩ := Option.map_eq_some_iff.mp (Option.mem_toList.mp howner)
      obtain ⟨hgroup, huser⟩ := Prod.mk.inj he
      obtain ⟨hid, rfl⟩ := vaultGroupRoleName_inj hgroup
      rw [userRoleName_injective huser] at hsome
      exact ⟨w, hw, hid, by rw [if_pos hsome]⟩
  · rintro ⟨w, hw, hid, hwhy⟩
    obtain rfl := c.vaults.eq_of_key hw hv hid
    split at hwhy
    · rename_i howner
      subst hwhy
      refine .inr ⟨w, hw, Option.mem_toList.mpr ?_⟩
      rw [howner]
      rfl
    · rename_i hfree
      obtain ⟨a, ha, hpair, hs⟩ := hwhy
      obtain ⟨hvault, huser⟩ := Prod.mk.inj hpair
      refine .inl ⟨a, List.mem_filter.mpr ⟨ha, ?_⟩, ?_⟩
      · rw [Bool.not_eq_true', ← Bool.not_eq_true, isOwned_iff]
        rintro ⟨x, hx, hxid, howner⟩
        obtain rfl := c.vaults.eq_of_key hx hw (hxid.trans hvault)
        exact hfree (huser ▸ howner)
      · rw [groupRoleName, hs, hvault, huser]
        rfl

/-- Every desired membership is of a user in a group. -/
theorem desired_shape {desired : List (String × String)} (h : desiredUserMemberships c = .ok desired)
    {edge : String × String} (he : edge ∈ desired) :
    ∃ vaultId scope userId, edge = (vaultGroupRoleName vaultId scope, userRoleName userId) := by
  simp only [desiredUserMemberships, bind_eq_ok, pure_eq_ok] at h
  obtain ⟨members, hmembers, rfl⟩ := h
  rcases List.mem_append.mp he with hrow | howned
  · obtain ⟨a, -, hrow⟩ := (mapM_mem hmembers edge).mp hrow
    obtain ⟨group, hgroup, hedge⟩ := bind_eq_ok.mp hrow
    obtain ⟨s, -, rfl⟩ := groupRoleName_ok hgroup
    exact ⟨_, s, _, (Except.ok.inj hedge).symm⟩
  · obtain ⟨v, -, howner⟩ := List.mem_flatMap.mp howned
    obtain ⟨owner, -, hedge⟩ := Option.map_eq_some_iff.mp (Option.mem_toList.mp howner)
    exact ⟨v.id, .admin, owner, hedge.symm⟩

theorem mem_actual {r : Roles} {v : Vault} (hv : v ∈ c.vaults) {u : User} (hu : u ∈ c.users) (scope : Scope) :
    (vaultGroupRoleName v.id scope, userRoleName u.id) ∈ actualUserMemberships c r ↔
      Has r (vaultGroupRoleName v.id scope) (userRoleName u.id) := by
  have hgroup : vaultGroupRoleName v.id scope ∈ c.vaults.rows.flatMap (fun v => Scope.all.map (vaultGroupRoleName v.id)) :=
    List.mem_flatMap.mpr ⟨v, hv, List.mem_map_of_mem scope.mem_all⟩
  have huser : userRoleName u.id ∈ c.users.rows.map (fun u => userRoleName u.id) := List.mem_map_of_mem hu
  have hcatalog := isCatalogRole_vault.mpr ⟨v.id, scope, rfl⟩
  have hcatalog' := isCatalogRole_user.mpr ⟨u.id, rfl⟩
  rw [actualUserMemberships, List.mem_filter, List.mem_map, and_iff_left]
  · simp only [Prod.mk.injEq, Has]
  · simp only [decide_eq_true hgroup, decide_eq_true huser, hcatalog, hcatalog', Bool.and_true]

theorem actual_shape {r : Roles} {edge : String × String} (he : edge ∈ actualUserMemberships c r) :
    ∃ vaultId scope userId, edge = (vaultGroupRoleName vaultId scope, userRoleName userId) := by
  obtain ⟨-, hkinds⟩ := List.mem_filter.mp he
  simp only [Bool.and_eq_true] at hkinds
  obtain ⟨vaultId, scope, hgroup⟩ := isCatalogRole_vault.mp hkinds.1.2
  obtain ⟨userId, huser⟩ := isCatalogRole_user.mp hkinds.2
  exact ⟨vaultId, scope, userId, Prod.ext hgroup huser⟩

end Akb.RoleSync
