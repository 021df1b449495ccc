import Akb.RoleSync.Hooks

/-! `reconcile_from_catalog`: phases that each read the role state, derive a list of tasks and run
every task in a savepoint. -/
namespace Akb.RoleSync
open Akb.Library Akb.Native

structure Report where
  userRolesCreated : Nat
  userRolesDropped : Nat
  vaultRolesCreated : Nat
  vaultRolesDropped : Nat
  tokenRolesCreated : Nat
  tokenRolesDropped : Nat
  grantsAdded : Nat
  grantsRemoved : Nat
  tableGrantsApplied : Nat
  publicGrantsApplied : Nat
  errors : List String

def Report.empty : Report := ⟨0, 0, 0, 0, 0, 0, 0, 0, 0, 0, []⟩

/-- A task whose failure is reported under a label, and whose success only moves counters. -/
structure RoleTask where
  labelled ::
  label : String
  count : Report → Report
  run : Roles → Except PgError Roles

def RoleTask.task (t : RoleTask) : Task Roles PgError Report where
  run := t.run
  count p := { t.count p with errors := p.errors }
  log e p := { p with errors := p.errors ++ [t.label ++ ": " ++ e.text] }

theorem RoleTask.reports (t : RoleTask) : t.task.Reports Report.errors := ⟨fun _ => rfl, fun _ _ => ⟨_, rfl⟩⟩

/-- The canonical roles of a kind. -/
def existingRoles (r : Roles) (kind : Kind) : List String := r.names.filter (fun role => isCatalogRole role kind)

section
variable (pg : Server) (order : SetOrder)

def createTasks (count : Report → Report) (roles : List String) : List RoleTask :=
  (order.names roles).map (fun role => RoleTask.labelled ("CREATE ROLE " ++ role) count (pg.createRoleIfMissing role))

def dropTasks (count : Report → Report) (roles : List String) : List RoleTask :=
  (order.names roles).map (fun role => RoleTask.labelled ("DROP ROLE " ++ role) count (pg.dropRoleIfPresent role))

/-- `_reconcile_user_roles`. -/
def userRoleTasks (c : Catalog) (r : Roles) : List RoleTask :=
  let wanted := c.users.rows.map (fun u => userRoleName u.id)
  let existing := existingRoles r .user
  createTasks pg order (fun p => { p with userRolesCreated := p.userRolesCreated + 1 }) (minus wanted existing) ++
    (order.names wanted).map (fun role => RoleTask.labelled ("GRANT " ++ authenticatedRole ++ "→" ++ role) id
      (pg.grantMembership authenticatedRole role)) ++
    dropTasks pg order (fun p => { p with userRolesDropped := p.userRolesDropped + 1 }) (minus existing wanted)

def hierarchyTask (v : Vault) : RoleTask :=
  RoleTask.labelled ("hierarchy " ++ v.id.str) id (fun r => do
    let r ← pg.grantMembership (vaultGroupRoleName v.id .reader) (vaultGroupRoleName v.id .writer) r
    pg.grantMembership (vaultGroupRoleName v.id .writer) (vaultGroupRoleName v.id .admin) r)

def ownerTask (v : Vault) (owner : Uuid) : RoleTask :=
  RoleTask.labelled ("owner grant " ++ v.id.str) id (fun r => do
    let r ← pg.createRoleIfMissing (userRoleName owner) r
    pg.grantMembership (vaultGroupRoleName v.id .admin) (userRoleName owner) r)

/-- `_reconcile_vault_roles`. -/
def vaultRoleTasks (c : Catalog) (r : Roles) : List RoleTask :=
  let wanted := c.vaults.rows.flatMap (fun v => Scope.all.map (vaultGroupRoleName v.id))
  let existing := existingRoles r .vault
  createTasks pg order (fun p => { p with vaultRolesCreated := p.vaultRolesCreated + 1 }) (minus wanted existing) ++
    c.vaults.rows.flatMap (fun v => hierarchyTask pg v :: (v.ownerId.map (ownerTask pg v)).toList) ++
    dropTasks pg order (fun p => { p with vaultRolesDropped := p.vaultRolesDropped + 1 }) (minus existing wanted)

def isOwned (c : Catalog) (vaultId userId : Uuid) : Bool :=
  c.vaults.rows.any (fun v => v.id = vaultId && v.ownerId = some userId)

/-- `_desired_user_memberships`: ownership overrides a member row. -/
def desiredUserMemberships (c : Catalog) : Except PgError (List (String × String)) := do
  let rows := c.grants.access.rows.filter (fun a => !isOwned c a.vaultId a.userId)
  let members ← rows.mapM (fun a => do
    let group ← groupRoleName a.vaultId a.role
    return (group, userRoleName a.userId))
  return members ++ c.vaults.rows.flatMap (fun v =>
    (v.ownerId.map (fun owner => (vaultGroupRoleName v.id .admin, userRoleName owner))).toList)

/-- `_actual_user_memberships`. -/
def actualUserMemberships (c : Catalog) (r : Roles) : List (String × String) :=
  let catalogGroups := c.vaults.rows.flatMap (fun v => Scope.all.map (vaultGroupRoleName v.id))
  let catalogUsers := c.users.rows.map (fun u => userRoleName u.id)
  (r.members.map (fun m => (m.group, m.member))).filter (fun edge =>
    edge.1 ∈ catalogGroups && edge.2 ∈ catalogUsers && isCatalogRole edge.1 .vault && isCatalogRole edge.2 .user)

/-- `_reconcile_memberships`: revoke, then grant, then look at the options of what stays. -/
def membershipTasks (c : Catalog) (r : Roles) : Except PgError (List RoleTask) := do
  let desired ← desiredUserMemberships c
  let actual := actualUserMemberships c r
  return (order.pairs (minus actual desired)).map (fun edge =>
      RoleTask.labelled ("REVOKE " ++ edge.1 ++ "→" ++ edge.2) (fun p => { p with grantsRemoved := p.grantsRemoved + 1 })
        (pg.revokeMembershipStrict edge.1 edge.2)) ++
    (order.pairs (minus desired actual)).map (fun edge =>
      RoleTask.labelled ("GRANT " ++ edge.1 ++ "→" ++ edge.2) (fun p => { p with grantsAdded := p.grantsAdded + 1 })
        (pg.grantMembership edge.1 edge.2)) ++
    (order.pairs (desired.filter (· ∈ actual))).map (fun edge =>
      RoleTask.labelled ("membership options " ++ edge.1 ++ "→" ++ edge.2) id (pg.grantMembership edge.1 edge.2))

/-- `_reconcile_table_grants`. -/
def tableGrantTasks (sha1 : List Char → List Char) (c : Catalog) : List RoleTask :=
  c.tables.flatMap (fun row => (c.vaults.rows.filter (fun v => v.id = row.vaultId)).map (fun v =>
    let pgName := pgTableName sha1 v.name row.name
    if !isSafePgTableName pgName then RoleTask.labelled "unsafe pg_name" id (fun _ => .error (.refused pgName))
    else RoleTask.labelled ("GRANT on " ++ pgName) (fun p => { p with tableGrantsApplied := p.tableGrantsApplied + 1 })
      (pg.grantTable row.vaultId pgName)))

/-- `_reconcile_public_access`. -/
def publicAccessTasks (c : Catalog) : List RoleTask :=
  c.vaults.rows.map (fun v =>
    let level := v.publicAccess.getD "none"
    RoleTask.labelled ("public access " ++ v.id.str ++ " (" ++ level ++ ")")
      (fun p => if (publicAccessScope level).isSome then { p with publicGrantsApplied := p.publicGrantsApplied + 1 } else p)
      (syncPublicLevel pg v.id level))

/-- What a live token's scope reads as; a JSON null is no scope. -/
def scopeOfToken (t : Token) : Option VaultScope :=
  match t.vaultScope with
  | some (.ok scope) => scope
  | _ => none

def scopeErrors (c : Catalog) : List RoleTask :=
  c.liveScopedTokens.flatMap (fun t =>
    match t.vaultScope with
    | some (.error e) => [RoleTask.labelled ("token " ++ t.id.str ++ " scope parse") id (fun _ => .error (.refused e))]
    | _ => [])

/-- The first half of `_reconcile_token_roles_locked`. -/
def tokenRoleTasks (c : Catalog) (r : Roles) : List RoleTask :=
  let wanted := (c.liveScopedTokens.filter (fun t => (scopeOfToken t).isSome)).map (fun t => tokenRoleName t.id)
  let existing := existingRoles r .token
  scopeErrors c ++
    createTasks pg order (fun p => { p with tokenRolesCreated := p.tokenRolesCreated + 1 }) (minus wanted existing) ++
    dropTasks pg order (fun p => { p with tokenRolesDropped := p.tokenRolesDropped + 1 }) (minus existing wanted)

/-- One token of the second half, over the memberships read at its start. -/
def tokenMembershipTask (c : Catalog) (r₀ : Roles) (t : Token) (scope : VaultScope) : RoleTask :=
  let role := tokenRoleName t.id
  let before := tokenGroupMemberships r₀ role
  let wanted := wantedTokenGroupRoles (c.accessible t.userId) scope
  RoleTask.labelled ("token role " ++ role ++ " membership")
    (fun p => match wanted with
      | .ok wanted => { p with
          grantsAdded := p.grantsAdded + (minus wanted.dedup before).length
          grantsRemoved := p.grantsRemoved + (minus before.dedup wanted).length }
      | .error _ => p)
    (fun r => do
      let wanted ← wanted
      let r ← grantAll pg order role wanted r
      revokeAll pg order role (minus before wanted) r)

/-- The second half. -/
def tokenMembershipTasks (c : Catalog) (r : Roles) : List RoleTask :=
  c.liveScopedTokens.flatMap (fun t => ((scopeOfToken t).map (tokenMembershipTask pg order c r t)).toList)

/-- The phases, in order. -/
def phases (sha1 : List Char → List Char) (c : Catalog) : List (Roles → Except PgError (List RoleTask)) :=
  [fun r => .ok (userRoleTasks pg order c r),
    fun r => .ok (vaultRoleTasks pg order c r),
    membershipTasks pg order c,
    fun _ => .ok (tableGrantTasks pg sha1 c),
    fun _ => .ok (publicAccessTasks pg c),
    fun r => .ok (tokenRoleTasks pg order c r),
    fun r => .ok (tokenMembershipTasks pg order c r)]

def runPhase (tasks : Roles → Except PgError (List RoleTask)) (s : Roles × Report) : Except PgError (Roles × Report) := do
  let tasks ← tasks s.1
  return attemptAll (tasks.map RoleTask.task) s

/-- `reconcile_from_catalog`; what raises outside a savepoint rolls everything back. -/
def reconcileFromCatalog (sha1 : List Char → List Char) (c : Catalog) (r : Roles) : Except PgError (Roles × Report) := do
  let r ← pg.createRoleIfMissing authenticatedRole r
  performAll runPhase (phases pg order sha1 c) (r, .empty)

end

end Akb.RoleSync

/-! What the roles owe to the catalog, and what the loops over memberships bring about. -/
namespace Akb.RoleSync
open Akb.Library Akb.Native

/-- No membership was granted by a role of the managed namespace. -/
def Clean (r : Roles) : Prop := ∀ m ∈ r.members, ∀ kind, isCatalogRole m.grantor kind = false

/-- The membership is there exactly if it is wanted, and then with the options of the projection. -/
structure Exact (r : Roles) (group member : String) (wanted : Prop) : Prop where
  held : wanted → Held r group member
  only : Has r group member → wanted

theorem Exact.iff {r : Roles} {group member : String} {wanted : Prop} (h : Exact r group member wanted) :
    Has r group member ↔ wanted := ⟨h.only, fun hw => (h.held hw).present⟩

theorem Exact.congr {r : Roles} {group member : String} {wanted wanted' : Prop} (h : Exact r group member wanted)
    (hw : wanted ↔ wanted') : Exact r group member wanted' := ⟨fun h' => h.held (hw.mpr h'), fun h' => hw.mp (h.only h')⟩

section
variable {pg : Server} {r r' r'' : Roles} {e : Effect}

theorem Exact.changes {group member : String} {wanted : Prop} (h : Exact r group member wanted)
    (hc : Changes pg e r r') (he : ¬ e.edges group member) : Exact r' group member wanted :=
  ⟨fun hw => hc.held he (h.held hw), fun hh => h.only ((hc.has he).mp hh)⟩

theorem Changes.clean (h : Changes pg e r r') (hr : Clean r) : Clean r' := by
  intro m hm kind
  rcases h.added m hm with hold | ⟨hnew, -⟩
  · exact hr m hold kind
  · rw [hnew]
    exact pg.outside kind

theorem Clean.grantor_ne (hr : Clean r) {role : String} {kind : Kind} (hrole : isCatalogRole role kind = true) :
    ∀ m ∈ r.members, m.grantor ≠ role := by
  rintro m hm rfl
  rw [hr m hm kind] at hrole
  cases hrole

theorem performAll_changes {α : Type} {run : α → Roles → Except PgError Roles} {items : List α}
    (h : performAll run items r = .ok r')
    (step : ∀ a ∈ items, ∀ s s', run a s = .ok s' → Changes pg e s s') : Changes pg e r r' :=
  performAll_keeps (I := fun s => Changes pg e r s) h .refl (fun a ha s s' hs hrun => hs.trans (step a ha s s' hrun))

/-- The members of a list of groups. -/
def Effect.member (role : String) (groups : String → Prop) : Effect :=
  .touching (fun g m => m = role ∧ groups g)

theorem Effect.edge_within {group member : String} {groups : String → Prop} (hg : groups group) :
    (Effect.edge group member).Within (.member member groups) := by
  refine .touching ?_
  rintro _ _ ⟨rfl, rfl⟩
  exact ⟨rfl, hg⟩

theorem held_of_grant {group member group' member' : String} (h : Held r group member)
    (hrun : pg.grantMembership group' member' r = .ok r') : Held r' group member := by
  obtain ⟨hc, hheld⟩ := grantMembership_spec hrun
  by_cases he : group = group' ∧ member = member'
  · obtain ⟨rfl, rfl⟩ := he
    exact hheld
  · exact hc.held he h

theorem not_has_of_revoke {group member group' member' : String} (h : ¬ Has r group member)
    (hrun : pg.revokeMembershipStrict group' member' r = .ok r') : ¬ Has r' group member := by
  obtain ⟨hc, hgone⟩ := revokeMembershipStrict_spec hrun
  by_cases he : group = group' ∧ member = member'
  · obtain ⟨rfl, rfl⟩ := he
    exact hgone
  · exact fun hh => h ((hc.has he).mp hh)

variable {order : SetOrder}

theorem grantAll_spec {role : String} {groups : List String} (h : grantAll pg order role groups r = .ok r') :
    Changes pg (.member role (· ∈ groups)) r r' ∧ ∀ group ∈ groups, Held r' group role := by
  have hmem (group : String) := order.mem_names groups group
  refine ⟨performAll_changes h (fun group hg s s' hrun =>
    (grantMembership_spec hrun).1.mono (Effect.edge_within ((hmem group).mp hg))), fun group hg => ?_⟩
  refine performAll_establishes (I := fun _ => True) (P := fun g s => Held s g role) h trivial ?_ ?_ group
    ((hmem group).mpr hg)
  · exact fun g _ s s' _ hrun => ⟨trivial, (grantMembership_spec hrun).2⟩
  · exact fun g _ g' _ s s' _ hheld hrun => held_of_grant hheld hrun

theorem revokeAll_spec {role : String} {groups : List String} (h : revokeAll pg order role groups r = .ok r') :
    Changes pg (.member role (· ∈ groups)) r r' ∧ ∀ group ∈ groups, ¬ Has r' group role := by
  have hmem (group : String) := order.mem_names groups group
  refine ⟨performAll_changes h (fun group hg s s' hrun =>
    (revokeMembershipStrict_spec hrun).1.mono (Effect.edge_within ((hmem group).mp hg))), fun group hg => ?_⟩
  refine performAll_establishes (I := fun _ => True) (P := fun g s => ¬ Has s g role) h trivial ?_ ?_ group
    ((hmem group).mpr hg)
  · exact fun g _ s s' _ hrun => ⟨trivial, (revokeMembershipStrict_spec hrun).2⟩
  · exact fun g _ g' _ s s' _ hgone hrun => not_has_of_revoke hgone hrun

/-- Granting the wanted groups and revoking the others that were there leaves exactly the wanted ones. -/
theorem convergeMember (known : String → Prop) {role : String} {wanted before : List String}
    (hgrant : grantAll pg order role wanted r = .ok r') (hrevoke : revokeAll pg order role (minus before wanted) r' = .ok r'')
    (hbefore : ∀ group, known group → Has r group role → group ∈ before) :
    Changes pg (.member role (fun group => group ∈ wanted ∨ group ∈ before)) r r'' ∧
      ∀ group, known group → Exact r'' group role (group ∈ wanted) := by
  obtain ⟨hc₁, hheld⟩ := grantAll_spec hgrant
  obtain ⟨hc₂, hgone⟩ := revokeAll_spec hrevoke
  refine ⟨(hc₁.mono ?_).trans (hc₂.mono ?_), fun group hknown => ⟨fun hw => ?_, fun hhas => ?_⟩⟩
  · exact .touching (fun _ _ h => ⟨h.1, .inl h.2⟩)
  · exact .touching (fun _ _ h => ⟨h.1, .inr (mem_minus.mp h.2).1⟩)
  · exact hc₂.held (fun h => (mem_minus.mp h.2).2 hw) (hheld group hw)
  · by_contra hw
    have hnot : ¬ (Effect.member role (· ∈ wanted)).edges group role := fun h => hw h.2
    by_cases hb : group ∈ before
    · exact hgone group (mem_minus.mpr ⟨hb, hw⟩) hhas
    · have hnot' : ¬ (Effect.member role (· ∈ minus before wanted)).edges group role := fun h => hb (mem_minus.mp h.2).1
      exact hb (hbefore group hknown ((hc₁.has hnot).mp ((hc₂.has hnot').mp hhas)))

/-- The groups of a vault, for one member. -/
def Effect.vault (vaultId : Uuid) (member : String) : Effect :=
  .member member (fun group => ∃ scope, group = vaultGroupRoleName vaultId scope)

theorem mem_otherScopes {wanted : Option Scope} {scope : Scope} : scope ∈ otherScopes wanted ↔ wanted ≠ some scope := by
  rw [otherScopes, List.mem_filter, and_iff_right scope.mem_all, decide_eq_true_eq]
  exact ne_comm

theorem revokeOthers_spec {vaultId : Uuid} {member : String} {wanted : Option Scope}
    (h : performAll (fun scope => pg.revokeMembershipStrict (vaultGroupRoleName vaultId scope) member)
      (otherScopes wanted) r = .ok r') :
    Changes pg (.vault vaultId member) r r' ∧
      ∀ scope, wanted ≠ some scope → ¬ Has r' (vaultGroupRoleName vaultId scope) member := by
  refine ⟨performAll_changes h (fun scope _ s s' hrun =>
    (revokeMembershipStrict_spec hrun).1.mono (Effect.edge_within ⟨scope, rfl⟩)), fun scope hs => ?_⟩
  refine performAll_establishes (I := fun _ => True)
    (P := fun scope s => ¬ Has s (vaultGroupRoleName vaultId scope) member) h trivial ?_ ?_ scope (mem_otherScopes.mpr hs)
  · exact fun _ _ s s' _ hrun => ⟨trivial, (revokeMembershipStrict_spec hrun).2⟩
  · exact fun _ _ _ _ s s' _ hgone hrun => not_has_of_revoke hgone hrun

/-- The other scopes are gone, so granting the wanted one leaves exactly it. -/
theorem exact_of_grant {vaultId : Uuid} {member : String} {scope : Scope}
    (hgone : ∀ other, some scope ≠ some other → ¬ Has r (vaultGroupRoleName vaultId other) member)
    (h : pg.grantMembership (vaultGroupRoleName vaultId scope) member r = .ok r') :
    Changes pg (.vault vaultId member) r r' ∧
      ∀ s, Exact r' (vaultGroupRoleName vaultId s) member (some scope = some s) := by
  obtain ⟨hc, hheld⟩ := grantMembership_spec h
  refine ⟨hc.mono (Effect.edge_within ⟨scope, rfl⟩), fun s => ⟨?_, fun hhas => ?_⟩⟩
  · rintro ⟨⟩
    exact hheld
  · by_contra hne
    refine hgone s hne ((hc.has fun he => hne ?_).mp hhas)
    rw [(vaultGroupRoleName_inj he.1).2]

theorem syncPublicLevel_spec {vaultId : Uuid} {level : String} (h : syncPublicLevel pg vaultId level r = .ok r') :
    Changes pg (.vault vaultId authenticatedRole) r r' ∧
      ∀ s, Exact r' (vaultGroupRoleName vaultId s) authenticatedRole (publicAccessScope level = some s) := by
  simp only [syncPublicLevel, bind_eq_ok] at h
  obtain ⟨r₁, hrevoke, h⟩ := h
  obtain ⟨hc₁, hgone⟩ := revokeOthers_spec hrevoke
  split at h
  · rename_i hnone
    cases h
    rw [hnone] at hgone ⊢
    exact ⟨hc₁, fun s => ⟨fun hw => (by cases hw), fun hhas => absurd hhas (hgone s (by simp))⟩⟩
  · rename_i scope hsome
    rw [hsome] at hgone ⊢
    obtain ⟨hc₂, hexact⟩ := exact_of_grant hgone h
    exact ⟨hc₁.trans hc₂, hexact⟩

end

end Akb.RoleSync
