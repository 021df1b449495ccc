import Akb.RoleSync.Authority

/-! What each phase of a reconciliation without errors leaves, and what it leaves alone. -/
namespace Akb.RoleSync
open Akb.Library Akb.Native

def Effect.members (who : String → Prop) : Effect := .touching (fun _ m => who m)

def IsUser (name : String) : Prop := ∃ u, name = userRoleName u
def IsToken (name : String) : Prop := ∃ t, name = tokenRoleName t
def IsGroup (name : String) : Prop := ∃ v scope, name = vaultGroupRoleName v scope

/-- Token roles may come and go, with their memberships. -/
def Effect.tokens : Effect := ⟨fun g m => IsToken g ∨ IsToken m, fun _ _ => False, IsToken, fun _ => False⟩

def HierarchyEdge (group member : String) : Prop :=
  ∃ v, (group = vaultGroupRoleName v .reader ∧ member = vaultGroupRoleName v .writer) ∨
    (group = vaultGroupRoleName v .writer ∧ member = vaultGroupRoleName v .admin)

/-- The memberships that the projection makes. -/
def Managed (group member : String) : Prop :=
  IsUser member ∨ member = authenticatedRole ∨ (IsToken member ∧ IsGroup group) ∨ HierarchyEdge group member

/-- Any memberships may go, and managed ones come. -/
def Effect.managed (names : String → Prop) : Effect := ⟨fun _ _ => True, Managed, names, fun _ => False⟩

theorem Effect.Within.managed {e : Effect} {names : String → Prop} (ha : ∀ g m, e.adds g m → Managed g m)
    (hn : ∀ name, e.names name → names name) (ht : ∀ g, ¬ e.tables g) : e.Within (.managed names) :=
  ⟨fun _ _ _ => trivial, ha, hn, fun g hg => (ht g hg).elim⟩

/-- The canonical group roles are those of the vaults of the catalog. -/
def NoOrphans (c : Catalog) (r : Roles) : Prop :=
  ∀ name ∈ r.names, IsGroup name → ∃ v ∈ c.vaults, ∃ scope, name = vaultGroupRoleName v.id scope

structure Hierarchy (r : Roles) (vaultId : Uuid) : Prop where
  writer : Held r (vaultGroupRoleName vaultId .reader) (vaultGroupRoleName vaultId .writer)
  admin : Held r (vaultGroupRoleName vaultId .writer) (vaultGroupRoleName vaultId .admin)

section
variable {pg : Server} {order : SetOrder} {c : Catalog} {r r' : Roles} {e : Effect}

theorem isGroup_iff {name : String} : IsGroup name ↔ isCatalogRole name .vault = true := isCatalogRole_vault.symm

theorem not_isGroup_user (u : Uuid) : ¬ IsGroup (userRoleName u) := by
  rintro ⟨v, scope, h⟩
  exact group_ne_user v u scope h.symm

theorem not_isGroup_token (t : Uuid) : ¬ IsGroup (tokenRoleName t) := by
  rintro ⟨v, scope, h⟩
  exact group_ne_token v t scope h.symm

theorem not_isGroup_authenticated : ¬ IsGroup authenticatedRole := by
  rintro ⟨v, scope, h⟩
  exact group_ne_authenticated v scope h.symm

theorem not_isToken_group (v : Uuid) (s : Scope) : ¬ IsToken (vaultGroupRoleName v s) := by
  rintro ⟨t, h⟩
  exact group_ne_token v t s h

theorem not_isToken_user (u : Uuid) : ¬ IsToken (userRoleName u) := by
  rintro ⟨t, h⟩
  exact user_ne_token u t h

theorem not_isToken_authenticated : ¬ IsToken authenticatedRole := by
  rintro ⟨t, h⟩
  exact token_ne_authenticated t h.symm

theorem Hierarchy.changes {v : Uuid} (h : Hierarchy r v) (hc : Changes pg e r r')
    (hw : ¬ e.edges (vaultGroupRoleName v .reader) (vaultGroupRoleName v .writer))
    (ha : ¬ e.edges (vaultGroupRoleName v .writer) (vaultGroupRoleName v .admin)) : Hierarchy r' v :=
  ⟨hc.held hw h.writer, hc.held ha h.admin⟩

theorem Hierarchy.grant {v : Uuid} {group member : String} (h : Hierarchy r v)
    (hrun : pg.grantMembership group member r = .ok r') : Hierarchy r' v :=
  ⟨held_of_grant h.writer hrun, held_of_grant h.admin hrun⟩

theorem NoOrphans.changes (h : NoOrphans c r) (hc : Changes pg e r r') (hn : ∀ name, e.names name → ¬ IsGroup name) :
    NoOrphans c r' := by
  intro name hname hgroup
  rcases hc.names name hname with hold | hnew
  · exact h name hold hgroup
  · exact absurd hgroup (hn name hnew)

theorem performTasks {α : Type} {f : α → RoleTask} (run : α → Roles → Except PgError Roles) {items : List α}
    (h : performAll RoleTask.run (items.map f) r = .ok r') (hf : ∀ a, (f a).run = run a) :
    performAll run items r = .ok r' := by
  rw [performAll_map] at h
  rwa [show (fun a => (f a).run) = run from funext hf] at h

theorem mem_createTasks {count : Report → Report} {roles : List String} {t : RoleTask}
    (h : t ∈ createTasks pg order count roles) : ∃ role ∈ roles, t.run = pg.createRoleIfMissing role := by
  obtain ⟨role, hrole, rfl⟩ := List.mem_map.mp h
  exact ⟨role, (order.mem_names roles role).mp hrole, rfl⟩

theorem mem_dropTasks {count : Report → Report} {roles : List String} {t : RoleTask}
    (h : t ∈ dropTasks pg order count roles) : ∃ role ∈ roles, t.run = pg.dropRoleIfPresent role := by
  obtain ⟨role, hrole, rfl⟩ := List.mem_map.mp h
  exact ⟨role, (order.mem_names roles role).mp hrole, rfl⟩

theorem mem_existingRoles {kind : Kind} {name : String} :
    name ∈ existingRoles r kind ↔ name ∈ r.names ∧ isCatalogRole name kind = true := List.mem_filter

/-- Creating roles adds only their names. -/
theorem createTasks_changes {count : Report → Report} {roles : List String}
    (h : performAll RoleTask.run (createTasks pg order count roles) r = .ok r') :
    Changes pg (.named (· ∈ roles)) r r' := by
  refine performAll_changes h (fun t ht s s' hrun => ?_)
  obtain ⟨role, hrole, ht⟩ := mem_createTasks ht
  rw [ht] at hrun
  exact (createRoleIfMissing_spec hrun).mono (.named (fun name (h : name = role) => h ▸ hrole))

/-- Dropping roles of the managed namespace takes only their memberships, and leaves none of them. -/
theorem dropTasks_changes (kind : Kind) {count : Report → Report} {roles : List String}
    (h : performAll RoleTask.run (dropTasks pg order count roles) r = .ok r') (hr : Clean r)
    (hkind : ∀ role ∈ roles, isCatalogRole role kind = true) :
    Changes pg (.ends (· ∈ roles)) r r' ∧ ∀ role ∈ roles, role ∉ r'.names := by
  have hstep : ∀ role ∈ roles, ∀ s s', Clean s → pg.dropRoleIfPresent role s = .ok s' →
      Changes pg (.ends (· ∈ roles)) s s' ∧ role ∉ s'.names := by
    intro role hrole s s' hs hrun
    obtain ⟨hc, hgone⟩ := dropRoleIfPresent_spec (hs.grantor_ne (hkind role hrole)) hrun
    exact ⟨hc.mono (.ends (fun name (h : name = role) => h ▸ hrole)), hgone⟩
  rw [dropTasks, performAll_map] at h
  have hmem (role : String) := order.mem_names roles role
  constructor
  · refine (performAll_keeps (I := fun s => Clean s ∧
      Changes pg (.ends (· ∈ roles)) r s) h ⟨hr, .refl⟩ ?_).2
    intro role hrole s s' hboth hrun
    obtain ⟨hc, -⟩ := hstep role ((hmem role).mp hrole) s s' hboth.1 hrun
    exact ⟨hc.clean hboth.1, hboth.2.trans hc⟩
  · intro role hrole
    refine performAll_establishes (I := Clean) (P := fun role s => role ∉ s.names) h hr ?_ ?_ role
      ((hmem role).mpr hrole)
    · intro role hrole s s' hs hrun
      obtain ⟨hc, hgone⟩ := hstep role ((hmem role).mp hrole) s s' hs hrun
      exact ⟨hc.clean hs, hgone⟩
    · intro role _ other hother s s' hs hgone hrun hback
      obtain ⟨hc, -⟩ := hstep other ((hmem other).mp hother) s s' hs hrun
      exact (hc.names role hback).elim hgone id

/-! ### Users -/

theorem userRoles_phase (h : performAll RoleTask.run (userRoleTasks pg order c r) r = .ok r') (hr : Clean r) :
    Changes pg (.managed (fun _ => True)) r r' := by
  obtain ⟨r₂, h, hdrop⟩ := performAll_append h
  obtain ⟨r₁, hcreate, hgrant⟩ := performAll_append h
  have hgrant := performTasks (fun role => pg.grantMembership authenticatedRole role) hgrant (fun _ => rfl)
  have hcreated := createTasks_changes hcreate
  have hgranted : Changes pg (.managed (fun _ => True)) r₁ r₂ := by
    refine performAll_changes hgrant (fun role hrole s s' hrun => ?_)
    obtain ⟨u, -, rfl⟩ := List.mem_map.mp ((order.mem_names _ role).mp hrole)
    refine (grantMembership_spec hrun).1.mono (.managed ?_ (fun _ _ => trivial) (fun _ h => h))
    rintro g m ⟨-, rfl⟩
    exact .inl ⟨u.id, rfl⟩
  have hclean := hgranted.clean (hcreated.clean hr)
  obtain ⟨hdropped, -⟩ := dropTasks_changes .user hdrop hclean
    (fun role hrole => (mem_existingRoles.mp (mem_minus.mp hrole).1).2)
  exact ((hcreated.mono (.managed (fun _ _ h => h.elim) (fun _ _ => trivial) (fun _ h => h))).trans hgranted).trans
    (hdropped.mono (.managed (fun _ _ h => h.elim) (fun _ _ => trivial) (fun _ h => h)))

/-! ### Vault groups -/

private theorem hierarchyTask_spec {v : Vault} (h : (hierarchyTask pg v).run r = .ok r') :
    Changes pg (.managed IsUser) r r' ∧ Hierarchy r' v.id ∧ ∀ w, Hierarchy r w → Hierarchy r' w := by
  obtain ⟨r₁, h₁, h₂⟩ := bind_eq_ok.mp h
  obtain ⟨hc₁, hheld₁⟩ := grantMembership_spec h₁
  obtain ⟨hc₂, hheld₂⟩ := grantMembership_spec h₂
  refine ⟨(hc₁.mono (.managed ?_ (fun _ h => h.elim) (fun _ h => h))).trans
    (hc₂.mono (.managed ?_ (fun _ h => h.elim) (fun _ h => h))), ⟨held_of_grant hheld₁ h₂, hheld₂⟩,
    fun w hier => (hier.grant h₁).grant h₂⟩
  · rintro g m ⟨rfl, rfl⟩
    exact .inr (.inr (.inr ⟨v.id, .inl ⟨rfl, rfl⟩⟩))
  · rintro g m ⟨rfl, rfl⟩
    exact .inr (.inr (.inr ⟨v.id, .inr ⟨rfl, rfl⟩⟩))

private theorem ownerTask_spec {v : Vault} {owner : Uuid} (h : (ownerTask pg v owner).run r = .ok r') :
    Changes pg (.managed IsUser) r r' ∧ ∀ w, Hierarchy r w → Hierarchy r' w := by
  obtain ⟨r₁, h₁, h₂⟩ := bind_eq_ok.mp h
  have hc₁ := createRoleIfMissing_spec h₁
  obtain ⟨hc₂, -⟩ := grantMembership_spec h₂
  refine ⟨(hc₁.mono (.managed (fun _ _ h => h.elim) (fun name h => ⟨owner, h⟩) (fun _ h => h))).trans
    (hc₂.mono (.managed ?_ (fun _ h => h.elim) (fun _ h => h))), fun w hier => ?_⟩
  · rintro g m ⟨-, rfl⟩
    exact .inl ⟨owner, rfl⟩
  · exact (hier.changes hc₁ id id).grant h₂

private def vaultTasks (pg : Server) (v : Vault) : List RoleTask :=
  hierarchyTask pg v :: (v.ownerId.map (ownerTask pg v)).toList

private theorem vaultTasks_spec {v : Vault} {t : RoleTask} (ht : t ∈ vaultTasks pg v) (h : t.run r = .ok r') :
    Changes pg (.managed IsUser) r r' ∧ ∀ w, Hierarchy r w → Hierarchy r' w := by
  rcases List.mem_cons.mp ht with rfl | ht
  · obtain ⟨hc, -, hier⟩ := hierarchyTask_spec h
    exact ⟨hc, hier⟩
  · obtain ⟨owner, -, rfl⟩ := Option.map_eq_some_iff.mp (Option.mem_toList.mp ht)
    exact ownerTask_spec h

/-- The canonical groups are those of the catalog, each with its hierarchy. -/
theorem vaultRoles_phase (h : performAll RoleTask.run (vaultRoleTasks pg order c r) r = .ok r') (hr : Clean r) :
    Changes pg (.managed (fun _ => True)) r r' ∧ NoOrphans c r' ∧ ∀ v ∈ c.vaults, Hierarchy r' v.id := by
  obtain ⟨r₂, h, hdrop⟩ := performAll_append h
  obtain ⟨r₁, hcreate, hvaults⟩ := performAll_append h
  have hcreated := createTasks_changes hcreate
  have hr₁ := hcreated.clean hr
  have hgroups := performAll_changes (e := .managed IsUser) hvaults (fun t ht s s' hrun => by
    obtain ⟨v, -, ht⟩ := List.mem_flatMap.mp ht
    exact (vaultTasks_spec ht hrun).1)
  have hr₂ := hgroups.clean hr₁
  have hhier : ∀ v ∈ c.vaults, Hierarchy r₂ v.id := by
    intro v hv
    obtain ⟨before, after, hsplit⟩ := List.append_of_mem hv
    rw [hsplit, List.flatMap_append, List.flatMap_cons] at hvaults
    obtain ⟨s₁, -, hvaults⟩ := performAll_append hvaults
    obtain ⟨s₂, hone, hrest⟩ := performAll_append hvaults
    obtain ⟨s, hfirst, howner⟩ := performAll_cons.mp hone
    have hkeep {t : RoleTask} {w : Vault} (ht : t ∈ vaultTasks pg w) (s s' : Roles) (hs : Hierarchy s v.id)
        (hrun : t.run s = .ok s') : Hierarchy s' v.id := (vaultTasks_spec ht hrun).2 _ hs
    have hs₂ : Hierarchy s₂ v.id := performAll_keeps (I := fun s => Hierarchy s v.id) howner
      (hierarchyTask_spec hfirst).2.1
      (fun t ht s s' hs hrun => hkeep (w := v) (List.mem_cons_of_mem _ ht) s s' hs hrun)
    refine performAll_keeps (I := fun s => Hierarchy s v.id) hrest hs₂ (fun t ht s s' hs hrun => ?_)
    obtain ⟨w, -, ht⟩ := List.mem_flatMap.mp ht
    exact hkeep ht s s' hs hrun
  have hkind : ∀ role ∈ minus (existingRoles r .vault) (c.vaults.rows.flatMap (fun v => Scope.all.map (vaultGroupRoleName v.id))),
      isCatalogRole role .vault = true := fun role hrole => (mem_existingRoles.mp (mem_minus.mp hrole).1).2
  obtain ⟨hdropped, hgone⟩ := dropTasks_changes .vault hdrop hr₂ hkind
  have hwanted {v : Vault} (hv : v ∈ c.vaults) (scope : Scope) :
      vaultGroupRoleName v.id scope ∈ c.vaults.rows.flatMap (fun v => Scope.all.map (vaultGroupRoleName v.id)) :=
    List.mem_flatMap.mpr ⟨v, hv, List.mem_map_of_mem scope.mem_all⟩
  refine ⟨((hcreated.mono (.managed (fun _ _ h => h.elim) (fun _ _ => trivial) (fun _ h => h))).trans
    (hgroups.mono (.managed (fun _ _ h => h) (fun _ _ => trivial) (fun _ h => h)))).trans
    (hdropped.mono (.managed (fun _ _ h => h.elim) (fun _ _ => trivial) (fun _ h => h))),
    fun name hname hgroup => ?_, fun v hv => (hhier v hv).changes hdropped ?_ ?_⟩
  · by_cases hcatalog : name ∈ c.vaults.rows.flatMap (fun v => Scope.all.map (vaultGroupRoleName v.id))
    · obtain ⟨v, hv, hname⟩ := List.mem_flatMap.mp hcatalog
      obtain ⟨scope, -, rfl⟩ := List.mem_map.mp hname
      exact ⟨v, hv, scope, rfl⟩
    · have hold : name ∈ r.names := by
        rcases hdropped.names name hname with hname | hname
        · rcases hgroups.names name hname with hname | ⟨u, rfl⟩
          · exact (hcreated.names name hname).resolve_right (fun hnew => hcatalog (mem_minus.mp hnew).1)
          · exact absurd hgroup (not_isGroup_user u)
        · exact hname.elim
      exact absurd hname (hgone name (mem_minus.mpr ⟨mem_existingRoles.mpr ⟨hold, isGroup_iff.mp hgroup⟩, hcatalog⟩))
  · exact fun h => h.elim (fun h => (mem_minus.mp h).2 (hwanted hv _)) (fun h => (mem_minus.mp h).2 (hwanted hv _))
  · exact fun h => h.elim (fun h => (mem_minus.mp h).2 (hwanted hv _)) (fun h => (mem_minus.mp h).2 (hwanted hv _))

/-! ### Memberships of users -/

private theorem edges_phase {edges : List (String × String)} {run : String × String → Roles → Except PgError Roles}
    {P : String × String → Roles → Prop} (h : performAll run (order.pairs edges) r = .ok r')
    (step : ∀ edge s s', run edge s = .ok s' → Changes pg (.edge edge.1 edge.2) s s' ∧ P edge s')
    (later : ∀ edge other s s', P edge s → run other s = .ok s' → P edge s') :
    Changes pg (.touching (fun g m => (g, m) ∈ edges)) r r' ∧ ∀ edge ∈ edges, P edge r' := by
  have hmem (edge : String × String) := order.mem_pairs edges edge
  constructor
  · refine performAll_changes h (fun edge hedge s s' hrun => (step edge s s' hrun).1.mono (.touching ?_))
    rintro g m ⟨rfl, rfl⟩
    exact (hmem edge).mp hedge
  · intro edge hedge
    exact performAll_establishes (I := fun _ => True) (P := P) h trivial
      (fun edge _ s s' _ hrun => ⟨trivial, (step edge s s' hrun).2⟩)
      (fun edge _ other _ s s' _ hP hrun => later edge other s s' hP hrun) edge ((hmem edge).mpr hedge)

/-- Exactly the desired memberships of catalog users in catalog groups are left. -/
theorem memberships_phase {tasks : List RoleTask} (ht : membershipTasks pg order c r = .ok tasks)
    (h : performAll RoleTask.run tasks r = .ok r') :
    Changes pg (.members IsUser) r r' ∧ ∀ v ∈ c.vaults, ∀ u ∈ c.users, ∀ scope,
      Exact r' (vaultGroupRoleName v.id scope) (userRoleName u.id) (c.UserAuthority u.id v.id scope) := by
  obtain ⟨desired, hdesired, ht⟩ := bind_eq_ok.mp ht
  cases ht
  obtain ⟨r₂, h, hoptions⟩ := performAll_append h
  obtain ⟨r₁, hrevoke, hgrant⟩ := performAll_append h
  have hrevoke := performTasks (fun edge => pg.revokeMembershipStrict edge.1 edge.2) hrevoke (fun _ => rfl)
  have hgrant := performTasks (fun edge => pg.grantMembership edge.1 edge.2) hgrant (fun _ => rfl)
  have hoptions := performTasks (fun edge => pg.grantMembership edge.1 edge.2) hoptions (fun _ => rfl)
  obtain ⟨hc₁, hgone⟩ := edges_phase (P := fun edge s => ¬ Has s edge.1 edge.2) hrevoke
    (fun edge s s' hrun => revokeMembershipStrict_spec hrun) (fun _ _ s s' hP hrun => not_has_of_revoke hP hrun)
  obtain ⟨hc₂, hheld₂⟩ := edges_phase (P := fun edge s => Held s edge.1 edge.2) hgrant
    (fun edge s s' hrun => grantMembership_spec hrun) (fun _ _ s s' hP hrun => held_of_grant hP hrun)
  obtain ⟨hc₃, hheld₃⟩ := edges_phase (P := fun edge s => Held s edge.1 edge.2) hoptions
    (fun edge s s' hrun => grantMembership_spec hrun) (fun _ _ s s' hP hrun => held_of_grant hP hrun)
  have hwithin {edges : List (String × String)} (hs : ∀ edge ∈ edges, ∃ v scope u,
      edge = (vaultGroupRoleName v scope, userRoleName u)) :
      Effect.Within (.touching (fun g m => (g, m) ∈ edges)) (.members IsUser) := by
    refine .touching (fun g m hm => ?_)
    obtain ⟨v, scope, u, he⟩ := hs _ hm
    exact ⟨u, (Prod.mk.inj he).2⟩
  refine ⟨((hc₁.mono (hwithin fun edge he => actual_shape (mem_minus.mp he).1)).trans
    (hc₂.mono (hwithin fun edge he => desired_shape hdesired (mem_minus.mp he).1))).trans
    (hc₃.mono (hwithin fun edge he => desired_shape hdesired (List.mem_filter.mp he).1)), ?_⟩
  intro v hv u hu scope
  have hwanted := mem_desired hdesired hv u.id scope
  have hactual := mem_actual (r := r) hv hu scope
  refine ⟨fun hauthority => ?_, fun hhas => ?_⟩
  · have hin := hwanted.mpr hauthority
    by_cases hpresent : (vaultGroupRoleName v.id scope, userRoleName u.id) ∈ actualUserMemberships c r
    · exact hheld₃ (vaultGroupRoleName v.id scope, userRoleName u.id) (List.mem_filter.mpr ⟨hin, decide_eq_true hpresent⟩)
    · refine hc₃.held (fun hm => hpresent ?_) (hheld₂ (vaultGroupRoleName v.id scope, userRoleName u.id) (mem_minus.mpr ⟨hin, hpresent⟩))
      exact of_decide_eq_true (List.mem_filter.mp hm).2
  · by_contra hnot
    have hout : (vaultGroupRoleName v.id scope, userRoleName u.id) ∉ desired := fun hin => hnot (hwanted.mp hin)
    have hhas₁ : Has r₁ (vaultGroupRoleName v.id scope) (userRoleName u.id) :=
      (hc₂.has (fun hm => hout (mem_minus.mp hm).1)).mp ((hc₃.has (fun hm => hout (List.mem_filter.mp hm).1)).mp hhas)
    by_cases hpresent : (vaultGroupRoleName v.id scope, userRoleName u.id) ∈ actualUserMemberships c r
    · exact hgone (vaultGroupRoleName v.id scope, userRoleName u.id) (mem_minus.mpr ⟨hpresent, hout⟩) hhas₁
    · exact hpresent (hactual.mpr ((hc₁.has (fun hm => hpresent (mem_minus.mp hm).1)).mp hhas₁))

/-! ### Tables and public access -/

/-- The privileges that the catalog gives the groups of its vaults. -/
def Effect.tableGrants (sha1 : List Char → List Char) (c : Catalog) : Effect :=
  ⟨fun _ _ => False, fun _ _ => False, fun _ => False, fun g => ∃ v ∈ c.vaults, ∃ row ∈ c.tables, row.vaultId = v.id ∧
    g.table = pgTableName sha1 v.name row.name ∧ ∃ scope, g.role = vaultGroupRoleName v.id scope⟩

theorem tables_phase {sha1 : List Char → List Char} (h : performAll RoleTask.run (tableGrantTasks pg sha1 c) r = .ok r') :
    Changes pg (.tableGrants sha1 c) r r' := by
  refine performAll_changes h (fun t ht s s' hrun => ?_)
  obtain ⟨row, hrow, ht⟩ := List.mem_flatMap.mp ht
  obtain ⟨v, hv, rfl⟩ := List.mem_map.mp ht
  obtain ⟨hv, hid⟩ := List.mem_filter.mp hv
  have hid : v.id = row.vaultId := of_decide_eq_true hid
  simp only at hrun
  split at hrun
  · cases hrun
  · refine (grantTable_spec hrun).mono ⟨fun _ _ h => h, fun _ _ h => h, fun _ h => h, fun g hg => ?_⟩
    obtain ⟨htable, scope, hrole⟩ := hg
    exact ⟨v, hv, row, hrow, hid.symm, htable, scope, hid ▸ hrole⟩

theorem public_phase (h : performAll RoleTask.run (publicAccessTasks pg c) r = .ok r') :
    Changes pg (.members (· = authenticatedRole)) r r' ∧ ∀ v ∈ c.vaults, ∀ scope,
      Exact r' (vaultGroupRoleName v.id scope) authenticatedRole (c.PublicAuthority v.id scope) := by
  have h := performTasks (fun v => syncPublicLevel pg v.id (v.publicAccess.getD "none")) h (fun _ => rfl)
  have hwithin (v : Uuid) : (Effect.vault v authenticatedRole).Within (.members (· = authenticatedRole)) :=
    .touching (fun _ _ h => h.1)
  refine ⟨performAll_changes h (fun v _ s s' hrun => (syncPublicLevel_spec hrun).1.mono (hwithin v.id)), ?_⟩
  refine performAll_establishes (I := fun _ => True) (P := fun v s => ∀ scope,
    Exact s (vaultGroupRoleName v.id scope) authenticatedRole (c.PublicAuthority v.id scope)) h trivial ?_ ?_
  · intro v hv s s' _ hrun
    refine ⟨trivial, fun scope => ((syncPublicLevel_spec hrun).2 scope).congr ⟨fun hp => ⟨v, hv, rfl, hp⟩, ?_⟩⟩
    rintro ⟨w, hw, hid, hp⟩
    rw [c.vaults.eq_of_key hw hv hid] at hp
    exact hp
  · intro v hv w hw s s' _ hP hrun
    by_cases hid : v.id = w.id
    · obtain rfl := c.vaults.eq_of_key hv hw hid
      refine fun scope => ((syncPublicLevel_spec hrun).2 scope).congr ⟨fun hp => ⟨v, hv, rfl, hp⟩, ?_⟩
      rintro ⟨w, hw, hid, hp⟩
      rw [c.vaults.eq_of_key hw hv hid] at hp
      exact hp
    · refine fun scope => (hP scope).changes (syncPublicLevel_spec hrun).1 ?_
      rintro ⟨-, other, he⟩
      exact hid (vaultGroupRoleName_inj he).1

/-! ### Tokens -/

theorem tokenRoles_phase (h : performAll RoleTask.run (tokenRoleTasks pg order c r) r = .ok r') (hr : Clean r) :
    Changes pg .tokens r r' ∧ ∀ t ∈ c.liveScopedTokens, ∀ e, t.vaultScope ≠ some (.error e) := by
  obtain ⟨r₂, h, hdrop⟩ := performAll_append h
  obtain ⟨r₁, herrors, hcreate⟩ := performAll_append h
  have hparse : ∀ t ∈ c.liveScopedTokens, ∀ e, t.vaultScope ≠ some (.error e) := by
    intro t ht e he
    obtain ⟨before, after, hsplit⟩ := List.append_of_mem ht
    rw [scopeErrors, hsplit, List.flatMap_append, List.flatMap_cons, he] at herrors
    obtain ⟨s₁, -, herrors⟩ := performAll_append herrors
    obtain ⟨s₂, hfail, -⟩ := performAll_append herrors
    obtain ⟨s, hfail, -⟩ := performAll_cons.mp hfail
    cases hfail
  have hnone : scopeErrors c = [] := by
    rw [scopeErrors, List.flatMap_eq_nil_iff]
    intro t ht
    split
    · rename_i e he
      exact absurd he (hparse t ht e)
    · rfl
  rw [hnone] at herrors
  cases herrors
  have hcreated := createTasks_changes hcreate
  obtain ⟨hdropped, -⟩ := dropTasks_changes .token hdrop (hcreated.clean hr)
    (fun role hrole => (mem_existingRoles.mp (mem_minus.mp hrole).1).2)
  refine ⟨(hcreated.widen .tokens ⟨fun _ _ h => h.elim, fun _ _ h => h, fun name hname => ?_, fun _ h => h⟩).trans
    (hdropped.mono ⟨fun g m h => ?_, fun _ _ h => h, fun _ h => h.elim, fun _ h => h⟩), hparse⟩
  · obtain ⟨t, -, rfl⟩ := List.mem_map.mp (mem_minus.mp hname).1
    exact ⟨t.id, rfl⟩
  · have hkind {name : String} (hn : name ∈ minus (existingRoles r .token)
        ((c.liveScopedTokens.filter (fun t => (scopeOfToken t).isSome)).map (fun t => tokenRoleName t.id))) : IsToken name :=
      isCatalogRole_token.mp (mem_existingRoles.mp (mem_minus.mp hn).1).2
    exact h.imp hkind hkind

/-- The groups of one token. -/
def Effect.token (t : Token) : Effect := .member (tokenRoleName t.id) IsGroup

theorem tokenMembershipTask_changes {r₀ : Roles} {t : Token} {scope : VaultScope}
    (h : (tokenMembershipTask pg order c r₀ t scope).run r = .ok r') : Changes pg (.token t) r r' := by
  simp only [tokenMembershipTask, bind_eq_ok] at h
  obtain ⟨wanted, hwanted, r₁, hgrant, hrevoke⟩ := h
  obtain ⟨hc, -⟩ := convergeMember (fun _ => False) hgrant hrevoke (fun _ hknown => hknown.elim)
  refine hc.mono (.touching (fun g m he => ⟨he.1, isGroup_iff.mpr ?_⟩))
  exact he.2.elim (fun hw => wanted_isGroup hwanted hw) (fun hb => (mem_tokenGroupMemberships.mp hb).1)

theorem tokenMembershipTask_exact {r₀ : Roles} {t : Token} {scope : VaultScope} (hscope : scopeOfToken t = some scope)
    (h : (tokenMembershipTask pg order c r₀ t scope).run r = .ok r')
    (hsame : ∀ group, Has r group (tokenRoleName t.id) → Has r₀ group (tokenRoleName t.id)) (v : Uuid) (s : Scope) :
    Exact r' (vaultGroupRoleName v s) (tokenRoleName t.id) (c.TokenAuthority t v s) := by
  simp only [tokenMembershipTask, bind_eq_ok] at h
  obtain ⟨wanted, hwanted, r₁, hgrant, hrevoke⟩ := h
  obtain ⟨-, hexact⟩ := convergeMember (fun g => isCatalogRole g .vault = true) hgrant hrevoke
    (fun group hknown hhas => mem_tokenGroupMemberships.mpr ⟨hknown, hsame group hhas⟩)
  exact (hexact _ (isCatalogRole_vault.mpr ⟨v, s, rfl⟩)).congr (mem_wantedTokenGroupRoles hscope hwanted v s)

theorem token_edges_ne {t t' : Token} {group : String} (h : t.id ≠ t'.id) :
    ¬ (Effect.token t').edges group (tokenRoleName t.id) := fun he => h (tokenRoleName_injective he.1)

theorem eq_of_token_id {t t' : Token} (ht : t ∈ c.liveScopedTokens) (ht' : t' ∈ c.liveScopedTokens) (h : t.id = t'.id) :
    t = t' := c.tokens.eq_of_key (List.mem_filter.mp ht).1 (List.mem_filter.mp ht').1 h

end

end Akb.RoleSync
