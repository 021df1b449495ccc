import Akb.RoleSync.Phases

/-! A reconciliation that reports no error leaves the roles projected. -/
namespace Akb.RoleSync
open Akb.Library Akb.Native

/-- The role state is the projection of the catalog. -/
structure Projected (c : Catalog) (r : Roles) : Prop where
  users : ∀ u ∈ c.users, ∀ v s, Exact r (vaultGroupRoleName v s) (userRoleName u.id) (c.UserAuthority u.id v s)
  anyone : ∀ v s, Exact r (vaultGroupRoleName v s) authenticatedRole (c.PublicAuthority v s)
  tokens : ∀ t ∈ c.liveScopedTokens, (scopeOfToken t).isSome →
    ∀ v s, Exact r (vaultGroupRoleName v s) (tokenRoleName t.id) (c.TokenAuthority t v s)
  readable : ∀ t ∈ c.liveScopedTokens, ∀ e, t.vaultScope ≠ some (.error e)
  noOrphans : NoOrphans c r
  hierarchy : ∀ v ∈ c.vaults, Hierarchy r v.id

/-- Where members of group roles and privileges on tables lie within the projection: a token belongs to
vault groups only, a vault group to those of its hierarchy, and its privileges are on its vault's tables. -/
structure Confined (sha1 : List Char → List Char) (c : Catalog) (r : Roles) : Prop where
  tokens : ∀ m ∈ r.members, IsToken m.member → IsGroup m.group
  groups : ∀ m ∈ r.members, IsGroup m.member → HierarchyEdge m.group m.member
  tokenPrivileges : ∀ g ∈ r.grants, ¬ IsToken g.role
  groupPrivileges : ∀ g ∈ r.grants, ∀ v s, g.role = vaultGroupRoleName v s →
    ∃ x ∈ c.vaults, x.id = v ∧ ∃ row ∈ c.tables, row.vaultId = v ∧ g.table = pgTableName sha1 x.name row.name

section
variable {pg : Server} {order : SetOrder} {sha1 : List Char → List Char} {c : Catalog} {r r' : Roles} {e : Effect}

theorem Confined.changes (h : Confined sha1 c r) (hc : Changes pg e r r') (ha : ∀ g m, e.adds g m → Managed g m)
    (ht : ∀ g, e.tables g → (Effect.tableGrants sha1 c).tables g) : Confined sha1 c r' where
  tokens m hm htoken := by
    rcases hc.added m hm with hold | ⟨-, hnew⟩
    · exact h.tokens m hold htoken
    · obtain ⟨t, htoken⟩ := htoken
      rcases ha _ _ hnew with ⟨u, hu⟩ | hauth | ⟨-, hgroup⟩ | ⟨v, ⟨-, hm⟩ | ⟨-, hm⟩⟩
      · exact absurd (hu.symm.trans htoken) (user_ne_token u t)
      · exact absurd (htoken.symm.trans hauth) (token_ne_authenticated t)
      · exact hgroup
      · exact absurd (hm.symm.trans htoken) (group_ne_token v t _)
      · exact absurd (hm.symm.trans htoken) (group_ne_token v t _)
  groups m hm hgroup := by
    rcases hc.added m hm with hold | ⟨-, hnew⟩
    · exact h.groups m hold hgroup
    · obtain ⟨v, s, hgroup⟩ := hgroup
      rcases ha _ _ hnew with ⟨u, hu⟩ | hauth | ⟨⟨t, ht⟩, -⟩ | hedge
      · exact absurd (hgroup.symm.trans hu) (group_ne_user v u s)
      · exact absurd (hgroup.symm.trans hauth) (group_ne_authenticated v s)
      · exact absurd (hgroup.symm.trans ht) (group_ne_token v t s)
      · exact hedge
  tokenPrivileges g hg htoken := by
    rcases hc.grants g hg with hold | hnew
    · exact h.tokenPrivileges g hold htoken
    · obtain ⟨x, -, row, -, -, -, scope, hrole⟩ := ht g hnew
      obtain ⟨t, ht⟩ := htoken
      exact group_ne_token _ t scope (hrole.symm.trans ht)
  groupPrivileges g hg v s hrole := by
    rcases hc.grants g hg with hold | hnew
    · exact h.groupPrivileges g hold v s hrole
    · obtain ⟨x, hx, row, hrow, hid, htable, scope, hrole'⟩ := ht g hnew
      obtain ⟨rfl, -⟩ := vaultGroupRoleName_inj (hrole'.symm.trans hrole)
      exact ⟨x, hx, rfl, row, hrow, hid, htable⟩

private def tokenTasks (pg : Server) (order : SetOrder) (c : Catalog) (r : Roles) (t : Token) : List RoleTask :=
  ((scopeOfToken t).map (tokenMembershipTask pg order c r t)).toList

private theorem tokenTasks_changes {r₀ : Roles} {t : Token} {task : RoleTask} (ht : task ∈ tokenTasks pg order c r₀ t)
    (h : task.run r = .ok r') : Changes pg (.token t) r r' := by
  obtain ⟨scope, -, rfl⟩ := Option.map_eq_some_iff.mp (Option.mem_toList.mp ht)
  exact tokenMembershipTask_changes h

/-- Every live token with a scope belongs to exactly the groups it is entitled to. -/
theorem tokenMemberships_phase (h : performAll RoleTask.run (tokenMembershipTasks pg order c r) r = .ok r') :
    Changes pg (.touching (fun g m => IsToken m ∧ IsGroup g)) r r' ∧
      ∀ t ∈ c.liveScopedTokens, (scopeOfToken t).isSome →
        ∀ v s, Exact r' (vaultGroupRoleName v s) (tokenRoleName t.id) (c.TokenAuthority t v s) := by
  change performAll RoleTask.run (c.liveScopedTokens.flatMap (tokenTasks pg order c r)) r = .ok r' at h
  constructor
  · refine performAll_changes h (fun task htask s s' hrun => ?_)
    obtain ⟨t, -, htask⟩ := List.mem_flatMap.mp htask
    exact (tokenTasks_changes htask hrun).mono (.touching (fun g m he => ⟨⟨t.id, he.1⟩, he.2⟩))
  · intro t ht hsome
    obtain ⟨scope, hscope⟩ := Option.isSome_iff_exists.mp hsome
    obtain ⟨before, after, hsplit⟩ := List.append_of_mem ht
    -- Only this task touches the memberships of the token.
    have hunique : ∀ t' ∈ before ++ after, t.id ≠ t'.id := by
      have hnodup : (c.liveScopedTokens.map Token.id).Nodup := c.tokens.unique.sublist (List.filter_sublist.map _)
      rw [hsplit, List.map_append, List.map_cons] at hnodup
      have hfirst := (List.nodup_middle.mp hnodup)
      rw [List.nodup_cons, ← List.map_append] at hfirst
      exact fun t' ht' he => hfirst.1 (List.mem_map.mpr ⟨t', ht', he.symm⟩)
    have hother {tokens : List Token} (hsub : ∀ t' ∈ tokens, t' ∈ before ++ after) {task : RoleTask}
        (htask : task ∈ tokens.flatMap (tokenTasks pg order c r)) {s s' : Roles} (hrun : task.run s = .ok s') :
        ∃ t', Changes pg (.token t') s s' ∧ t.id ≠ t'.id := by
      obtain ⟨t', ht', htask⟩ := List.mem_flatMap.mp htask
      exact ⟨t', tokenTasks_changes htask hrun, hunique t' (hsub t' ht')⟩
    rw [hsplit, List.flatMap_append, List.flatMap_cons] at h
    obtain ⟨r₁, hbefore, h⟩ := performAll_append h
    obtain ⟨r₂, hmine, hafter⟩ := performAll_append h
    have hsame : ∀ group, Has r₁ group (tokenRoleName t.id) → Has r group (tokenRoleName t.id) := by
      refine performAll_keeps (I := fun s => ∀ group, Has s group (tokenRoleName t.id) → Has r group (tokenRoleName t.id))
        hbefore (fun _ h => h) (fun task htask s s' hs hrun group hhas => ?_)
      obtain ⟨t', hc, hne⟩ := hother (fun t' ht' => List.mem_append_left _ ht') htask hrun
      exact hs group ((hc.has (token_edges_ne hne)).mp hhas)
    rw [tokenTasks, hscope] at hmine
    obtain ⟨s, hrun, hdone⟩ := performAll_cons.mp hmine
    cases hdone
    have hexact := tokenMembershipTask_exact hscope hrun hsame
    intro v sc
    refine performAll_keeps (I := fun s => Exact s (vaultGroupRoleName v sc) (tokenRoleName t.id) (c.TokenAuthority t v sc))
      hafter (hexact v sc) (fun task htask s s' hs hrun => ?_)
    obtain ⟨t', hc, hne⟩ := hother (fun t' ht' => List.mem_append_right _ ht') htask hrun
    exact hs.changes hc (token_edges_ne hne)

/-- Vault groups among themselves are left alone. -/
structure SparesGroups (e : Effect) : Prop where
  edges : ∀ g m, IsGroup g → IsGroup m → ¬ e.edges g m
  names : ∀ name, e.names name → ¬ IsGroup name

theorem NoOrphans.spared (h : NoOrphans c r) (hc : Changes pg e r r') (he : SparesGroups e) : NoOrphans c r' :=
  h.changes hc he.names

theorem Hierarchy.spared {v : Uuid} (h : Hierarchy r v) (hc : Changes pg e r r') (he : SparesGroups e) :
    Hierarchy r' v := h.changes hc (he.edges _ _ ⟨v, _, rfl⟩ ⟨v, _, rfl⟩) (he.edges _ _ ⟨v, _, rfl⟩ ⟨v, _, rfl⟩)

theorem sparesGroups_members {who : String → Prop} (h : ∀ name, who name → ¬ IsGroup name) :
    SparesGroups (.members who) := ⟨fun _ _ _ hm hw => h _ hw hm, fun _ h => h.elim⟩

theorem sparesGroups_tokens : SparesGroups .tokens := by
  refine ⟨fun g m hg hm hw => ?_, fun name hn => ?_⟩
  · rcases hw with ⟨t, rfl⟩ | ⟨t, rfl⟩
    · exact not_isGroup_token t hg
    · exact not_isGroup_token t hm
  · obtain ⟨t, rfl⟩ := hn
    exact not_isGroup_token t

/-- Where the canonical groups are those of the catalog, only its vaults have to be looked at. -/
theorem exact_of_catalog {member : String} {wanted : Uuid → Scope → Prop} (horphans : NoOrphans c r)
    (h : ∀ x ∈ c.vaults, ∀ s, Exact r (vaultGroupRoleName x.id s) member (wanted x.id s))
    (hw : ∀ v s, wanted v s → ∃ x ∈ c.vaults, x.id = v) (v : Uuid) (s : Scope) :
    Exact r (vaultGroupRoleName v s) member (wanted v s) := by
  by_cases hv : ∃ x ∈ c.vaults, x.id = v
  · obtain ⟨x, hx, rfl⟩ := hv
    exact h x hx s
  · refine ⟨fun hwanted => absurd (hw v s hwanted) hv, ?_⟩
    rintro ⟨m, hm, hgroup, -⟩
    obtain ⟨x, hx, scope, hname⟩ := horphans m.group (r.known m hm).1 ⟨v, s, hgroup⟩
    exact absurd ⟨x, hx, (vaultGroupRoleName_inj (hname.symm.trans hgroup)).1⟩ hv

private theorem runPhase_quiet {tasks : Roles → Except PgError (List RoleTask)} {s s' : Roles × Report}
    (h : runPhase tasks s = .ok s') (hquiet : s'.2.errors = []) :
    s.2.errors = [] ∧ ∃ ts, tasks s.1 = .ok ts ∧ performAll RoleTask.run ts s.1 = .ok s'.1 := by
  obtain ⟨ts, hts, h⟩ := bind_eq_ok.mp h
  cases h
  have hreports : ∀ t ∈ ts.map RoleTask.task, t.Reports Report.errors := by
    intro t ht
    obtain ⟨task, -, rfl⟩ := List.mem_map.mp ht
    exact task.reports
  obtain ⟨hstart, hrun⟩ := performAll_of_quiet hreports s hquiet
  exact ⟨hstart, ts, hts, by rwa [performAll_map] at hrun⟩

/-- A phase leaves nothing behind that later phases do not keep. -/
theorem reconcile_projected {report : Report} (hclean : Clean r)
    (h : reconcileFromCatalog pg order sha1 c r = .ok (r', report)) (hquiet : report.errors = []) :
    Projected c r' ∧ (Confined sha1 c r → Confined sha1 c r') := by
  obtain ⟨r₀, hauth, h⟩ := bind_eq_ok.mp h
  obtain ⟨⟨r₁, p₁⟩, h₁, h⟩ := performAll_cons.mp h
  obtain ⟨⟨r₂, p₂⟩, h₂, h⟩ := performAll_cons.mp h
  obtain ⟨⟨r₃, p₃⟩, h₃, h⟩ := performAll_cons.mp h
  obtain ⟨⟨r₄, p₄⟩, h₄, h⟩ := performAll_cons.mp h
  obtain ⟨⟨r₅, p₅⟩, h₅, h⟩ := performAll_cons.mp h
  obtain ⟨⟨r₆, p₆⟩, h₆, h⟩ := performAll_cons.mp h
  obtain ⟨⟨r₇, p₇⟩, h₇, h⟩ := performAll_cons.mp h
  cases h
  obtain ⟨q₆, ts₇, ht₇, h₇⟩ := runPhase_quiet h₇ hquiet
  obtain ⟨q₅, ts₆, ht₆, h₆⟩ := runPhase_quiet h₆ q₆
  obtain ⟨q₄, ts₅, ht₅, h₅⟩ := runPhase_quiet h₅ q₅
  obtain ⟨q₃, ts₄, ht₄, h₄⟩ := runPhase_quiet h₄ q₄
  obtain ⟨q₂, ts₃, ht₃, h₃⟩ := runPhase_quiet h₃ q₃
  obtain ⟨q₁, ts₂, ht₂, h₂⟩ := runPhase_quiet h₂ q₂
  obtain ⟨-, ts₁, ht₁, h₁⟩ := runPhase_quiet h₁ q₁
  cases ht₁
  cases ht₂
  cases ht₄
  cases ht₅
  cases ht₆
  cases ht₇
  have hc₀ := createRoleIfMissing_spec hauth
  have hclean₀ := hc₀.clean hclean
  have hc₁ := userRoles_phase h₁ hclean₀
  obtain ⟨hc₂, horphans, hhier⟩ := vaultRoles_phase h₂ (hc₁.clean hclean₀)
  obtain ⟨hc₃, husers⟩ := memberships_phase ht₃ h₃
  have hc₄ := tables_phase h₄
  obtain ⟨hc₅, hpublic⟩ := public_phase h₅
  have hclean₅ := hc₅.clean (hc₄.clean (hc₃.clean (hc₂.clean (hc₁.clean hclean₀))))
  obtain ⟨hc₆, hreadable⟩ := tokenRoles_phase h₆ hclean₅
  obtain ⟨hc₇, htokens⟩ := tokenMemberships_phase h₇
  have hs₃ : SparesGroups (.members IsUser) := sparesGroups_members (by rintro _ ⟨u, rfl⟩; exact not_isGroup_user u)
  have hs₄ : SparesGroups (.tableGrants sha1 c) := ⟨fun _ _ _ _ h => h, fun _ h => h.elim⟩
  have hs₅ : SparesGroups (.members (· = authenticatedRole)) :=
    sparesGroups_members (by rintro _ rfl; exact not_isGroup_authenticated)
  have hs₇ : SparesGroups (.touching (fun g m => IsToken m ∧ IsGroup g)) :=
    ⟨fun _ _ _ hm h => (by obtain ⟨⟨t, rfl⟩, -⟩ := h; exact not_isGroup_token t hm), fun _ h => h.elim⟩
  have horphans₇ : NoOrphans c r' :=
    ((((horphans.spared hc₃ hs₃).spared hc₄ hs₄).spared hc₅ hs₅).spared hc₆ sparesGroups_tokens).spared hc₇ hs₇
  have hnot₆ {v : Uuid} {s : Scope} {member : String} (hmember : ¬ IsToken member) :
      ¬ Effect.tokens.edges (vaultGroupRoleName v s) member :=
    fun h => h.elim (not_isToken_group v s) hmember
  refine ⟨⟨fun u hu => exact_of_catalog horphans₇ (fun x hx s => ?_) (fun v s h => h.imp (fun x hx => ⟨hx.1, hx.2.1⟩)),
    exact_of_catalog horphans₇ (fun x hx s => ?_) (fun v s h => h.imp (fun x hx => ⟨hx.1, hx.2.1⟩)),
    htokens, hreadable, horphans₇, fun v hv => ?_⟩, fun hconfined => ?_⟩
  · have hexact := ((husers x hx u hu s).changes hc₄ id).changes hc₅ (user_ne_authenticated u.id)
    exact (hexact.changes hc₆ (hnot₆ (not_isToken_user u.id))).changes hc₇ (fun h => not_isToken_user u.id h.1)
  · exact ((hpublic x hx s).changes hc₆ (hnot₆ not_isToken_authenticated)).changes hc₇ (fun h => not_isToken_authenticated h.1)
  · exact (((((hhier v hv).spared hc₃ hs₃).spared hc₄ hs₄).spared hc₅ hs₅).spared hc₆ sparesGroups_tokens).spared hc₇ hs₇
  · have hc := ((hconfined.changes hc₀ (fun _ _ h => h.elim) (fun _ h => h.elim)).changes hc₁ (fun _ _ h => h)
      (fun _ h => h.elim)).changes hc₂ (fun _ _ h => h) (fun _ h => h.elim)
    have hc := ((hc.changes hc₃ (fun _ _ h => .inl h) (fun _ h => h.elim)).changes hc₄ (fun _ _ h => h.elim)
      (fun _ h => h)).changes hc₅ (fun _ _ h => .inr (.inl h)) (fun _ h => h.elim)
    exact (hc.changes hc₆ (fun _ _ h => h.elim) (fun _ h => h.elim)).changes hc₇ (fun _ _ h => .inr (.inr (.inl h)))
      (fun _ h => h.elim)

end

end Akb.RoleSync

/-! Vault creations, grants, revocations, transfers and changes of public access: each transaction
writes the catalog, projects the change and commits both, or neither. -/
namespace Akb.RoleSync
open Akb.Library Akb.Native

namespace Catalog
variable (c : Catalog)

/-- A write to the grants, under the foreign keys of `vault_access`. -/
def setGrants (grants : Access.Tables Uuid Uuid) : Except PgError Catalog :=
  if h : ∀ a ∈ grants.access.rows, (∃ v ∈ c.vaults.rows, v.id = a.vaultId) ∧ ∃ u ∈ c.users.rows, u.id = a.userId then
    .ok { c with grants := grants, accessKnown := h }
  else .error (.refused "violates foreign key constraint")

/-- One write of the access plane. -/
def contribute (scan : Access.ScanOrder Uuid Uuid) (call : Access.Call Uuid Uuid) : Except PgError Catalog :=
  match call.run scan c.grants with
  | .ok out => c.setGrants out.2
  | .error _ => .error (.refused "contribution refused")

/-- An insert of a vault, under its unique keys and the foreign key of its owner. -/
def insertVault (v : Vault) : Except PgError Catalog :=
  if h : (∀ w ∈ c.vaults.rows, w.id ≠ v.id ∧ w.name ≠ v.name) ∧ ∀ o ∈ v.ownerId, ∃ u ∈ c.users.rows, u.id = o then
    .ok { c with
      vaults := c.vaults.insertNew v (fun w hw => (h.1 w hw).1)
      accessKnown a ha := (c.accessKnown a ha).imp_left
        (fun hv => hv.imp (fun _ hw => ⟨Table.mem_insertNew.mpr (.inr hw.1), hw.2⟩))
      ownersKnown w hw := (Table.mem_insertNew.mp hw).elim (fun he => he ▸ h.2) (fun hw => c.ownersKnown w hw) }
  else .error (.refused "violates unique constraint")

theorem updated_known {vaults : Table Vault Vault.id} {p : Vault → Bool} {f : Vault → Vault}
    {hf : ∀ v, (f v).id = v.id} {vaultId : Uuid} (h : ∃ v ∈ vaults, v.id = vaultId) :
    ∃ v ∈ vaults.updateWhere p f hf, v.id = vaultId := by
  obtain ⟨v, hv, rfl⟩ := h
  by_cases hp : p v = true
  · exact ⟨f v, Table.mem_updateWhere.mpr (.inl ⟨v, hv, hp, rfl⟩), hf v⟩
  · exact ⟨v, Table.mem_updateWhere.mpr (.inr ⟨hv, by simpa using hp⟩), rfl⟩

/-- `UPDATE vaults ... WHERE id`. -/
def updateVault (vaultId : Uuid) (f : Vault → Vault) (hf : ∀ v, (f v).id = v.id) : Except PgError Catalog :=
  if h : ∀ v ∈ (c.vaults.updateWhere (fun v => v.id = vaultId) f hf).rows, ∀ o ∈ v.ownerId,
      ∃ u ∈ c.users.rows, u.id = o then
    .ok { c with
      vaults := c.vaults.updateWhere (fun v => v.id = vaultId) f hf
      accessKnown a ha := (c.accessKnown a ha).imp_left updated_known
      ownersKnown := h }
  else .error (.refused "violates foreign key constraint")

def vaultNamed (name : String) : Except PgError Vault :=
  found (c.vaults.rows.find? (fun v => v.name = name)) (.refused "vault not found")

end Catalog

def Vault.withOwner (owner : Uuid) (v : Vault) : Vault := { v with ownerId := some owner }

def Vault.withPublicAccess (level : String) (v : Vault) : Vault := { v with publicAccess := some level }

def validatePublicAccess (level : String) : Except PgError String :=
  if level ∈ ["none", "reader", "writer"] then .ok level else .error (.refused "invalid public_access")

/-- The operations, as their authorized callers invoke them; `tick` is the passage of time. -/
inductive Event where
  | createVault (id : Uuid) (name : String) (ownerId : Option Uuid) (publicAccess : String)
  | grantAccess (scan : Access.ScanOrder Uuid Uuid) (vaultName : String) (target : Uuid) (role sourceKey : String)
      (grantedBy : Option Uuid) (revision : Option Int)
  | revokeAccess (scan : Access.ScanOrder Uuid Uuid) (vaultName : String) (target : Uuid) (sourceKey : Option String)
      (revision : Option Int)
  | transferOwnership (scan scan' : Access.ScanOrder Uuid Uuid) (vaultName : String) (newOwner : Uuid)
  | setPublicAccess (vaultName level : String)
  | tick (elapsed : Nat)

section
variable (pg : Server) (order : SetOrder)

def createVault (id : Uuid) (name : String) (ownerId : Option Uuid) (publicAccess : String) (c : Catalog) (r : Roles) :
    Except PgError (Catalog × Roles) := do
  let level ← validatePublicAccess publicAccess
  let c ← c.insertVault ⟨id, name, ownerId, some level⟩
  let r ← onVaultCreateInConn pg order c id ownerId r
  let r ← onPublicAccessChangeInConn pg id level r
  return (c, r)

def grantAccess (scan : Access.ScanOrder Uuid Uuid) (vaultName : String) (target : Uuid) (role sourceKey : String)
    (grantedBy : Option Uuid) (revision : Option Int) (c : Catalog) (r : Roles) : Except PgError (Catalog × Roles) := do
  let v ← c.vaultNamed vaultName
  let _ ← found (c.users.get? target) (.refused "user not found")
  let c ← c.contribute scan (.apply v.id target role sourceKey grantedBy revision)
  let r ← syncVaultUserInConn pg order c v.id target r
  return (c, r)

def revokeCall (vaultId target : Uuid) (sourceKey : Option String) (revision : Option Int) : Access.Call Uuid Uuid :=
  match sourceKey with
  | none => .removeAll vaultId target
  | some key => .remove vaultId target key revision

def revokeAccess (scan : Access.ScanOrder Uuid Uuid) (vaultName : String) (target : Uuid) (sourceKey : Option String)
    (revision : Option Int) (c : Catalog) (r : Roles) : Except PgError (Catalog × Roles) := do
  let v ← c.vaultNamed vaultName
  let _ ← found (c.users.get? target) (.refused "user not found")
  refuse (v.ownerId = some target) (.refused "Cannot revoke owner's access. Use transfer_ownership instead.")
  let c ← c.contribute scan (revokeCall v.id target sourceKey revision)
  let r ← syncVaultUserInConn pg order c v.id target r
  return (c, r)

/-- A vault without an owner has nobody to keep as administrator, and the transfer fails. -/
def transferOwnership (scan scan' : Access.ScanOrder Uuid Uuid) (vaultName : String) (newOwner : Uuid) (c : Catalog)
    (r : Roles) : Except PgError (Catalog × Roles) := do
  let v ← c.vaultNamed vaultName
  let _ ← found (c.users.get? newOwner) (.refused "user not found")
  let c ← c.updateVault v.id (Vault.withOwner newOwner) (fun _ => rfl)
  let oldOwner ← found v.ownerId (.refused "null value violates not-null constraint")
  let c ← c.contribute scan (.apply v.id oldOwner "admin" Access.directSourceKey (some newOwner) none)
  let c ← c.contribute scan' (.removeAll v.id newOwner)
  let r ← syncVaultUserInConn pg order c v.id newOwner r
  let r ← syncVaultUserInConn pg order c v.id oldOwner r
  return (c, r)

def setPublicAccess (vaultName level : String) (c : Catalog) (r : Roles) : Except PgError (Catalog × Roles) := do
  let level ← validatePublicAccess level
  let v ← c.vaultNamed vaultName
  let c ← c.updateVault v.id (Vault.withPublicAccess level) (fun _ => rfl)
  let r ← onPublicAccessChangeInConn pg v.id level r
  return (c, r)

def applyEvent (event : Event) (c : Catalog) (r : Roles) : Except PgError (Catalog × Roles) :=
  match event with
  | .createVault id name ownerId publicAccess => createVault pg order id name ownerId publicAccess c r
  | .grantAccess scan vaultName target role sourceKey grantedBy revision =>
    grantAccess pg order scan vaultName target role sourceKey grantedBy revision c r
  | .revokeAccess scan vaultName target sourceKey revision =>
    revokeAccess pg order scan vaultName target sourceKey revision c r
  | .transferOwnership scan scan' vaultName newOwner => transferOwnership pg order scan scan' vaultName newOwner c r
  | .setPublicAccess vaultName level => setPublicAccess pg vaultName level c r
  | .tick elapsed => .ok ({ c with now := c.now + elapsed }, r)

end

/-- An operation as one server runs it. -/
structure Transaction where
  pg : Server
  order : SetOrder
  event : Event

/-- A failed transaction rolls back. -/
def commit (s : Catalog × Roles) (tx : Transaction) : Catalog × Roles :=
  match applyEvent tx.pg tx.order tx.event s.1 s.2 with
  | .ok s' => s'
  | .error _ => s

def commitAll (txs : List Transaction) (s : Catalog × Roles) : Catalog × Roles := txs.foldl commit s

end Akb.RoleSync
