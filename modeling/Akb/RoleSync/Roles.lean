import Akb.RoleSync.Names
import Akb.Library.Fallible

/-! The role state of the PostgreSQL server, the statements that change it, and the
low-level helpers over them. -/
namespace Akb.RoleSync
open Akb.Library

/-- A row of `pg_auth_members`. -/
structure Membership where
  group : String
  member : String
  grantor : String
  adminOption : Bool
  inheritOption : Bool
  setOption : Bool
  deriving DecidableEq

inductive Privilege where
  | select
  | insert
  | update
  | delete
  | truncate
  | references
  | trigger
  deriving DecidableEq

/-- An entry of the access list of a table. -/
structure TableGrant where
  table : String
  role : String
  privilege : Privilege
  deriving DecidableEq

/-- Both ends of a membership are roles; nothing else can be stored. -/
structure Roles where
  names : List String
  members : List Membership
  grants : List TableGrant
  known : ∀ m ∈ members, m.group ∈ names ∧ m.member ∈ names

inductive Statement where
  | createRole (role : String)
  | dropOwned (role : String)
  | dropRole (role : String)
  | grant (group member : String)
  | revoke (group member : String)
  | grantTable (privileges : List Privilege) (table role : String)
  deriving DecidableEq

inductive PgError where
  | undefinedObject
  | refused (message : String)
  deriving DecidableEq

def PgError.text : PgError → String
  | .undefinedObject => "role does not exist"
  | .refused message => message

/-- The server, and the superuser that the service is logged in as, which is no role it manages. It
may turn any statement down for reasons of its own: a cycle, an unknown table, a dependent grant. -/
structure Server where
  currentUser : String
  outside : ∀ kind, isCatalogRole currentUser kind = false
  refuses : Statement → Roles → Option String

namespace Roles

def create (r : Roles) (role : String) : Roles where
  names := if role ∈ r.names then r.names else role :: r.names
  members := r.members
  grants := r.grants
  known m hm := by
    split
    · exact r.known m hm
    · exact ⟨List.mem_cons_of_mem _ (r.known m hm).1, List.mem_cons_of_mem _ (r.known m hm).2⟩

/-- What a role has been granted on tables goes, and so do the memberships it granted. -/
def disown (r : Roles) (role : String) : Roles where
  names := r.names
  members := r.members.filter (fun m => m.grantor ≠ role)
  grants := r.grants.filter (fun g => g.role ≠ role)
  known m hm := r.known m (List.mem_filter.mp hm).1

def drop (r : Roles) (role : String) : Roles where
  names := r.names.filter (fun name => name ≠ role)
  members := r.members.filter (fun m => m.group ≠ role && m.member ≠ role)
  grants := r.grants
  known m hm := by
    obtain ⟨hm, hne⟩ := List.mem_filter.mp hm
    obtain ⟨hgroup, hmember⟩ := Bool.and_eq_true_iff.mp hne
    exact ⟨List.mem_filter.mpr ⟨(r.known m hm).1, hgroup⟩, List.mem_filter.mpr ⟨(r.known m hm).2, hmember⟩⟩

def addMember (r : Roles) (m : Membership) (hm : m.group ∈ r.names ∧ m.member ∈ r.names) : Roles where
  names := r.names
  members := m :: r.members
  grants := r.grants
  known x hx := (List.mem_cons.mp hx).elim (fun h => h ▸ hm) (r.known x)

def removeMember (r : Roles) (group member grantor : String) : Roles where
  names := r.names
  members := r.members.filter (fun m => !(m.group = group && m.member = member && m.grantor = grantor))
  grants := r.grants
  known m hm := r.known m (List.mem_filter.mp hm).1

def addGrants (r : Roles) (grants : List TableGrant) : Roles := { r with grants := grants ++ r.grants }

end Roles

/-- A statement that the server accepts. A membership is granted by the service itself, without
ADMIN and with the default options; only a grant of its own can be revoked. -/
def Server.perform (pg : Server) (r : Roles) : Statement → Except PgError Roles
  | .createRole role => .ok (r.create role)
  | .dropOwned role => if role ∈ r.names then .ok (r.disown role) else .error .undefinedObject
  | .dropRole role =>
    if r.members.any (fun m => m.grantor = role && m.group ≠ role && m.member ≠ role) ||
        r.grants.any (fun g => g.role = role) then
      .error (.refused "role cannot be dropped because some objects depend on it")
    else .ok (r.drop role)
  | .grant group member =>
    if h : group ∈ r.names ∧ member ∈ r.names then
      .ok (r.addMember ⟨group, member, pg.currentUser, false, true, true⟩ h)
    else .error .undefinedObject
  | .revoke group member => .ok (r.removeMember group member pg.currentUser)
  | .grantTable privileges table role =>
    if role ∈ r.names then .ok (r.addGrants (privileges.map (fun p => ⟨table, role, p⟩)))
    else .error .undefinedObject

def Server.execute (pg : Server) (st : Statement) (r : Roles) : Except PgError Roles :=
  match pg.refuses st r with
  | some message => .error (.refused message)
  | none => pg.perform r st

namespace Server
variable (pg : Server)

def createRoleIfMissing (role : String) (r : Roles) : Except PgError Roles := pg.execute (.createRole role) r

/-- The second statement of `_drop_role_if_present`. -/
def dropRole (role : String) (r : Roles) : Except PgError Roles :=
  match pg.execute (.dropRole role) r with
  | .error .undefinedObject => .ok r
  | out => out

/-- A failure of `DROP OWNED` is only logged, unless it says that there is no such role. -/
def dropRoleIfPresent (role : String) (r : Roles) : Except PgError Roles :=
  match pg.execute (.dropOwned role) r with
  | .error .undefinedObject => .ok r
  | .error (.refused _) => pg.dropRole role r
  | .ok r' => pg.dropRole role r'

end Server

def hasDirectMembership (r : Roles) (group member : String) : Bool :=
  r.members.any (fun m => m.group = group && m.member = member)

/-- The same with `own_grant`. -/
def hasOwnMembership (pg : Server) (r : Roles) (group member : String) : Bool :=
  r.members.any (fun m => m.group = group && m.member = member && m.grantor = pg.currentUser)

def Membership.optionsValid (m : Membership) : Bool := !(m.adminOption || !m.inheritOption || !m.setOption)

def membershipOptionsValid (r : Roles) (group member : String) : Bool :=
  !r.members.any (fun m => m.group = group && m.member = member && !m.optionsValid)

namespace Server
variable (pg : Server)

def grantMembership (group member : String) (r : Roles) : Except PgError Roles :=
  if !hasDirectMembership r group member then pg.execute (.grant group member) r
  else if !membershipOptionsValid r group member then
    .error (.refused "membership options differ from catalog authority")
  else .ok r

def revokeMembershipIfPresent (group member : String) (r : Roles) : Except PgError Roles :=
  if hasOwnMembership pg r group member then pg.execute (.revoke group member) r else .ok r

def revokeMembershipStrict (group member : String) (r : Roles) : Except PgError Roles := do
  let r ← pg.revokeMembershipIfPresent group member r
  refuse (hasDirectMembership r group member = true) (.refused "membership remains under another grantor")
  return r

/-- `_grant_table`. -/
def grantTable (vaultId : Native.Uuid) (table : String) (r : Roles) : Except PgError Roles := do
  let r ← pg.execute (.grantTable [.select] table (vaultGroupRoleName vaultId .reader)) r
  let r ← pg.execute (.grantTable [.select, .insert, .update, .delete] table (vaultGroupRoleName vaultId .writer)) r
  pg.execute (.grantTable [.select, .insert, .update, .delete, .truncate, .references, .trigger] table
    (vaultGroupRoleName vaultId .admin)) r

end Server

/-! ### What the helpers leave -/

/-- The membership is there, and with the options of the projection. -/
structure Held (r : Roles) (group member : String) : Prop where
  present : ∃ m ∈ r.members, m.group = group ∧ m.member = member
  valid : ∀ m ∈ r.members, m.group = group → m.member = member → m.optionsValid = true

def Has (r : Roles) (group member : String) : Prop := ∃ m ∈ r.members, m.group = group ∧ m.member = member

theorem hasDirectMembership_iff {r : Roles} {group member : String} :
    hasDirectMembership r group member = true ↔ Has r group member := by
  simp [hasDirectMembership, Has, List.any_eq_true]

/-- What a step may touch: memberships, the memberships it may add, new role names and new table
privileges. -/
structure Effect where
  edges : String → String → Prop
  adds : String → String → Prop
  names : String → Prop
  tables : TableGrant → Prop

def Effect.touching (edges : String → String → Prop) : Effect := ⟨edges, edges, fun _ => False, fun _ => False⟩

/-- Only one membership. -/
def Effect.edge (group member : String) : Effect := .touching (fun g m => g = group ∧ m = member)

def Effect.named (names : String → Prop) : Effect := ⟨fun _ _ => False, fun _ _ => False, names, fun _ => False⟩

/-- Only the memberships with such a role at one end, and none is added. -/
def Effect.ends (roles : String → Prop) : Effect :=
  ⟨fun g m => roles g ∨ roles m, fun _ _ => False, fun _ => False, fun _ => False⟩

structure Effect.Within (e e' : Effect) : Prop where
  edges : ∀ g m, e.edges g m → e'.edges g m
  adds : ∀ g m, e.adds g m → e'.adds g m
  names : ∀ name, e.names name → e'.names name
  tables : ∀ g, e.tables g → e'.tables g

theorem Effect.Within.touching {edges edges' : String → String → Prop} (h : ∀ g m, edges g m → edges' g m) :
    (Effect.touching edges).Within (.touching edges') := ⟨h, h, fun _ h => h, fun _ h => h⟩

theorem Effect.Within.named {names names' : String → Prop} (h : ∀ name, names name → names' name) :
    (Effect.named names).Within (.named names') := ⟨fun _ _ h => h, fun _ _ h => h, h, fun _ h => h⟩

theorem Effect.Within.ends {roles roles' : String → Prop} (h : ∀ name, roles name → roles' name) :
    (Effect.ends roles).Within (.ends roles') :=
  ⟨fun g m => Or.imp (h g) (h m), fun _ _ h => h, fun _ h => h, fun _ h => h⟩

/-- Nothing outside the effect differs, and a new membership was granted by the service. -/
structure Changes (pg : Server) (e : Effect) (r r' : Roles) : Prop where
  members : ∀ m, ¬ e.edges m.group m.member → (m ∈ r'.members ↔ m ∈ r.members)
  added : ∀ m ∈ r'.members, m ∈ r.members ∨ (m.grantor = pg.currentUser ∧ e.adds m.group m.member)
  names : ∀ name ∈ r'.names, name ∈ r.names ∨ e.names name
  grants : ∀ g ∈ r'.grants, g ∈ r.grants ∨ e.tables g

section
variable {pg : Server} {r r' r'' : Roles} {e e' : Effect}

theorem Changes.refl : Changes pg e r r :=
  ⟨fun _ _ => Iff.rfl, fun _ h => .inl h, fun _ h => .inl h, fun _ h => .inl h⟩

theorem Changes.mono (h : Changes pg e r r') (hw : e.Within e') : Changes pg e' r r' :=
  ⟨fun m hm => h.members m (fun he => hm (hw.edges _ _ he)),
    fun m hm => (h.added m hm).imp id (And.imp_right (hw.adds _ _)),
    fun name hn => (h.names name hn).imp id (hw.names name), fun g hg => (h.grants g hg).imp id (hw.tables g)⟩

theorem Changes.widen (h : Changes pg e r r') (e' : Effect) (hw : e.Within e') : Changes pg e' r r' := h.mono hw

theorem Changes.trans (h : Changes pg e r r') (h' : Changes pg e r' r'') : Changes pg e r r'' where
  members m hm := (h'.members m hm).trans (h.members m hm)
  added m hm := (h'.added m hm).elim (h.added m) .inr
  names name hn := (h'.names name hn).elim (h.names name) .inr
  grants g hg := (h'.grants g hg).elim (h.grants g) .inr

theorem Changes.has (h : Changes pg e r r') {group member : String} (hc : ¬ e.edges group member) :
    Has r' group member ↔ Has r group member := by
  constructor
  · rintro ⟨m, hm, rfl, rfl⟩
    exact ⟨m, (h.members m hc).mp hm, rfl, rfl⟩
  · rintro ⟨m, hm, rfl, rfl⟩
    exact ⟨m, (h.members m hc).mpr hm, rfl, rfl⟩

theorem Changes.held (h : Changes pg e r r') {group member : String} (hc : ¬ e.edges group member)
    (hh : Held r group member) : Held r' group member := by
  refine ⟨(h.has hc).mpr hh.present, fun m hm hg hmem => ?_⟩
  subst hg
  subst hmem
  exact hh.valid m ((h.members m hc).mp hm) rfl rfl

theorem execute_ok {st : Statement} (h : pg.execute st r = .ok r') : pg.perform r st = .ok r' := by
  rw [Server.execute] at h
  split at h
  · cases h
  · exact h

private theorem execute_undefined {st : Statement} (h : pg.execute st r = .error .undefinedObject) :
    pg.perform r st = .error .undefinedObject := by
  rw [Server.execute] at h
  split at h
  · cases h
  · exact h

theorem createRoleIfMissing_spec {role : String} (h : pg.createRoleIfMissing role r = .ok r') :
    Changes pg (.named (· = role)) r r' := by
  rw [Server.createRoleIfMissing] at h
  cases execute_ok h
  refine ⟨fun _ _ => Iff.rfl, fun _ h => .inl h, fun name hn => ?_, fun _ h => .inl h⟩
  simp only [Roles.create] at hn
  split at hn
  · exact .inl hn
  · exact (List.mem_cons.mp hn).symm

/-- After a grant the membership is there with valid options, and nothing else has changed. -/
theorem grantMembership_spec {group member : String} (h : pg.grantMembership group member r = .ok r') :
    Changes pg (.edge group member) r r' ∧ Held r' group member := by
  rw [Server.grantMembership] at h
  split at h
  · rename_i hnone
    have habsent : ¬ Has r group member := by
      rw [← hasDirectMembership_iff]
      simpa using hnone
    have hperform := execute_ok h
    rw [Server.perform] at hperform
    split at hperform
    · cases hperform
      refine ⟨⟨fun m hm => ?_, fun m hm => ?_, fun _ hn => .inl hn, fun _ hg => .inl hg⟩,
        ⟨_, List.mem_cons_self, rfl, rfl⟩, fun m hm hg hmem => ?_⟩
      · exact List.mem_cons.trans (or_iff_right (fun he => hm (by rw [he]; exact ⟨rfl, rfl⟩)))
      · exact (List.mem_cons.mp hm).symm.imp id (fun he => by rw [he]; exact ⟨rfl, rfl, rfl⟩)
      · rcases List.mem_cons.mp hm with rfl | hm
        · rfl
        · exact absurd ⟨m, hm, hg, hmem⟩ habsent
    · cases hperform
  · rename_i hsome
    split at h
    · cases h
    · rename_i hvalid
      cases h
      refine ⟨.refl, hasDirectMembership_iff.mp (by simpa using hsome), fun m hm hg hmem => ?_⟩
      by_contra hinvalid
      refine hvalid ?_
      rw [membershipOptionsValid, Bool.not_not, List.any_eq_true]
      exact ⟨m, hm, by simp [hg, hmem, hinvalid]⟩

/-- After a strict revocation the membership is gone, whoever granted it. -/
theorem revokeMembershipStrict_spec {group member : String} (h : pg.revokeMembershipStrict group member r = .ok r') :
    Changes pg (.edge group member) r r' ∧ ¬ Has r' group member := by
  simp only [Server.revokeMembershipStrict, bind_eq_ok, pure_eq_ok, refuse_eq_ok] at h
  obtain ⟨_, hrevoke, _, hgone, rfl⟩ := h
  refine ⟨?_, by rwa [← hasDirectMembership_iff]⟩
  rw [Server.revokeMembershipIfPresent] at hrevoke
  split at hrevoke
  · cases execute_ok hrevoke
    refine ⟨fun m hm => ?_, fun m hm => .inl (List.mem_filter.mp hm).1, fun _ hn => .inl hn, fun _ hg => .inl hg⟩
    refine List.mem_filter.trans (and_iff_left ?_)
    rw [Bool.not_eq_true', Bool.and_eq_false_iff]
    left
    by_contra hboth
    refine hm ?_
    simpa [Effect.edge, Effect.touching] using hboth
  · cases hrevoke
    exact .refl

private theorem execute_grantTable {privileges : List Privilege} {table role : String}
    (h : pg.execute (.grantTable privileges table role) r = .ok r') :
    r'.members = r.members ∧ r'.names = r.names ∧
      ∀ g ∈ r'.grants, g ∈ r.grants ∨ (g.table = table ∧ g.role = role) := by
  have hperform := execute_ok h
  rw [Server.perform] at hperform
  split at hperform
  · cases hperform
    refine ⟨rfl, rfl, fun g hg => ?_⟩
    rcases List.mem_append.mp hg with hnew | hold
    · obtain ⟨p, -, rfl⟩ := List.mem_map.mp hnew
      exact .inr ⟨rfl, rfl⟩
    · exact .inl hold
  · cases hperform

/-- Privileges of the groups of a vault on one table. -/
def Effect.tableOf (vaultId : Native.Uuid) (table : String) : Effect :=
  ⟨fun _ _ => False, fun _ _ => False, fun _ => False,
    fun g => g.table = table ∧ ∃ scope, g.role = vaultGroupRoleName vaultId scope⟩

theorem grantTable_spec {vaultId : Native.Uuid} {table : String} (h : pg.grantTable vaultId table r = .ok r') :
    Changes pg (.tableOf vaultId table) r r' := by
  simp only [Server.grantTable, bind_eq_ok] at h
  obtain ⟨r₁, h₁, r₂, h₂, h₃⟩ := h
  have hone (scope : Scope) {privileges : List Privilege} {r r' : Roles}
      (h : pg.execute (.grantTable privileges table (vaultGroupRoleName vaultId scope)) r = .ok r') :
      Changes pg (.tableOf vaultId table) r r' := by
    obtain ⟨hmembers, hnames, hgrants⟩ := execute_grantTable h
    refine ⟨fun m _ => by rw [hmembers], fun m hm => .inl (hmembers ▸ hm), fun n hn => .inl (hnames ▸ hn),
      fun g hg => ?_⟩
    exact (hgrants g hg).imp id (fun hnew => ⟨hnew.1, scope, hnew.2⟩)
  exact ((hone _ h₁).trans (hone _ h₂)).trans (hone _ h₃)

private theorem dropRole_ok {role : String} (h : pg.dropRole role r = .ok r') : r' = r.drop role := by
  rw [Server.dropRole] at h
  split at h
  · rename_i hundefined
    have hperform := execute_undefined hundefined
    rw [Server.perform] at hperform
    split at hperform
    · cases hperform
    · cases hperform
  · have hperform := execute_ok h
    rw [Server.perform] at hperform
    split at hperform
    · cases hperform
    · exact (Except.ok.inj hperform).symm

private theorem drop_changes (r : Roles) (role : String) : Changes pg (.ends (· = role)) r (r.drop role) where
  members m hm := List.mem_filter.trans (and_iff_left (by simpa [Effect.ends] using hm))
  added m hm := .inl (List.mem_filter.mp hm).1
  names name hn := .inl (List.mem_filter.mp hn).1
  grants g hg := .inl hg

/-- Where the role has granted no membership, only its own go. -/
private theorem disown_changes {r : Roles} {role : String} (hgrantor : ∀ m ∈ r.members, m.grantor ≠ role) :
    Changes pg (.ends (· = role)) r (r.disown role) where
  members m _ := List.mem_filter.trans (and_iff_left_of_imp (fun hm => by simpa using hgrantor m hm))
  added m hm := .inl (List.mem_filter.mp hm).1
  names name hn := .inl hn
  grants g hg := .inl (List.mem_filter.mp hg).1

private theorem drop_gone (r : Roles) (role : String) : role ∉ (r.drop role).names := by
  intro h
  simpa using (List.mem_filter.mp h).2

private theorem execute_dropOwned {role : String} (h : pg.execute (.dropOwned role) r = .ok r') :
    r' = r.disown role := by
  have hperform := execute_ok h
  rw [Server.perform] at hperform
  split at hperform
  · exact (Except.ok.inj hperform).symm
  · cases hperform

private theorem execute_dropOwned_undefined {role : String}
    (h : pg.execute (.dropOwned role) r = .error .undefinedObject) : role ∉ r.names := by
  have hperform := execute_undefined h
  rw [Server.perform] at hperform
  split at hperform
  · cases hperform
  · assumption

/-- A dropped role is gone with its memberships, and where it has granted none nothing else differs. -/
theorem dropRoleIfPresent_spec {role : String} (hgrantor : ∀ m ∈ r.members, m.grantor ≠ role)
    (h : pg.dropRoleIfPresent role r = .ok r') : Changes pg (.ends (· = role)) r r' ∧ role ∉ r'.names := by
  rw [Server.dropRoleIfPresent] at h
  split at h
  · rename_i hundefined
    cases h
    exact ⟨.refl, execute_dropOwned_undefined hundefined⟩
  · rw [dropRole_ok h]
    exact ⟨drop_changes r role, drop_gone r role⟩
  · rename_i owned howned
    rw [dropRole_ok h, execute_dropOwned howned]
    exact ⟨(disown_changes hgrantor).trans (drop_changes _ role), drop_gone _ role⟩

end

end Akb.RoleSync
