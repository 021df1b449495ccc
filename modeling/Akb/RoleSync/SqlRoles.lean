import Akb.RoleSync.Transactions
import Mathlib.Logic.Relation

/-! The SQL roles project the catalog: exactly after a reconciliation without errors, and after every
further transaction. -/
namespace Akb.RoleSync
open Akb.Library Akb.Native

/-- The direct memberships in the group roles of vaults, for users, for everyone and for scoped tokens. -/
structure RolesExact (c : Catalog) (r : Roles) : Prop where
  users : ∀ u ∈ c.users, ∀ group, isCatalogRole group .vault = true →
    (Has r group (userRoleName u.id) ↔ ∃ v s, group = vaultGroupRoleName v s ∧ c.UserAuthority u.id v s)
  anyone : ∀ group, isCatalogRole group .vault = true →
    (Has r group authenticatedRole ↔ ∃ v s, group = vaultGroupRoleName v s ∧ c.PublicAuthority v s)
  tokens : ∀ t ∈ c.liveScopedTokens, ∀ scope, scopeOfToken t = some scope → ∀ group, isCatalogRole group .vault = true →
    (Has r group (tokenRoleName t.id) ↔ ∃ v s, group = vaultGroupRoleName v s ∧ c.TokenAuthority t v s)

/-- A member inherits the privileges of a group, through any chain of memberships. -/
def Inherits (r : Roles) : String → String → Prop :=
  Relation.ReflTransGen (fun member group => ∃ m ∈ r.members, m.member = member ∧ m.group = group ∧ m.inheritOption = true)

def HasPrivilege (r : Roles) (role table : String) (privilege : Privilege) : Prop :=
  ∃ holder, Inherits r role holder ∧ ⟨table, holder, privilege⟩ ∈ r.grants

/-- A live token reaches only tables of vaults that its scope permits, and only with privileges that its
owner's own role has too. -/
def TokensWithin (sha1 : List Char → List Char) (c : Catalog) (r : Roles) : Prop :=
  ∀ t ∈ c.liveScopedTokens, ∀ scope, scopeOfToken t = some scope → ∀ table privilege,
    HasPrivilege r (tokenRoleName t.id) table privilege →
      HasPrivilege r (userRoleName t.userId) table privilege ∧ ∃ v ∈ c.vaults, scope.permits v.name = true ∧
        ∃ row ∈ c.tables, row.vaultId = v.id ∧ table = pgTableName sha1 v.name row.name

section
variable {sha1 : List Char → List Char} {c : Catalog} {r : Roles}

private theorem Exact.of_group {member : String} {wanted : Uuid → Scope → Prop}
    (h : ∀ v s, Exact r (vaultGroupRoleName v s) member (wanted v s)) {group : String}
    (hgroup : isCatalogRole group .vault = true) :
    Has r group member ↔ ∃ v s, group = vaultGroupRoleName v s ∧ wanted v s := by
  obtain ⟨v, s, rfl⟩ := isCatalogRole_vault.mp hgroup
  rw [(h v s).iff]
  constructor
  · exact fun hw => ⟨v, s, rfl, hw⟩
  · rintro ⟨w, s', he, hw⟩
    obtain ⟨rfl, rfl⟩ := vaultGroupRoleName_inj he
    exact hw

theorem Projected.exact (h : Projected c r) : RolesExact c r where
  users u hu _ hgroup := Exact.of_group (h.users u hu) hgroup
  anyone _ hgroup := Exact.of_group h.anyone hgroup
  tokens t ht _ hscope _ hgroup := Exact.of_group (h.tokens t ht (by rw [hscope]; rfl)) hgroup

/-! ### What a token reaches -/

private theorem inherits_of_held {group member : String} (h : Held r group member) : Inherits r member group := by
  obtain ⟨m, hm, hgroup, hmember⟩ := h.present
  have hvalid := h.valid m hm hgroup hmember
  refine .single ⟨m, hm, hmember, hgroup, ?_⟩
  simp only [Membership.optionsValid, Bool.not_eq_true', Bool.or_eq_false_iff] at hvalid
  simpa using hvalid.1.2

def Scope.rank : Scope → Nat
  | .reader => 0
  | .writer => 1
  | .admin => 2

theorem Hierarchy.inherits {v : Uuid} (h : Hierarchy r v) {s s' : Scope} (hs : s'.rank ≤ s.rank) :
    Inherits r (vaultGroupRoleName v s) (vaultGroupRoleName v s') := by
  have hwriter := inherits_of_held h.writer
  have hadmin := inherits_of_held h.admin
  cases s <;> cases s'
  case reader.reader | writer.writer | admin.admin => exact .refl
  case writer.reader => exact hwriter
  case admin.writer => exact hadmin
  case admin.reader => exact hadmin.trans hwriter
  all_goals exact absurd hs (by decide)

/-- From a group of a vault only weaker groups of the vault are reached. -/
private theorem Confined.from_group (h : Confined sha1 c r) {v : Uuid} {s : Scope} {holder : String}
    (hreach : Inherits r (vaultGroupRoleName v s) holder) :
    ∃ s', holder = vaultGroupRoleName v s' ∧ s'.rank ≤ s.rank := by
  induction hreach with
  | refl => exact ⟨s, rfl, le_refl _⟩
  | tail _ hstep ih =>
    obtain ⟨s', rfl, hle⟩ := ih
    obtain ⟨m, hm, hmember, hgroup, -⟩ := hstep
    obtain ⟨w, ⟨hg, hmem⟩ | ⟨hg, hmem⟩⟩ := h.groups m hm ⟨v, s', hmember⟩
    · obtain ⟨rfl, rfl⟩ := vaultGroupRoleName_inj (hmember.symm.trans hmem)
      exact ⟨.reader, hgroup.symm.trans hg, Nat.zero_le _⟩
    · obtain ⟨rfl, rfl⟩ := vaultGroupRoleName_inj (hmember.symm.trans hmem)
      exact ⟨.writer, hgroup.symm.trans hg, (by decide : (1 : Nat) ≤ 2).trans hle⟩

theorem Projected.tokensWithin (h : Projected c r) (hc : Confined sha1 c r) : TokensWithin sha1 c r := by
  intro t ht scope hscope table privilege ⟨holder, hreach, hgrant⟩
  -- A token holds no privilege of its own, so the chain starts with a group.
  rcases Relation.ReflTransGen.cases_head hreach with rfl | ⟨group, ⟨m, hm, hmember, rfl, -⟩, hreach⟩
  · exact absurd ⟨t.id, rfl⟩ (hc.tokenPrivileges _ hgrant)
  obtain ⟨v, s, hgroup⟩ := hc.tokens m hm ⟨t.id, hmember⟩
  rw [hgroup] at hreach
  obtain ⟨s', rfl, hle⟩ := hc.from_group hreach
  obtain ⟨scope', hscope', x, hx, rfl, hpermits, hwhy⟩ :=
    (h.tokens t ht (by rw [hscope]; rfl) v s).only ⟨m, hm, hgroup, hmember⟩
  obtain rfl : scope' = scope := Option.some.inj (hscope'.symm.trans hscope)
  obtain ⟨y, hy, hid, row, hrow, hrowId, htable⟩ := hc.groupPrivileges _ hgrant x.id s' rfl
  obtain rfl := c.vaults.eq_of_key hy hx hid
  refine ⟨⟨_, ?_, hgrant⟩, y, hx, hpermits, row, hrow, hrowId, htable⟩
  have hlive := (List.mem_filter.mp ht).2
  rw [Catalog.isLive, Bool.and_eq_true, List.any_eq_true] at hlive
  obtain ⟨u, hu, hactive⟩ := hlive.2
  rw [Bool.and_eq_true, decide_eq_true_eq] at hactive
  -- The owner's own role is in the same group, or administrator of the vault.
  have howner : ∃ s'', c.UserAuthority u.id y.id s'' ∧ s'.rank ≤ s''.rank := by
    by_cases hown : y.ownerId = some t.userId
    · refine ⟨.admin, ⟨y, hx, rfl, by rw [hactive.1, if_pos hown]⟩, ?_⟩
      cases s' <;> decide
    · have hgranted := hwhy.resolve_right (fun h => hown h.1)
      exact ⟨s, ⟨y, hx, rfl, by rw [hactive.1, if_neg hown]; exact hgranted⟩, hle⟩
  obtain ⟨s'', hauthority, hle'⟩ := howner
  rw [← hactive.1]
  exact (inherits_of_held ((h.users u hu y.id s'').held hauthority)).trans ((h.hierarchy y hx).inherits hle')

end

/-- After a reconciliation that reports no error, from roles whose memberships no managed role granted,
and after any transactions: the memberships are exact, and where tokens and groups were confined to the
projection at the start, tokens stay within their scope and their owner's authority. -/
theorem roles_project_catalog {pg : Server} {order : SetOrder} {sha1 : List Char → List Char} {c : Catalog} {r r' : Roles}
    {report : Report} (hclean : Clean r) (h : reconcileFromCatalog pg order sha1 c r = .ok (r', report))
    (hquiet : report.errors = []) (txs : List Transaction) :
    RolesExact (commitAll txs (c, r')).1 (commitAll txs (c, r')).2 ∧
      (Confined sha1 c r → TokensWithin sha1 (commitAll txs (c, r')).1 (commitAll txs (c, r')).2) := by
  obtain ⟨hprojected, hconfined⟩ := reconcile_projected hclean h hquiet
  have hkept := commitAll_kept sha1 txs (c, r')
  have hfinal := hkept.projected hprojected
  exact ⟨hfinal.exact, fun hc => hfinal.tokensWithin (hkept.confined (hconfined hc))⟩

/-! ### One vault, a reader and a scoped token of the reader -/

def plainServer : Server := ⟨"postgres", by intro kind; cases kind <;> decide +kernel, fun _ _ => none⟩

def readerCatalog : Catalog where
  users := ⟨[⟨1, true⟩], by decide⟩
  vaults := ⟨[⟨1, "notes", none, none⟩], by decide⟩
  grants := ⟨.empty, ⟨[⟨1, 1, .reader, none⟩], by decide⟩⟩
  tables := [⟨1, "entries"⟩]
  tokens := ⟨[⟨5, 1, some (.ok (some ⟨["gdn-"], []⟩)), none⟩], by decide⟩
  now := 0
  accessKnown := by
    intro a ha
    obtain rfl := List.mem_singleton.mp ha
    exact ⟨⟨_, List.mem_singleton_self _, rfl⟩, _, List.mem_singleton_self _, rfl⟩
  ownersKnown := by
    intro v hv
    obtain rfl := List.mem_singleton.mp hv
    exact fun o ho => by cases ho

def noRoles : Roles := ⟨["postgres"], [], [], by simp⟩

/-- The reader's membership was granted by a token role that no token stands behind any more. -/
def orphanGrantor : Roles where
  names := ["postgres", userRoleName 1, tokenRoleName 9, vaultGroupRoleName 1 .reader]
  members := [⟨vaultGroupRoleName 1 .reader, tokenRoleName 9, "postgres", true, true, true⟩,
    ⟨vaultGroupRoleName 1 .reader, userRoleName 1, tokenRoleName 9, false, true, true⟩]
  grants := []
  known := by decide +kernel

/-- The token's role was made a member of its owner's role by hand. -/
def strayToken : Roles where
  names := ["postgres", userRoleName 1, tokenRoleName 5]
  members := [⟨userRoleName 1, tokenRoleName 5, "postgres", false, true, true⟩]
  grants := []
  known := by decide +kernel

private theorem ok_of_any {ε α : Type} {x : Except ε α} {p : α → Bool} (h : x.toOption.any p = true) :
    ∃ a, x = .ok a ∧ p a = true := by
  cases x with
  | error e => cases h
  | ok a => exact ⟨a, rfl, h⟩

private theorem reconcile_ok {r : Roles} {p : Roles → Bool}
    (h : (reconcileFromCatalog plainServer .listed id readerCatalog r).toOption.any
      (fun out => decide (out.2.errors = []) && p out.1) = true) :
    ∃ r' report, reconcileFromCatalog plainServer .listed id readerCatalog r = .ok (r', report) ∧
      report.errors = [] ∧ p r' = true := by
  obtain ⟨⟨r', report⟩, hok, hp⟩ := ok_of_any h
  obtain ⟨hquiet, hp⟩ := Bool.and_eq_true_iff.mp hp
  exact ⟨r', report, hok, of_decide_eq_true hquiet, hp⟩

private def reconciles (r : Roles) (p : Roles → Bool) : Bool :=
  (reconcileFromCatalog plainServer .listed id readerCatalog r).toOption.any
    (fun out => decide (out.2.errors = []) && p out.1)

private def readerGone (r : Roles) : Bool := !hasDirectMembership r (vaultGroupRoleName 1 .reader) (userRoleName 1)

private def tokenReaches (r : Roles) : Bool :=
  r.members.any (fun m => m.member = tokenRoleName 5 && m.group = userRoleName 1 && m.inheritOption) &&
  r.members.any (fun m => m.member = userRoleName 1 && m.group = vaultGroupRoleName 1 .reader && m.inheritOption) &&
  r.grants.any (fun g => g = ⟨pgTableName id "notes" "entries", vaultGroupRoleName 1 .reader, .select⟩)

/-- One evaluation, for the names are computed once. -/
private theorem reconcile_runs : (reconciles noRoles (fun _ => true) && reconciles orphanGrantor readerGone &&
    reconciles strayToken tokenReaches) = true := by decide +kernel

/-- From no roles at all, and after the vault has become public and its reader a writer. -/
theorem roles_project_reader_catalog :
    ∃ r' report, reconcileFromCatalog plainServer .listed id readerCatalog noRoles = .ok (r', report) ∧
      report.errors = [] ∧
      let s := commitAll [⟨plainServer, .listed, .setPublicAccess "notes" "reader"⟩,
        ⟨plainServer, .listed, .grantAccess .stored "notes" 1 "writer" "direct" none none⟩] (readerCatalog, r')
      RolesExact s.1 s.2 ∧ (Confined id readerCatalog noRoles → TokensWithin id s.1 s.2) := by
  obtain ⟨r', report, hok, hquiet, -⟩ := reconcile_ok (r := noRoles) (p := fun _ => true)
    (Bool.and_eq_true_iff.mp (Bool.and_eq_true_iff.mp reconcile_runs).1).1
  exact ⟨r', report, hok, hquiet, roles_project_catalog (fun m hm => by cases hm) hok hquiet _⟩

/-- Dropping the orphan token role takes the reader's membership along, and no error is reported; and
a token that was put into its owner's role keeps reaching a table that its scope does not permit. -/
theorem reconciliation_not_exact :
    (∃ r' report, reconcileFromCatalog plainServer .listed id readerCatalog orphanGrantor = .ok (r', report) ∧
      report.errors = [] ∧ readerCatalog.UserAuthority 1 1 .reader ∧
      ¬ Has r' (vaultGroupRoleName 1 .reader) (userRoleName 1)) ∧
    ∃ r' report, reconcileFromCatalog plainServer .listed id readerCatalog strayToken = .ok (r', report) ∧
      report.errors = [] ∧ HasPrivilege r' (tokenRoleName 5) (pgTableName id "notes" "entries") .select ∧
      (VaultScope.mk ["gdn-"] []).permits "notes" = false := by
  constructor
  · obtain ⟨r', report, hok, hquiet, hgone⟩ := reconcile_ok (r := orphanGrantor) (p := readerGone)
      (Bool.and_eq_true_iff.mp (Bool.and_eq_true_iff.mp reconcile_runs).1).2
    refine ⟨r', report, hok, hquiet, ⟨_, List.mem_singleton_self _, rfl, ?_⟩, ?_⟩
    · exact ⟨_, List.mem_singleton_self _, rfl, rfl⟩
    · rw [← hasDirectMembership_iff]
      simpa [readerGone] using hgone
  · obtain ⟨r', report, hok, hquiet, hreach⟩ := reconcile_ok (r := strayToken) (p := tokenReaches)
      (Bool.and_eq_true_iff.mp reconcile_runs).2
    simp only [tokenReaches, Bool.and_eq_true, List.any_eq_true, decide_eq_true_eq] at hreach
    obtain ⟨⟨⟨m, hm, ⟨hmember, hgroup⟩, hinherit⟩, m', hm', ⟨hmember', hgroup'⟩, hinherit'⟩, g, hg, rfl⟩ := hreach
    exact ⟨r', report, hok, hquiet, ⟨_, .tail (.single ⟨m, hm, hmember, hgroup, hinherit⟩)
      ⟨m', hm', hmember', hgroup', hinherit'⟩, hg⟩, by decide⟩

end Akb.RoleSync
