import Akb.RoleSync.Pending

/-! Every committed transaction leaves the roles projected. -/
namespace Akb.RoleSync
open Akb.Library Akb.Native

namespace Catalog

/-- The vault under its name, and whether the user owns it. -/
def Stands (c : Catalog) (vaultId userId : Uuid) (name : String) (owns : Bool) : Prop :=
  ∃ x ∈ c.vaults, x.id = vaultId ∧ x.name = name ∧ decide (x.ownerId = some userId) = owns

/-- Nothing that the authority of a user in a vault rests on has changed. -/
structure SameStanding (c c' : Catalog) (vaultId userId : Uuid) : Prop where
  granted : ∀ s, c'.Granted vaultId userId s ↔ c.Granted vaultId userId s
  stands : ∀ name owns, c'.Stands vaultId userId name owns ↔ c.Stands vaultId userId name owns

variable {c c' c'' : Catalog}

theorem SameStanding.trans {v u : Uuid} (h : SameStanding c c' v u) (h' : SameStanding c' c'' v u) :
    SameStanding c c'' v u :=
  ⟨fun s => (h'.granted s).trans (h.granted s), fun name owns => (h'.stands name owns).trans (h.stands name owns)⟩

theorem userAuthority_iff {v u : Uuid} {s : Scope} :
    c.UserAuthority u v s ↔ (∃ name, c.Stands v u name true) ∧ s = .admin ∨
      (∃ name, c.Stands v u name false) ∧ c.Granted v u s := by
  constructor
  · rintro ⟨x, hx, hid, hwhy⟩
    split at hwhy
    · rename_i hown
      exact .inl ⟨⟨x.name, x, hx, hid, rfl, decide_eq_true hown⟩, hwhy⟩
    · rename_i hown
      exact .inr ⟨⟨x.name, x, hx, hid, rfl, decide_eq_false hown⟩, hwhy⟩
  · rintro (⟨⟨name, x, hx, hid, -, hown⟩, hs⟩ | ⟨⟨name, x, hx, hid, -, hown⟩, hg⟩)
    · exact ⟨x, hx, hid, by rw [if_pos (of_decide_eq_true hown)]; exact hs⟩
    · exact ⟨x, hx, hid, by rw [if_neg (of_decide_eq_false hown)]; exact hg⟩

theorem tokenAuthority_iff {t : Token} {v : Uuid} {s : Scope} :
    c.TokenAuthority t v s ↔ ∃ scope, scopeOfToken t = some scope ∧ ∃ name owns, scope.permits name = true ∧
      c.Stands v t.userId name owns ∧ (c.Granted v t.userId s ∨ (owns = true ∧ s = .admin)) := by
  constructor
  · rintro ⟨scope, hscope, x, hx, hid, hpermits, hwhy⟩
    exact ⟨scope, hscope, x.name, _, hpermits, ⟨x, hx, hid, rfl, rfl⟩, hwhy.imp id (And.imp_left decide_eq_true)⟩
  · rintro ⟨scope, hscope, name, owns, hpermits, ⟨x, hx, hid, rfl, hown⟩, hwhy⟩
    refine ⟨scope, hscope, x, hx, hid, hpermits, hwhy.imp id (And.imp_left (fun ho => ?_))⟩
    rw [ho] at hown
    exact of_decide_eq_true hown

theorem SameStanding.user {v u : Uuid} (h : SameStanding c c' v u) (s : Scope) :
    c'.UserAuthority u v s ↔ c.UserAuthority u v s := by
  rw [userAuthority_iff, userAuthority_iff, h.granted s]
  simp only [h.stands]

theorem SameStanding.token {t : Token} {v : Uuid} (h : SameStanding c c' v t.userId) (s : Scope) :
    c'.TokenAuthority t v s ↔ c.TokenAuthority t v s := by
  rw [tokenAuthority_iff, tokenAuthority_iff]
  simp only [h.stands, h.granted]

/-- The parts of the catalog that no transaction on vaults writes. -/
structure Frame (c c' : Catalog) : Prop where
  users : c'.users = c.users
  tokens : c'.tokens = c.tokens
  now : c'.now = c.now
  tables : c'.tables = c.tables
  named : ∀ x ∈ c.vaults, ∃ y ∈ c'.vaults, y.id = x.id ∧ y.name = x.name

theorem Frame.trans (h : Frame c c') (h' : Frame c' c'') : Frame c c'' where
  users := h'.users.trans h.users
  tokens := h'.tokens.trans h.tokens
  now := h'.now.trans h.now
  tables := h'.tables.trans h.tables
  named x hx := by
    obtain ⟨y, hy, hid, hname⟩ := h.named x hx
    obtain ⟨z, hz, hid', hname'⟩ := h'.named y hy
    exact ⟨z, hz, hid'.trans hid, hname'.trans hname⟩

theorem Frame.live (h : Frame c c') : c'.liveScopedTokens = c.liveScopedTokens := by
  have hlive : c'.isLive = c.isLive := by
    funext t
    rw [isLive, isLive, h.now, h.users]
  rw [liveScopedTokens, liveScopedTokens, h.tokens, hlive]

/-- A write of the access plane changes the standing of its own pair only. -/
theorem contribute_spec {scan : Access.ScanOrder Uuid Uuid} {call : Access.Call Uuid Uuid}
    (h : c.contribute scan call = .ok c') :
    Frame c c' ∧ c'.vaults = c.vaults ∧ ∀ v u, (v, u) ≠ call.pair → SameStanding c c' v u := by
  rw [contribute] at h
  split at h
  · rename_i out hrun
    rw [setGrants] at h
    split at h
    · cases h
      obtain ⟨outcome, t'⟩ := out
      refine ⟨⟨rfl, rfl, rfl, rfl, fun x hx => ⟨x, hx, rfl, rfl⟩⟩, rfl, fun v u hne => ⟨fun s => ?_, fun _ _ => Iff.rfl⟩⟩
      have hrows : ∀ a : Access.AccessRow Uuid Uuid, a.pair = (v, u) → (a ∈ t'.access ↔ a ∈ c.grants.access) := by
        intro a ha
        obtain ⟨-, ⟨hsame, -⟩ | ⟨t, haccess, -, hmaterialize⟩⟩ := Access.call_cases hrun
        · rw [hsame]
        · have hother := (Access.materialize_spec scan t call.pair.1 call.pair.2).2.1 a (by rw [ha]; exact hne)
          rw [← hmaterialize, haccess] at hother
          exact hother
      constructor
      · rintro ⟨a, hm, hp, hs⟩
        exact ⟨a, (hrows a hp).mp hm, hp, hs⟩
      · rintro ⟨a, hm, hp, hs⟩
        exact ⟨a, (hrows a hp).mpr hm, hp, hs⟩
    · cases h
  · cases h

theorem updateVault_frame {vaultId : Uuid} {f : Vault → Vault} {hf : ∀ v, (f v).id = v.id}
    (h : c.updateVault vaultId f hf = .ok c') (hname : ∀ v, (f v).name = v.name) :
    Frame c c' ∧ c'.vaults = c.vaults.updateWhere (fun v => v.id = vaultId) f hf ∧ c'.grants = c.grants := by
  rw [updateVault] at h
  split at h
  · cases h
    refine ⟨⟨rfl, rfl, rfl, rfl, fun x hx => ?_⟩, rfl, rfl⟩
    by_cases hp : x.id = vaultId
    · have hmem : f x ∈ c.vaults.updateWhere (fun v => v.id = vaultId) f hf :=
        Table.mem_updateWhere.mpr (.inl ⟨x, hx, decide_eq_true hp, rfl⟩)
      exact ⟨f x, hmem, hf x, hname x⟩
    · have hmem : x ∈ c.vaults.updateWhere (fun v => v.id = vaultId) f hf :=
        Table.mem_updateWhere.mpr (.inr ⟨hx, decide_eq_false hp⟩)
      exact ⟨x, hmem, rfl, rfl⟩
  · cases h

/-- A user keeps the standing in a vault that is written without a change to the user's ownership. -/
theorem updateVault_standing {vaultId : Uuid} {f : Vault → Vault} {hf : ∀ v, (f v).id = v.id}
    (h : c.updateVault vaultId f hf = .ok c') (hname : ∀ v, (f v).name = v.name) {v u : Uuid}
    (howner : ∀ x ∈ c.vaults, x.id = vaultId → x.id = v → ((f x).ownerId = some u ↔ x.ownerId = some u)) :
    SameStanding c c' v u := by
  obtain ⟨-, hvaults, hgrants⟩ := updateVault_frame h hname
  refine ⟨fun s => by rw [Granted, Granted, hgrants], fun name owns => ?_⟩
  rw [Stands, Stands, hvaults]
  constructor
  · rintro ⟨y, hy, hid, hn, hown⟩
    rcases Table.mem_updateWhere.mp hy with ⟨x, hx, hp, rfl⟩ | ⟨hy, -⟩
    · have hxid := (hf x).symm.trans hid
      refine ⟨x, hx, hxid, (hname x).symm.trans hn, ?_⟩
      rw [← hown]
      exact decide_eq_decide.mpr (howner x hx (of_decide_eq_true hp) hxid).symm
    · exact ⟨y, hy, hid, hn, hown⟩
  · rintro ⟨x, hx, hid, hn, hown⟩
    by_cases hp : x.id = vaultId
    · refine ⟨f x, Table.mem_updateWhere.mpr (.inl ⟨x, hx, decide_eq_true hp, rfl⟩), (hf x).trans hid, (hname x).trans hn, ?_⟩
      rw [← hown]
      exact decide_eq_decide.mpr (howner x hx hp hid)
    · exact ⟨x, Table.mem_updateWhere.mpr (.inr ⟨hx, decide_eq_false hp⟩), hid, hn, hown⟩

end Catalog

section
variable {pg : Server} {order : SetOrder} {sha1 : List Char → List Char} {c c' : Catalog} {r r' : Roles} {p : Pending}

/-- After a write of the catalog, what kept its authority is still projected. -/
theorem Projected.written (h : Projected c r) (hf : Catalog.Frame c c')
    (hknown : ∀ y ∈ c'.vaults, ¬ p.groups y.id → ∃ x ∈ c.vaults, x.id = y.id)
    (hu : ∀ v u s, ¬ p.pairs v u → (c'.UserAuthority u v s ↔ c.UserAuthority u v s))
    (hl : ∀ v s, ¬ p.levels v → (c'.PublicAuthority v s ↔ c.PublicAuthority v s))
    (ht : ∀ t : Token, ∀ v s, ¬ p.owners t.userId → (c'.TokenAuthority t v s ↔ c.TokenAuthority t v s)) :
    ProjectedBut c' r p where
  users u hm v s hp := (h.users u (hf.users ▸ hm) v s).congr (hu v u.id s hp).symm
  anyone v s hp := (h.anyone v s).congr (hl v s hp).symm
  tokens t hm hs hp v s := (h.tokens t (hf.live ▸ hm) hs v s).congr (ht t v s hp).symm
  readable t hm := h.readable t (hf.live ▸ hm)
  noOrphans name hname hgroup := by
    obtain ⟨x, hx, s, rfl⟩ := h.noOrphans name hname hgroup
    obtain ⟨y, hy, hid, -⟩ := hf.named x hx
    exact ⟨y, hy, s, by rw [hid]⟩
  hierarchy y hy hp := by
    obtain ⟨x, hx, hid⟩ := hknown y hy hp
    rw [← hid]
    exact h.hierarchy x hx

/-- A write that leaves every standing outside some pairs, the levels and the set of vaults. -/
theorem Projected.rewritten (h : Projected c r) (pairs : Uuid → Uuid → Prop) (levels : Uuid → Prop)
    (hf : Catalog.Frame c c') (hknown : ∀ y ∈ c'.vaults, ∃ x ∈ c.vaults, x.id = y.id)
    (hstanding : ∀ v u, ¬ pairs v u → Catalog.SameStanding c c' v u)
    (hl : ∀ v s, ¬ levels v → (c'.PublicAuthority v s ↔ c.PublicAuthority v s)) :
    ProjectedBut c' r ⟨pairs, fun u => ∃ v, pairs v u, levels, fun _ => False⟩ :=
  h.written hf (fun y hy _ => hknown y hy) (fun v u s hp => (hstanding v u hp).user s) hl
    (fun t v s hp => (hstanding v t.userId (fun hpair => hp ⟨v, hpair⟩)).token s)

theorem Confined.written (h : Confined sha1 c r) (hf : Catalog.Frame c c') : Confined sha1 c' r where
  tokens := h.tokens
  groups := h.groups
  tokenPrivileges := h.tokenPrivileges
  groupPrivileges g hg v s hrole := by
    obtain ⟨x, hx, rfl, row, hrow, hid, htable⟩ := h.groupPrivileges g hg v s hrole
    obtain ⟨y, hy, hyid, hyname⟩ := hf.named x hx
    exact ⟨y, hy, hyid, row, hf.tables ▸ hrow, hid, by rw [hyname]; exact htable⟩

theorem Confined.sync {v u : Uuid} (h : Confined sha1 c r) (hc : Changes pg (.sync c v u) r r') : Confined sha1 c r' := by
  refine h.changes hc (fun g m he => ?_) (fun _ h => h.elim)
  rcases he with ⟨hm, -⟩ | ⟨⟨t, -, hm⟩, hg⟩
  · exact .inl ⟨u, hm⟩
  · exact .inr (.inr (.inl ⟨⟨t.id, hm⟩, hg⟩))

theorem Confined.level {v : Uuid} (h : Confined sha1 c r) (hc : Changes pg (.level v) r r') : Confined sha1 c r' :=
  h.changes hc (fun _ _ he => .inr (.inl he.1)) (fun _ h => h.elim)

theorem vaultNamed_mem {name : String} {v : Vault} (h : c.vaultNamed name = .ok v) : v ∈ c.vaults :=
  List.mem_of_find?_eq_some (found_eq_ok.mp h)

/-- What a transaction has to keep. -/
structure Kept (sha1 : List Char → List Char) (c : Catalog) (r : Roles) (c' : Catalog) (r' : Roles) : Prop where
  projected : Projected c r → Projected c' r'
  confined : Confined sha1 c r → Confined sha1 c' r'

/-- A write of the access plane followed by the hook of its pair. -/
private theorem contribute_kept {scan : Access.ScanOrder Uuid Uuid} {call : Access.Call Uuid Uuid} {v : Vault}
    (hv : v ∈ c.vaults) {u : User} (hu : u ∈ c.users) (hpair : call.pair = (v.id, u.id))
    (hwrite : c.contribute scan call = .ok c') (hsync : syncVaultUserInConn pg order c' v.id u.id r = .ok r') :
    Kept sha1 c r c' r' := by
  obtain ⟨hframe, hvaults, hstanding⟩ := Catalog.contribute_spec hwrite
  have hv' : v ∈ c'.vaults := hvaults ▸ hv
  have hu' : u ∈ c'.users := hframe.users ▸ hu
  refine ⟨fun h => ?_, fun h => (h.written hframe).sync (syncVaultUserInConn_spec hv' hu' hsync).1⟩
  have hbut := h.rewritten (fun w x => w = v.id ∧ x = u.id) (fun _ => False) hframe
    (fun y hy => ⟨y, hvaults ▸ hy, rfl⟩)
    (fun w x hne => hstanding w x (fun he => hne (Prod.mk.inj (he.trans hpair))))
    (fun w s _ => by rw [Catalog.PublicAuthority, Catalog.PublicAuthority, hvaults])
  exact (hbut.sync hv' hu' hsync).done (fun w x hp => hp.2 hp.1) (fun x hp => hp.1.elim (fun _ hw => hp.2 hw.2))
    (fun _ hp => hp) (fun _ hp => hp)

theorem grantAccess_kept {scan : Access.ScanOrder Uuid Uuid} {vaultName : String} {target : Uuid} {role sourceKey : String}
    {grantedBy : Option Uuid} {revision : Option Int}
    (h : grantAccess pg order scan vaultName target role sourceKey grantedBy revision c r = .ok (c', r')) :
    Kept sha1 c r c' r' := by
  simp only [grantAccess, bind_eq_ok, pure_eq_ok] at h
  obtain ⟨v, hv, u, hu, c₁, hwrite, r₁, hsync, he⟩ := h
  cases he
  obtain ⟨hmem, rfl⟩ := Table.mem_of_get? (found_eq_ok.mp hu)
  exact contribute_kept (vaultNamed_mem hv) hmem rfl hwrite hsync

theorem revokeAccess_kept {scan : Access.ScanOrder Uuid Uuid} {vaultName : String} {target : Uuid}
    {sourceKey : Option String} {revision : Option Int}
    (h : revokeAccess pg order scan vaultName target sourceKey revision c r = .ok (c', r')) : Kept sha1 c r c' r' := by
  simp only [revokeAccess, bind_eq_ok, pure_eq_ok] at h
  obtain ⟨v, hv, u, hu, _, -, c₁, hwrite, r₁, hsync, he⟩ := h
  cases he
  obtain ⟨hmem, rfl⟩ := Table.mem_of_get? (found_eq_ok.mp hu)
  refine contribute_kept (vaultNamed_mem hv) hmem ?_ hwrite hsync
  cases sourceKey with
  | none => rfl
  | some key => rfl

theorem publicAuthority_congr {vaultId : Uuid} {f : Vault → Vault} {hf : ∀ v, (f v).id = v.id}
    (hvaults : c'.vaults = c.vaults.updateWhere (fun v => v.id = vaultId) f hf) {v : Uuid}
    (hpublic : v = vaultId → ∀ x : Vault, (f x).publicAccess = x.publicAccess) (s : Scope) :
    c'.PublicAuthority v s ↔ c.PublicAuthority v s := by
  rw [Catalog.PublicAuthority, Catalog.PublicAuthority, hvaults]
  constructor
  · rintro ⟨y, hy, hid, hs⟩
    rcases Table.mem_updateWhere.mp hy with ⟨x, hx, hp, rfl⟩ | ⟨hy, -⟩
    · have hxid := (hf x).symm.trans hid
      rw [hpublic (hxid.symm.trans (of_decide_eq_true hp))] at hs
      exact ⟨x, hx, hxid, hs⟩
    · exact ⟨y, hy, hid, hs⟩
  · rintro ⟨x, hx, hid, hs⟩
    by_cases hp : x.id = vaultId
    · refine ⟨f x, Table.mem_updateWhere.mpr (.inl ⟨x, hx, decide_eq_true hp, rfl⟩), (hf x).trans hid, ?_⟩
      rw [hpublic (hid.symm.trans hp)]
      exact hs
    · exact ⟨x, Table.mem_updateWhere.mpr (.inr ⟨hx, decide_eq_false hp⟩), hid, hs⟩

theorem updateWhere_known {vaultId : Uuid} {f : Vault → Vault} {hf : ∀ v, (f v).id = v.id}
    (hvaults : c'.vaults = c.vaults.updateWhere (fun v => v.id = vaultId) f hf) :
    ∀ y ∈ c'.vaults, ∃ x ∈ c.vaults, x.id = y.id := by
  intro y hy
  rw [hvaults] at hy
  rcases Table.mem_updateWhere.mp hy with ⟨x, hx, -, rfl⟩ | ⟨hy, -⟩
  · exact ⟨x, hx, (hf x).symm⟩
  · exact ⟨y, hy, rfl⟩

theorem setPublicAccess_kept {vaultName level : String} (h : setPublicAccess pg vaultName level c r = .ok (c', r')) :
    Kept sha1 c r c' r' := by
  simp only [setPublicAccess, bind_eq_ok, pure_eq_ok] at h
  obtain ⟨level, -, v, hv, c₁, hwrite, r₁, hhook, he⟩ := h
  cases he
  have hv := vaultNamed_mem hv
  obtain ⟨hframe, hvaults, -⟩ := Catalog.updateVault_frame hwrite (fun _ => rfl)
  have hx : v.withPublicAccess level ∈ c'.vaults := by
    rw [hvaults]
    exact Table.mem_updateWhere.mpr (.inl ⟨v, hv, decide_eq_true rfl, rfl⟩)
  refine ⟨fun h => ?_, fun h => (h.written hframe).level (onPublicAccessChangeInConn_spec hhook).1⟩
  have hbut := h.rewritten (fun _ _ => False) (fun w => w = v.id) hframe (updateWhere_known hvaults)
    (fun w u _ => Catalog.updateVault_standing hwrite (fun _ => rfl) (fun _ _ _ _ => Iff.rfl))
    (fun w s hne => publicAuthority_congr hvaults (fun hw => absurd hw hne) s)
  exact (hbut.level (x := v.withPublicAccess level) hx rfl hhook).done (fun _ _ hp => hp)
    (fun _ hp => hp.elim (fun _ hf => hf)) (fun w hp => hp.2 hp.1) (fun _ hp => hp)

theorem transferOwnership_kept {scan scan' : Access.ScanOrder Uuid Uuid} {vaultName : String} {newOwner : Uuid}
    (h : transferOwnership pg order scan scan' vaultName newOwner c r = .ok (c', r')) : Kept sha1 c r c' r' := by
  simp only [transferOwnership, bind_eq_ok, pure_eq_ok] at h
  obtain ⟨v, hv, u, hu, c₁, hupdate, oldOwner, hold, c₂, hkeep, c₃, hclear, r₁, hnew, r₂, hprev, he⟩ := h
  cases he
  have hv := vaultNamed_mem hv
  have hold := found_eq_ok.mp hold
  obtain ⟨hmem, rfl⟩ := Table.mem_of_get? (found_eq_ok.mp hu)
  obtain ⟨o, ho, rfl⟩ := c.ownersKnown v hv oldOwner hold
  obtain ⟨hframe₁, hvaults₁, -⟩ := Catalog.updateVault_frame hupdate (fun _ => rfl)
  obtain ⟨hframe₂, hvaults₂, hstanding₂⟩ := Catalog.contribute_spec hkeep
  obtain ⟨hframe₃, hvaults₃, hstanding₃⟩ := Catalog.contribute_spec hclear
  have hframe := (hframe₁.trans hframe₂).trans hframe₃
  have hvaults := hvaults₃.trans (hvaults₂.trans hvaults₁)
  have hx : v.withOwner u.id ∈ c'.vaults := by
    rw [hvaults]
    exact Table.mem_updateWhere.mpr (.inl ⟨v, hv, decide_eq_true rfl, rfl⟩)
  have hu' : u ∈ c'.users := hframe.users ▸ hmem
  have ho' : o ∈ c'.users := hframe.users ▸ ho
  refine ⟨fun h => ?_, fun h => ((h.written hframe).sync (syncVaultUserInConn_spec hx hu' hnew).1).sync
    (syncVaultUserInConn_spec hx ho' hprev).1⟩
  have hbut := h.rewritten (fun w x => w = v.id ∧ (x = u.id ∨ x = o.id)) (fun _ => False) hframe
    (updateWhere_known hvaults) (fun w x hne => ?_)
    (fun w s _ => publicAuthority_congr hvaults (fun _ _ => rfl) s)
  · refine ((hbut.sync hx hu' hnew).sync hx ho' hprev).done ?_ ?_ (fun _ hp => hp) (fun _ hp => hp)
    · rintro w x ⟨⟨⟨rfl, rfl | rfl⟩, hnotNew⟩, hnotOld⟩
      · exact hnotNew ⟨rfl, rfl⟩
      · exact hnotOld ⟨rfl, rfl⟩
    · rintro x ⟨⟨⟨w, rfl, rfl | rfl⟩, hnotNew⟩, hnotOld⟩
      · exact hnotNew rfl
      · exact hnotOld rfl
  · refine ((Catalog.updateVault_standing hupdate (fun _ => rfl) (fun y hy hid hw => ?_)).trans
      (hstanding₂ w x (fun he => ?_))).trans (hstanding₃ w x (fun he => ?_))
    · obtain rfl := c.vaults.eq_of_key hy hv hid
      have hnot : x ≠ u.id ∧ x ≠ o.id := not_or.mp (fun hx => hne ⟨hw.symm, hx⟩)
      rw [hold]
      exact ⟨fun he => absurd (Option.some.inj he).symm hnot.1, fun he => absurd (Option.some.inj he).symm hnot.2⟩
    · exact hne ⟨(Prod.mk.inj he).1, .inr (Prod.mk.inj he).2⟩
    · exact hne ⟨(Prod.mk.inj he).1, .inl (Prod.mk.inj he).2⟩

private theorem insertVault_ok {x : Vault} (h : c.insertVault x = .ok c') :
    Catalog.Frame c c' ∧ c'.grants = c.grants ∧ (∀ w ∈ c.vaults, w.id ≠ x.id) ∧
      ∀ y, y ∈ c'.vaults ↔ y = x ∨ y ∈ c.vaults := by
  rw [Catalog.insertVault] at h
  split at h
  · rename_i hnew
    cases h
    have hfresh : ∀ w ∈ c.vaults, w.id ≠ x.id := fun w hw => (hnew.1 w hw).1
    have hmem (y : Vault) : y ∈ c.vaults.insertNew x hfresh ↔ y = x ∨ y ∈ c.vaults := Table.mem_insertNew
    exact ⟨⟨rfl, rfl, rfl, rfl, fun y hy => ⟨y, (hmem y).mpr (.inr hy), rfl, rfl⟩⟩, rfl, hfresh, hmem⟩
  · cases h

/-- The insert of a vault leaves to the hooks what concerns the vault itself and its owner. -/
private theorem Projected.inserted {x : Vault} (h : Projected c r) (hwrite : c.insertVault x = .ok c') :
    ProjectedBut c' r ⟨fun v u => v = x.id ∧ x.ownerId = some u, fun u => x.ownerId = some u, fun v => v = x.id,
      fun v => v = x.id⟩ := by
  obtain ⟨hframe, hgrants, hnew, hmem⟩ := insertVault_ok hwrite
  have hungranted (u : Uuid) (s : Scope) : ¬ c.Granted x.id u s := by
    rintro ⟨a, ha, hpair, -⟩
    obtain ⟨w, hw, hid⟩ := (c.accessKnown a ha).1
    exact hnew w hw (hid.trans (Prod.mk.inj hpair).1)
  have hgranted (v u : Uuid) (s : Scope) : c'.Granted v u s ↔ c.Granted v u s := by rw [Catalog.Granted, Catalog.Granted, hgrants]
  refine h.written hframe (fun y hy hne => ?_) (fun v u s hp => ?_) (fun v s hne => ?_) (fun t v s hne => ?_)
  · exact ⟨y, ((hmem y).mp hy).resolve_left (fun he => hne (he ▸ rfl)), rfl⟩
  · constructor
    · rintro ⟨y, hy, hid, hwhy⟩
      rcases (hmem y).mp hy with rfl | hy
      · rw [if_neg (fun ho => hp ⟨hid.symm, ho⟩), hgranted, ← hid] at hwhy
        exact absurd hwhy (hungranted u s)
      · rw [hgranted] at hwhy
        exact ⟨y, hy, hid, hwhy⟩
    · rintro ⟨y, hy, hid, hwhy⟩
      exact ⟨y, (hmem y).mpr (.inr hy), hid, by rw [hgranted]; exact hwhy⟩
  · constructor
    · rintro ⟨y, hy, hid, hs⟩
      exact ⟨y, ((hmem y).mp hy).resolve_left (fun he => hne (hid.symm.trans (congrArg Vault.id he))), hid, hs⟩
    · rintro ⟨y, hy, hid, hs⟩
      exact ⟨y, (hmem y).mpr (.inr hy), hid, hs⟩
  · constructor
    · rintro ⟨scope, hscope, y, hy, hid, hpermits, hwhy⟩
      rw [hgranted] at hwhy
      rcases (hmem y).mp hy with rfl | hy
      · rcases hwhy with hg | ⟨ho, -⟩
        · exact absurd (hid ▸ hg) (hungranted t.userId s)
        · exact absurd ho hne
      · exact ⟨scope, hscope, y, hy, hid, hpermits, hwhy⟩
    · rintro ⟨scope, hscope, y, hy, hid, hpermits, hwhy⟩
      exact ⟨scope, hscope, y, (hmem y).mpr (.inr hy), hid, hpermits, by rw [hgranted]; exact hwhy⟩

theorem createVault_kept {id : Uuid} {name : String} {ownerId : Option Uuid} {publicAccess : String}
    (h : createVault pg order id name ownerId publicAccess c r = .ok (c', r')) : Kept sha1 c r c' r' := by
  simp only [createVault, bind_eq_ok, pure_eq_ok] at h
  obtain ⟨level, -, c₁, hwrite, r₁, hcreate, r₂, hhook, he⟩ := h
  cases he
  obtain ⟨hframe, -, hnew, hmem⟩ := insertVault_ok hwrite
  have hx : (⟨id, name, ownerId, some level⟩ : Vault) ∈ c'.vaults := (hmem _).mpr (.inl rfl)
  constructor
  · intro h
    have hfresh (s : Scope) : vaultGroupRoleName id s ∉ r.names := by
      intro hname
      obtain ⟨y, hy, s', he⟩ := h.noOrphans _ hname ⟨id, s, rfl⟩
      exact hnew y hy (vaultGroupRoleName_inj he).1.symm
    have hbut := (h.inserted hwrite).created hx hfresh hcreate
    refine (hbut.level hx rfl hhook).done (fun v u hp => ?_) (fun u hp => ?_) (fun v hp => ?_) (fun v hp => ?_)
    · exact hp.2 hp.1
    · exact hp.2 hp.1
    · exact hp.2 hp.1
    · exact hp.2 hp.1
  · intro h
    refine ((h.written hframe).changes (onVaultCreateInConn_spec hcreate).1 (fun g m he => ?_) (fun _ h => h.elim)).level
      (onPublicAccessChangeInConn_spec hhook).1
    rcases he with hedge | ⟨o, -, hm | ⟨⟨t, -, hm⟩, hg⟩⟩
    · exact .inr (.inr (.inr hedge))
    · exact .inl ⟨o, hm⟩
    · exact .inr (.inr (.inl ⟨⟨t.id, hm⟩, hg⟩))

/-- Time only lets tokens expire. -/
theorem tick_kept (elapsed : Nat) : Kept sha1 c r { c with now := c.now + elapsed } r := by
  have hlive : ∀ t ∈ Catalog.liveScopedTokens { c with now := c.now + elapsed }, t ∈ c.liveScopedTokens := by
    intro t ht
    obtain ⟨ht, hlive⟩ := List.mem_filter.mp ht
    refine List.mem_filter.mpr ⟨ht, ?_⟩
    simp only [Catalog.isLive, Bool.and_eq_true] at hlive ⊢
    refine ⟨⟨hlive.1.1, ?_⟩, hlive.2⟩
    cases hexpiry : t.expiresAt with
    | none => rfl
    | some expiry =>
      have hlater := hlive.1.2
      rw [hexpiry, Option.all_some, decide_eq_true_eq] at hlater
      rw [Option.all_some, decide_eq_true_eq]
      omega
  exact ⟨fun h => ⟨h.users, h.anyone, fun t ht => h.tokens t (hlive t ht), fun t ht => h.readable t (hlive t ht), h.noOrphans,
    h.hierarchy⟩, fun h => ⟨h.tokens, h.groups, h.tokenPrivileges, h.groupPrivileges⟩⟩

theorem applyEvent_kept {event : Event} (h : applyEvent pg order event c r = .ok (c', r')) : Kept sha1 c r c' r' := by
  cases event with
  | createVault => exact createVault_kept h
  | grantAccess => exact grantAccess_kept h
  | revokeAccess => exact revokeAccess_kept h
  | transferOwnership => exact transferOwnership_kept h
  | setPublicAccess => exact setPublicAccess_kept h
  | tick elapsed =>
    cases h
    exact tick_kept elapsed

/-- Whatever is committed after it, a projected state stays projected. -/
theorem commitAll_kept (sha1 : List Char → List Char) (txs : List Transaction) (s : Catalog × Roles) :
    Kept sha1 s.1 s.2 (commitAll txs s).1 (commitAll txs s).2 := by
  induction txs generalizing s with
  | nil => exact ⟨id, id⟩
  | cons tx txs ih =>
    have hstep : Kept sha1 s.1 s.2 (commit s tx).1 (commit s tx).2 := by
      rw [commit]
      split
      · rename_i s' hs'
        exact applyEvent_kept hs'
      · exact ⟨id, id⟩
    have hrest := ih (commit s tx)
    exact ⟨fun h => hrest.projected (hstep.projected h), fun h => hrest.confined (hstep.confined h)⟩

end

end Akb.RoleSync
