import Akb.Access.VaultAuthority

/-! Authority over a vault is confined: whoever does not govern it cannot change its row, and who is no
administrator of it changes nothing of it, however checks and transactions interleave. -/
namespace Akb.Access.Vaults
open Akb.Library Akb.Access

/-- Owner-level authority: the owner, an administrator of the system, or a token with a grant for every write. -/
def Governs (w : World) (r : VaultRow) (c : Caller) : Prop :=
  r.ownerId = some c.userId ∨ w.isAdmin c.userId ∨ r.policy.any (fun p => p.permits c none)

/-- Admin-level authority. -/
def Administers (w : World) (r : VaultRow) (c : Caller) : Prop :=
  Governs w r c ∨ roleLevel (some .admin) ≤ roleLevel (currentEffectiveRole w.grants r.id c.userId)

/-- Names are unique, ids are never used again, and nobody is a member as the owner. -/
structure Sound (w : World) : Prop where
  names : ∀ r ∈ w.vaults, ∀ s ∈ w.vaults, r.name = s.name → r = s
  issued : ∀ r ∈ w.vaults, r.id < w.nextVault
  members : ∀ a ∈ w.grants.access, a.role ≠ .owner

theorem sound_empty : Sound .empty := by
  constructor <;> simp [World.empty, Tables.empty]

variable {parseUuid : String → Option UserId} {w w' : World} {r v : VaultRow} {c : Caller} {name : String}

theorem findVault_eq_some (h : w.findVault name = some v) : v ∈ w.vaults ∧ v.name = name :=
  ⟨List.mem_of_find?_eq_some h, by simpa using List.find?_some h⟩

theorem findVault_eq_none (h : w.findVault name = none) : ∀ r ∈ w.vaults, r.name ≠ name := by
  intro r hr
  simpa using List.find?_eq_none.mp h r hr

/-! ### What a passed check says -/

/-- The roles give owner-level authority to nobody. -/
theorem checkRoles_ok {required : Role} {authorized : Authorized} (hs : Sound w)
    (h : checkRoles w v c required = .ok authorized) :
    required ≠ .owner ∧ (required = .admin →
      roleLevel (some .admin) ≤ roleLevel (currentEffectiveRole w.grants v.id c.userId)) := by
  have hmember : roleLevel (currentEffectiveRole w.grants v.id c.userId) ≤ roleLevel (some .admin) := by
    cases hrow : w.grants.access.get? (v.id, c.userId) with
    | none =>
      rw [currentEffectiveRole, hrow]
      exact Nat.zero_le _
    | some a =>
      have ha := hs.members a (Table.mem_of_get? hrow).1
      rw [currentEffectiveRole, hrow, Option.map_some]
      cases hrole : a.role with
      | owner => exact absurd hrole ha
      | reader | writer | admin => decide
  have hpublic : roleLevel v.publicAccess.role ≤ roleLevel (some .writer) := by
    cases v.publicAccess <;> decide
  have hlevels : roleLevel (some .writer) < roleLevel (some .admin) ∧ roleLevel (some .admin) < roleLevel (some .owner) := by
    decide
  unfold checkRoles at h
  simp only at h
  split at h
  · rename_i role hrole
    split at h
    · cases h
    · rename_i henough
      by_cases hstronger : roleLevel (currentEffectiveRole w.grants v.id c.userId) < roleLevel v.publicAccess.role
      · rw [decide_eq_true hstronger, if_pos rfl] at hrole
        rw [hrole] at hpublic
        exact ⟨by rintro rfl; omega, by rintro rfl; omega⟩
      · rw [decide_eq_false hstronger, if_neg Bool.false_ne_true] at hrole
        rw [hrole] at hmember ⊢
        exact ⟨by rintro rfl; omega, by rintro rfl; omega⟩
  · cases h

/-- A check that passes for owner or admin found that authority. -/
theorem checkVaultAccess_ok {required : Role} {allowArchived : Bool} {authorized : Authorized} (hs : Sound w)
    (h : checkVaultAccess w c name required allowArchived none = .ok authorized) :
    ∃ r ∈ w.vaults, r.name = name ∧ (required = .owner → Governs w r c) ∧ (required = .admin → Administers w r c) := by
  simp only [checkVaultAccess, bind_eq_ok, found_eq_ok] at h
  obtain ⟨v, hfind, _, _, _, _, _, _, h⟩ := h
  obtain ⟨hv, hname⟩ := findVault_eq_some hfind
  refine ⟨v, hv, hname, ?_⟩
  have hgoverns : Governs w v c → (required = .owner → Governs w v c) ∧ (required = .admin → Administers w v c) :=
    fun hg => ⟨fun _ => hg, fun _ => .inl hg⟩
  split at h
  · rename_i p hpolicy
    have hp : v.policy = some p := by
      split at hpolicy
      · exact hpolicy
      · cases hpolicy
    split at h
    · rename_i hpermits
      exact hgoverns (.inr (.inr (by rw [hp]; exact hpermits)))
    · split at h
      · rename_i hadmin
        exact hgoverns (.inr (.inl (Bool.and_eq_true_iff.mp hadmin).2))
      · cases h
  · split at h
    · rename_i hadmin
      exact hgoverns (.inr (.inl hadmin))
    · split at h
      · rename_i howner
        exact hgoverns (.inl howner)
      · obtain ⟨hnot, hlevel⟩ := checkRoles_ok hs h
        exact ⟨fun he => absurd he hnot, fun he => .inr (hlevel he)⟩

theorem authorize_ok {call : Call} {authorized : Authorized} (hs : Sound w) (h : call.authorize w c name = .ok authorized) :
    ∃ r ∈ w.vaults, r.name = name ∧ (call.required = .owner → Governs w r c) ∧ Administers w r c := by
  have hadmin {allowArchived : Bool} (h : checkVaultAccess w c name .admin allowArchived none = .ok authorized) :
      ∃ r ∈ w.vaults, r.name = name ∧ (Role.admin = .owner → Governs w r c) ∧ Administers w r c := by
    obtain ⟨r, hr, hname, -, ha⟩ := checkVaultAccess_ok hs h
    exact ⟨r, hr, hname, fun he => (by cases he), ha rfl⟩
  have howner (h : checkVaultAccess w c name .owner false none = .ok authorized) :
      ∃ r ∈ w.vaults, r.name = name ∧ (Role.owner = .owner → Governs w r c) ∧ Administers w r c := by
    obtain ⟨r, hr, hname, hg, -⟩ := checkVaultAccess_ok hs h
    exact ⟨r, hr, hname, fun _ => hg rfl, .inl (hg rfl)⟩
  cases call with
  | grant _ _ role sourceKey _ =>
    simp only [Call.authorize, bind_eq_ok] at h
    obtain ⟨_, _, _, _, h⟩ := h
    exact hadmin h
  | revoke _ _ sourceKey _ =>
    simp only [Call.authorize, bind_eq_ok, pure_eq_ok] at h
    obtain ⟨found, hfound, _, _, rfl⟩ := h
    exact hadmin hfound
  | transfer | archive | unarchive => exact howner h
  | delete => exact hadmin h

/-! ### What a transaction touches -/

/-- A change of the world that touches one vault. -/
structure Touches (w w' : World) (v : VaultRow) : Prop where
  others : ∀ r, r.id ≠ v.id → (r ∈ w'.vaults ↔ r ∈ w.vaults)
  named : ∀ r ∈ w'.vaults, r.id = v.id → r.name = v.name
  contributions : ∀ x, x.vaultId ≠ v.id → (x ∈ w'.grants.contributions ↔ x ∈ w.grants.contributions)
  access : ∀ a, a.vaultId ≠ v.id → (a ∈ w'.grants.access ↔ a ∈ w.grants.access)
  members : (∀ a ∈ w.grants.access, a.role ≠ .owner) → ∀ a ∈ w'.grants.access, a.role ≠ .owner
  nextVault : w'.nextVault = w.nextVault

theorem Touches.trans {w'' : World} (h : Touches w w' v) (h' : Touches w' w'' v) : Touches w w'' v where
  others x hx := (h'.others x hx).trans (h.others x hx)
  named := h'.named
  contributions x hx := (h'.contributions x hx).trans (h.contributions x hx)
  access a ha := (h'.access a ha).trans (h.access a ha)
  members hw := h'.members (h.members hw)
  nextVault := h'.nextVault.trans h.nextVault

/-- Updating the rows of one id that keep their name. -/
theorem touches_update {selected : VaultRow → Bool} {f : VaultRow → VaultRow} (hf : ∀ r, (f r).id = r.id)
    (hname : ∀ r, (f r).name = r.name) (hv : v ∈ w.vaults) (hselected : ∀ r ∈ w.vaults, selected r → r.id = v.id) :
    Touches w { w with vaults := w.vaults.updateWhere selected f hf } v := by
  constructor
  case others =>
    intro x hx
    rw [Table.mem_updateWhere]
    constructor
    · rintro (⟨s, hs, hsel, rfl⟩ | ⟨hx', -⟩)
      · exact absurd ((hf s).trans (hselected s hs hsel)) hx
      · exact hx'
    · intro hx'
      refine .inr ⟨hx', ?_⟩
      by_contra hsel
      exact hx (hselected x hx' (by simpa using hsel))
  case named =>
    intro x hx hid
    have hupdated : x ∈ w.vaults.updateWhere selected f hf := hx
    rcases Table.mem_updateWhere.mp hupdated with ⟨s, hs, hsel, rfl⟩ | ⟨hx', -⟩
    · rw [hname, Table.eq_of_key hs hv ((hf s).symm.trans hid)]
    · rw [Table.eq_of_key hx' hv hid]
  case contributions => exact fun _ _ => Iff.rfl
  case access => exact fun _ _ => Iff.rfl
  case members => exact fun h => h
  case nextVault => rfl

/-- A write to the contributions of a vault touches that vault, and no row of a vault. -/
theorem writeGrants_ok {scan : ScanOrder VaultId UserId} {call : Access.Call VaultId UserId}
    (hnamed : ∀ r ∈ w.vaults, r.id = v.id → r.name = v.name) (hpair : call.pair.1 = v.id)
    (h : writeGrants w scan call = .ok w') : Touches w w' v ∧ w'.vaults = w.vaults := by
  unfold writeGrants at h
  split at h
  · rename_i out grants hrun
    cases h
    rcases (call_cases hrun).2 with ⟨rfl, -⟩ | ⟨u, haccess, hcontributions, heq⟩
    · exact ⟨⟨fun _ _ => Iff.rfl, hnamed, fun _ _ => Iff.rfl, fun _ _ => Iff.rfl, fun h => h, rfl⟩, rfl⟩
    · obtain ⟨hkept, hother, hown, -⟩ := materialize_spec scan u call.pair.1 call.pair.2
      rw [← heq] at hkept hother hown
      refine ⟨⟨fun _ _ => Iff.rfl, hnamed, fun x hx => ?_, fun a ha => ?_, fun hw a ha => ?_, rfl⟩, rfl⟩
      · rw [hkept]
        exact hcontributions x fun he => hx (hpair ▸ congrArg Prod.fst he)
      · rw [hother a fun he => ha (hpair ▸ congrArg Prod.fst he), haccess]
      · by_cases hp : a.pair = (call.pair.1, call.pair.2)
        · obtain ⟨x, -, -, hrole, -⟩ := hown.basis a ha hp
          intro howner
          have hlisted := x.role.listed
          rw [hrole, howner] at hlisted
          revert hlisted
          decide
        · rw [hother a hp, haccess] at ha
          exact hw a ha
  · cases h

theorem named_of_mem (hv : v ∈ w.vaults) : ∀ r ∈ w.vaults, r.id = v.id → r.name = v.name :=
  fun r hr hid => by rw [Table.eq_of_key hr hv hid]

theorem grantAccess_ok {scan : ScanOrder VaultId UserId} {u : UserId} {username userId : Option String}
    {role sourceKey : String} {revision : Option Int}
    (h : grantAccess parseUuid w scan u name username userId role sourceKey revision = .ok w') :
    ∃ v ∈ w.vaults, v.name = name ∧ Touches w w' v ∧ w'.vaults = w.vaults := by
  simp only [grantAccess, bind_eq_ok, found_eq_ok] at h
  obtain ⟨v, hfind, _, _, _, _, target, _, h⟩ := h
  obtain ⟨hv, hname⟩ := findVault_eq_some hfind
  exact ⟨v, hv, hname, writeGrants_ok (named_of_mem hv) rfl h⟩

theorem revokeAccess_ok {scan : ScanOrder VaultId UserId} {u : UserId} {username userId sourceKey : Option String}
    {revision : Option Int} (h : revokeAccess parseUuid w scan u name username userId sourceKey revision = .ok w') :
    ∃ v ∈ w.vaults, v.name = name ∧ Touches w w' v ∧ w'.vaults = w.vaults := by
  simp only [revokeAccess, bind_eq_ok, found_eq_ok] at h
  obtain ⟨v, hfind, _, _, _, _, target, _, _, _, h⟩ := h
  obtain ⟨hv, hname⟩ := findVault_eq_some hfind
  split at h
  · exact ⟨v, hv, hname, writeGrants_ok (named_of_mem hv) rfl h⟩
  · exact ⟨v, hv, hname, writeGrants_ok (named_of_mem hv) rfl h⟩

theorem transferOwnership_ok {scan : ScanOrder VaultId UserId} {u : UserId} {source : RoleSource}
    {username userId : Option String} (h : transferOwnership parseUuid w scan u name source username userId = .ok w') :
    ∃ v ∈ w.vaults, v.name = name ∧ Touches w w' v := by
  simp only [transferOwnership, bind_eq_ok, found_eq_ok] at h
  obtain ⟨v, hfind, _, _, newOwner, _, formerOwner, _, w₁, h₁, h₂⟩ := h
  obtain ⟨hv, hname⟩ := findVault_eq_some hfind
  have hupdate : Touches w _ v := touches_update (f := fun r => { r with ownerId := some newOwner.id }) (fun _ => rfl)
    (fun _ => rfl) hv (fun r _ hr => of_decide_eq_true hr)
  obtain ⟨hfirst, -⟩ := writeGrants_ok hupdate.named rfl h₁
  obtain ⟨hsecond, -⟩ := writeGrants_ok hfirst.named rfl h₂
  exact ⟨v, hv, hname, hupdate.trans (hfirst.trans hsecond)⟩

theorem deleteVault_ok (h : deleteVault w name = .ok w') :
    ∃ v ∈ w.vaults, v.name = name ∧ Touches w w' v ∧ ∀ r ∈ w'.vaults, r ∈ w.vaults := by
  simp only [deleteVault, bind_eq_ok, found_eq_ok, pure_eq_ok] at h
  obtain ⟨v, hfind, rfl⟩ := h
  obtain ⟨hv, hname⟩ := findVault_eq_some hfind
  refine ⟨v, hv, hname, ⟨fun r hr => ?_, fun r hr hid => ?_, fun x hx => ?_, fun a ha => ?_, fun hw a ha => ?_, rfl⟩,
    fun r hr => (Table.mem_deleteWhere.mp hr).1⟩
  · simp [Table.mem_deleteWhere, hr]
  · rw [Table.eq_of_key (Table.mem_deleteWhere.mp hr).1 hv hid]
  · simp [Table.mem_deleteWhere, hx]
  · simp [Table.mem_deleteWhere, ha]
  · exact hw a (Table.mem_deleteWhere.mp ha).1

/-! ### What a step does -/

theorem World.orElse_cases (x : Except Refusal World) : w.orElse x = w ∨ ∃ w', x = .ok w' ∧ w.orElse x = w' := by
  cases x with
  | ok w' => exact .inr ⟨w', rfl, rfl⟩
  | error e => exact .inl rfl

/-- The step acts on a vault, with a role that is at least the one given. -/
def Reaches (w : World) (a : Step) (name : String) (least : Role) : Prop :=
  match a with
  | .commit i _ => ∃ p, w.pending[i]? = some p ∧ p.name = name ∧ roleLevel (some least) ≤ roleLevel (some p.call.required)
  | .manage c at' _ => at' = name ∧ w.isAdmin c.userId
  | .setPublic c at' _ => at' = name ∧ ∃ authorized, checkVaultAccess w c at' .owner false none = .ok authorized
  | .updateMetadata c at' _ => at' = name ∧ ∃ authorized, checkVaultAccess w c at' .owner false none = .ok authorized
  | _ => False

/-- All that a step can do. -/
inductive Effect (w w' : World) (a : Step) : Prop where
  | nothing (vaults : w'.vaults = w.vaults) (grants : w'.grants = w.grants) (nextVault : w'.nextVault = w.nextVault)
  | created (row : VaultRow) (id : row.id = w.nextVault) (free : ∀ r ∈ w.vaults, r.name ≠ row.name)
      (vaults : ∀ r, r ∈ w'.vaults ↔ r = row ∨ r ∈ w.vaults) (grants : w'.grants = w.grants)
      (nextVault : w'.nextVault = w.nextVault + 1)
  | touched (v : VaultRow) (mem : v ∈ w.vaults) (touches : Touches w w' v) (reached : Reaches w a v.name .admin)
      (rows : Reaches w a v.name .owner ∨ ∀ r ∈ w'.vaults, r ∈ w.vaults)

theorem Touches.withPending (h : Touches w w' v) (pending : List Passed) : Touches w { w' with pending := pending } v :=
  ⟨h.others, h.named, h.contributions, h.access, h.members, h.nextVault⟩

/-- Updating the vault of a name. -/
theorem touches_named (hs : Sound w) {f : VaultRow → VaultRow} (hf : ∀ r, (f r).id = r.id) (hname : ∀ r, (f r).name = r.name)
    (name : String) : w.vaults.updateWhere (fun r => r.name = name) f hf = w.vaults ∨
      ∃ v ∈ w.vaults, v.name = name ∧ Touches w { w with vaults := w.vaults.updateWhere (fun r => r.name = name) f hf } v := by
  cases hfind : w.findVault name with
  | none =>
    refine .inl (Table.updateWhere_of_none hf fun r hr => ?_)
    simpa using findVault_eq_none hfind r hr
  | some v =>
    obtain ⟨hv, hat⟩ := findVault_eq_some hfind
    refine .inr ⟨v, hv, hat, touches_update hf hname hv fun r hr hr' => ?_⟩
    rw [hs.names r hr v hv ((of_decide_eq_true hr').trans hat.symm)]

theorem commit_effect (hs : Sound w) {i : Nat} {scan : ScanOrder VaultId UserId} {p : Passed} (hp : w.pending[i]? = some p)
    (h : p.commit parseUuid w scan = .ok w') : Effect w w' (.commit i scan) := by
  have hreached {v : VaultRow} (hname : v.name = p.name) (hrole : p.call.required = .admin ∨ p.call.required = .owner) :
      Reaches w (.commit i scan) v.name .admin := by
    refine ⟨p, hp, hname.symm, ?_⟩
    rcases hrole with hrole | hrole
    · rw [hrole]
    · rw [hrole]
      decide
  have howner {v : VaultRow} (hname : v.name = p.name) (hrole : p.call.required = .owner) :
      Reaches w (.commit i scan) v.name .owner := ⟨p, hp, hname.symm, Nat.le_of_eq (by rw [hrole])⟩
  have hstatus (status : Status) (hrole : p.call.required = .owner) :
      Effect w (setStatus w p.name status) (.commit i scan) := by
    rcases touches_named (f := fun r => { r with status := status }) hs (fun _ => rfl) (fun _ => rfl) p.name with
      hsame | ⟨v, hv, hname, htouches⟩
    · exact .nothing hsame rfl rfl
    · exact .touched v hv htouches (hreached hname (.inr hrole)) (.inl (howner hname hrole))
  unfold Passed.commit at h
  split at h
  · rename_i hcall
    obtain ⟨v, hv, hname, htouches, hrows⟩ := grantAccess_ok h
    exact .touched v hv htouches (hreached hname (.inl (by rw [hcall]; rfl))) (.inr fun r hr => hrows ▸ hr)
  · rename_i hcall
    obtain ⟨v, hv, hname, htouches, hrows⟩ := revokeAccess_ok h
    exact .touched v hv htouches (hreached hname (.inl (by rw [hcall]; rfl))) (.inr fun r hr => hrows ▸ hr)
  · rename_i hcall
    obtain ⟨v, hv, hname, htouches⟩ := transferOwnership_ok h
    have hrole : p.call.required = .owner := by rw [hcall]; rfl
    exact .touched v hv htouches (hreached hname (.inr hrole)) (.inl (howner hname hrole))
  · rename_i hcall
    cases h
    exact hstatus .archived (by rw [hcall]; rfl)
  · rename_i hcall
    cases h
    exact hstatus .active (by rw [hcall]; rfl)
  · rename_i hcall
    obtain ⟨v, hv, hname, htouches, hrows⟩ := deleteVault_ok h
    exact .touched v hv htouches (hreached hname (.inl (by rw [hcall]; rfl))) (.inr hrows)

theorem createVault_effect {level : String} {mirror : Bool} (h : createVault w c name level mirror = .ok w') :
    Effect w w' (.create c name level mirror) ∧ w'.pending = w.pending := by
  simp only [createVault, bind_eq_ok, found_eq_ok, refuse_eq_ok, pure_eq_ok] at h
  obtain ⟨_, _, public', _, _, hfree, vaults, hvaults, rfl⟩ := h
  obtain ⟨-, hrows⟩ := Table.insert?_eq_some hvaults
  refine ⟨.created _ rfl (fun r hr hname => hfree ?_) hrows rfl rfl, rfl⟩
  rw [World.findVault, List.find?_isSome]
  exact ⟨r, hr, by simpa using hname⟩

theorem setPublicAccess_effect {level : String} (h : setPublicAccess w c name level = .ok w') :
    Effect w w' (.setPublic c name level) ∧ w'.pending = w.pending := by
  simp only [setPublicAccess, bind_eq_ok, found_eq_ok, pure_eq_ok] at h
  obtain ⟨public', _, authorized, hcheck, v, hfind, _, _, rfl⟩ := h
  obtain ⟨hv, hname⟩ := findVault_eq_some hfind
  have htouches := touches_update (f := fun r => { r with publicAccess := public' }) (fun _ => rfl) (fun _ => rfl) hv
    (fun r _ (hr : decide (r.id = v.id)) => of_decide_eq_true hr)
  exact ⟨.touched v hv htouches ⟨hname.symm, authorized, hcheck⟩ (.inl ⟨hname.symm, authorized, hcheck⟩), rfl⟩

theorem updateVaultMetadata_effect (hs : Sound w) {publicAccess : Option String}
    (h : updateVaultMetadata w c name publicAccess = .ok w') :
    Effect w w' (.updateMetadata c name publicAccess) ∧ w'.pending = w.pending := by
  unfold updateVaultMetadata at h
  split at h
  · simp only [bind_eq_ok, pure_eq_ok] at h
    obtain ⟨_, _, rfl⟩ := h
    exact ⟨.nothing rfl rfl rfl, rfl⟩
  · simp only [bind_eq_ok, found_eq_ok, pure_eq_ok] at h
    obtain ⟨public', _, authorized, hcheck, rfl⟩ := h
    refine ⟨?_, rfl⟩
    rcases touches_named (f := fun r => { r with publicAccess := public' }) hs (fun _ => rfl) (fun _ => rfl) name with
      hsame | ⟨v, hv, hname, htouches⟩
    · exact .nothing hsame rfl rfl
    · exact .touched v hv htouches ⟨hname.symm, authorized, hcheck⟩ (.inl ⟨hname.symm, authorized, hcheck⟩)

/-- What a step does, and the calls that are pending after it. -/
theorem next_effect (parseUuid : String → Option UserId) (hs : Sound w) (a : Step) : Effect w (w.next parseUuid a) a ∧
    ∀ p ∈ (w.next parseUuid a).pending, p ∈ w.pending ∨
      ∃ c name call, a = .check c name call ∧ p.caller = c ∧ p.name = name ∧ p.call = call ∧
        call.authorize w c name = .ok p.authorized := by
  have hnothing : Effect w w a := .nothing rfl rfl rfl
  have hdone {x : Except Refusal World} (h : ∀ w', x = .ok w' → Effect w w' a ∧ w'.pending = w.pending) :
      Effect w (w.orElse x) a ∧ ∀ p ∈ (w.orElse x).pending, p ∈ w.pending ∨
        ∃ c name call, a = .check c name call ∧ p.caller = c ∧ p.name = name ∧ p.call = call ∧
          call.authorize w c name = .ok p.authorized := by
    rcases w.orElse_cases x with heq | ⟨w', hx, heq⟩
    · rw [heq]
      exact ⟨hnothing, fun p hp => .inl hp⟩
    · rw [heq]
      obtain ⟨heffect, hpending⟩ := h w' hx
      exact ⟨heffect, fun p hp => .inl (hpending ▸ hp)⟩
  cases a with
  | account users => exact ⟨.nothing rfl rfl rfl, fun p hp => .inl hp⟩
  | create c name level mirror => exact hdone fun w' h => createVault_effect h
  | manage c name policy =>
    rw [World.next]
    split
    · rename_i hadmin
      refine ⟨?_, fun p hp => .inl hp⟩
      rcases touches_named (f := fun r => { r with policy := policy }) hs (fun _ => rfl) (fun _ => rfl) name with
        hsame | ⟨v, hv, hname, htouches⟩
      · exact .nothing hsame rfl rfl
      · exact .touched v hv htouches ⟨hname.symm, hadmin⟩ (.inl ⟨hname.symm, hadmin⟩)
    · exact ⟨hnothing, fun p hp => .inl hp⟩
  | check c name call =>
    rw [World.next]
    split
    · rename_i authorized hauthorized
      refine ⟨.nothing rfl rfl rfl, fun p hp => ?_⟩
      rcases List.mem_append.mp hp with hp | hp
      · exact .inl hp
      · rw [List.mem_singleton.mp hp]
        exact .inr ⟨c, name, call, rfl, rfl, rfl, rfl, hauthorized⟩
    · exact ⟨hnothing, fun p hp => .inl hp⟩
  | commit i scan =>
    rw [World.next]
    split
    · rename_i p hp
      refine ⟨?_, fun q hq => .inl (List.mem_of_mem_eraseIdx hq)⟩
      rcases w.orElse_cases (p.commit parseUuid w scan) with heq | ⟨w', hx, heq⟩
      · rw [heq]
        exact .nothing rfl rfl rfl
      · rw [heq]
        cases commit_effect hs hp hx with
        | nothing vaults grants nextVault => exact .nothing vaults grants nextVault
        | created row id free vaults grants nextVault => exact .created row id free vaults grants nextVault
        | touched v mem touches reached rows => exact .touched v mem (touches.withPending _) reached rows
    · exact ⟨hnothing, fun p hp => .inl hp⟩
  | setPublic c name level => exact hdone fun w' h => setPublicAccess_effect h
  | updateMetadata c name publicAccess => exact hdone fun w' h => updateVaultMetadata_effect hs h

/-! ### Runs -/

theorem Sound.next (hs : Sound w) (a : Step) : Sound (w.next parseUuid a) := by
  cases (next_effect parseUuid hs a).1 with
  | nothing vaults grants nextVault =>
    constructor
    · rw [vaults]
      exact hs.names
    · rw [vaults, nextVault]
      exact hs.issued
    · rw [grants]
      exact hs.members
  | created row id free vaults grants nextVault =>
    constructor
    · intro r hr s hs' hname
      rcases (vaults r).mp hr with rfl | hr
      · rcases (vaults s).mp hs' with rfl | hs'
        · rfl
        · exact absurd hname.symm (free s hs')
      · rcases (vaults s).mp hs' with rfl | hs'
        · exact absurd hname (free r hr)
        · exact hs.names r hr s hs' hname
    · intro r hr
      rw [nextVault]
      rcases (vaults r).mp hr with rfl | hr
      · rw [id]
        exact Nat.lt_succ_self _
      · exact Nat.lt_succ_of_lt (hs.issued r hr)
    · rw [grants]
      exact hs.members
  | touched v mem touches reached rows =>
    have hrow : ∀ r ∈ (w.next parseUuid a).vaults, r.id = v.id ∧ r.name = v.name ∨ r.id ≠ v.id ∧ r ∈ w.vaults := by
      intro r hr
      by_cases hid : r.id = v.id
      · exact .inl ⟨hid, touches.named r hr hid⟩
      · exact .inr ⟨hid, (touches.others r hid).mp hr⟩
    constructor
    · intro r hr s hs' hname
      rcases hrow r hr with ⟨hr', hrname⟩ | ⟨hr', hrmem⟩ <;> rcases hrow s hs' with ⟨hs'', hsname⟩ | ⟨hs'', hsmem⟩
      · exact Table.eq_of_key hr hs' (hr'.trans hs''.symm)
      · exact absurd (congrArg VaultRow.id (hs.names s hsmem v mem (hname.symm.trans hrname))) hs''
      · exact absurd (congrArg VaultRow.id (hs.names r hrmem v mem (hname.trans hsname))) hr'
      · exact hs.names r hrmem s hsmem hname
    · intro r hr
      rw [touches.nextVault]
      rcases hrow r hr with ⟨hid, -⟩ | ⟨-, hr⟩
      · rw [hid]
        exact hs.issued v mem
      · exact hs.issued r hr
    · exact touches.members hs.members

def World.step (parseUuid : String → Option UserId) (w : World) (a : Step) (w' : World) : Prop := w.next parseUuid a = w'

theorem sound_of_run {steps : List Step} (h : Run (World.step parseUuid) .empty steps w) : Sound w :=
  h.invariant (fun _ a _ hs h => h ▸ hs.next a) sound_empty

/-- A step that does not reach a vault as its owner leaves its row, unless it deletes it. -/
theorem row_of_next (hs : Sound w) (hr : r ∈ w.vaults) {a : Step} (h : ¬ Reaches w a r.name .owner) :
    ∀ s ∈ (w.next parseUuid a).vaults, s.id = r.id → s = r := by
  intro s hs' hid
  cases (next_effect parseUuid hs a).1 with
  | nothing vaults _ _ => exact Table.eq_of_key (vaults ▸ hs') hr hid
  | created row id _ vaults _ _ =>
    rcases (vaults s).mp hs' with rfl | hs'
    · have hlt := hs.issued r hr
      rw [← hid, id] at hlt
      exact absurd hlt (Nat.lt_irrefl _)
    · exact Table.eq_of_key hs' hr hid
  | touched v mem touches _ rows =>
    rcases rows with hreached | hrows
    · refine Table.eq_of_key ((touches.others s fun hsv => h ?_).mp hs') hr hid
      rwa [Table.eq_of_key hr mem (hid.symm.trans hsv)]
    · exact Table.eq_of_key (hrows s hs') hr hid

/-- Nothing of a vault is changed. -/
structure Undisturbed (w w' : World) (r : VaultRow) : Prop where
  row : r ∈ w'.vaults
  contributions : ∀ x, x.vaultId = r.id → (x ∈ w'.grants.contributions ↔ x ∈ w.grants.contributions)
  access : ∀ a, a.vaultId = r.id → (a ∈ w'.grants.access ↔ a ∈ w.grants.access)

variable {before steps : List Step}

/-- Ids of rows are the old ones or the next one. -/
theorem ids_of_next (parseUuid : String → Option UserId) (hs : Sound w) (a : Step) :
    w.nextVault ≤ (w.next parseUuid a).nextVault ∧
    ∀ s ∈ (w.next parseUuid a).vaults, (∃ r ∈ w.vaults, r.id = s.id) ∨ s.id = w.nextVault := by
  cases (next_effect parseUuid hs a).1 with
  | nothing vaults _ nextVault => exact ⟨Nat.le_of_eq nextVault.symm, fun s hs' => .inl ⟨s, vaults ▸ hs', rfl⟩⟩
  | created row id _ vaults _ nextVault =>
    refine ⟨nextVault ▸ Nat.le_succ _, fun s hs' => ?_⟩
    rcases (vaults s).mp hs' with rfl | hs'
    · exact .inr id
    · exact .inl ⟨s, hs', rfl⟩
  | touched v mem touches _ _ =>
    refine ⟨Nat.le_of_eq touches.nextVault.symm, fun s hs' => .inl ?_⟩
    by_cases hid : s.id = v.id
    · exact ⟨v, mem, hid.symm⟩
    · exact ⟨s, (touches.others s hid).mp hs', rfl⟩

/-- What a step reaches as its owner, its caller governs, or has passed a check for. -/
theorem governs_of_reaches (hs : Sound w) (hr : r ∈ w.vaults) {a : Step} {least : Role} (h : Reaches w a r.name least) :
    (∃ c ∈ a.caller w, Governs w r c) ∨
      ∃ p ∈ w.pending, p.name = r.name ∧ roleLevel (some least) ≤ roleLevel (some p.call.required) := by
  have hchecked {c : Caller} {name : String} (hname : name = r.name)
      (h : ∃ authorized, checkVaultAccess w c name .owner false none = .ok authorized) : Governs w r c := by
    obtain ⟨authorized, hcheck⟩ := h
    obtain ⟨s, hs', hsname, hgoverns, -⟩ := checkVaultAccess_ok hs hcheck
    rw [hs.names r hr s hs' (hname.symm.trans hsname.symm)]
    exact hgoverns rfl
  cases a with
  | account | create | check => exact absurd h id
  | manage c name policy => exact .inl ⟨c, rfl, .inr (.inl h.2)⟩
  | setPublic c name level => exact .inl ⟨c, rfl, hchecked h.1 h.2⟩
  | updateMetadata c name publicAccess => exact .inl ⟨c, rfl, hchecked h.1 h.2⟩
  | commit i scan =>
    obtain ⟨p, hp, hname, hlevel⟩ := h
    exact .inr ⟨p, List.mem_of_getElem? hp, hname, hlevel⟩

/-- In a run where nobody who governs a vault makes a step, no call that needs its owner is let through: its owner, its
status, its public access and its write policy stay as they are, for as long as it is there, and its id is not used
again. Members with the role `admin` can take part, and checks and transactions can interleave in any order. -/
theorem governed_row_stays (hreached : Run (World.step parseUuid) .empty before w) (hidle : w.pending = [])
    (hr : r ∈ w.vaults)
    (hrun : Run (Guarded (World.step parseUuid)
      (fun w a => ∀ c ∈ a.caller w, ∀ s ∈ w.vaults, s.id = r.id → ¬ Governs w s c)) w steps w') :
    ∀ s ∈ w'.vaults, s.id = r.id → s = r := by
  -- while the vault is there, no pending call on its name needs the owner
  have hinv : Sound w' ∧ r.id < w'.nextVault ∧ (∀ s ∈ w'.vaults, s.id = r.id → s = r) ∧
      (r ∈ w'.vaults → ∀ p ∈ w'.pending, p.name = r.name → p.call.required ≠ .owner) := by
    have hs := sound_of_run hreached
    refine hrun.invariant (I := fun w => Sound w ∧ r.id < w.nextVault ∧ (∀ s ∈ w.vaults, s.id = r.id → s = r) ∧
      (r ∈ w.vaults → ∀ p ∈ w.pending, p.name = r.name → p.call.required ≠ .owner)) ?_
      ⟨hs, hs.issued r hr, fun s hs' hid => Table.eq_of_key hs' hr hid, fun _ p hp => by rw [hidle] at hp; cases hp⟩
    rintro w a w' ⟨hs, hissued, hrow, hpending⟩ ⟨rfl, hguard⟩
    have hids := ids_of_next parseUuid hs a
    have hnot (hr : r ∈ w.vaults) : ¬ Reaches w a r.name .owner := by
      intro hreach
      rcases governs_of_reaches hs hr hreach with ⟨c, hc, hgoverns⟩ | ⟨p, hp, hname, hlevel⟩
      · exact hguard c hc r hr rfl hgoverns
      · refine hpending hr p hp hname ?_
        cases hrole : p.call.required with
        | owner => rfl
        | reader | writer | admin =>
          rw [hrole] at hlevel
          exact absurd hlevel (by decide)
    have hback : r ∈ (w.next parseUuid a).vaults → r ∈ w.vaults := by
      intro hnext
      rcases hids.2 r hnext with ⟨s, hs', hid⟩ | hid
      · exact hrow s hs' hid ▸ hs'
      · rw [hid] at hissued
        exact absurd hissued (Nat.lt_irrefl _)
    refine ⟨hs.next a, Nat.lt_of_lt_of_le hissued hids.1, fun s hs' hid => ?_, fun hnext p hp hname => ?_⟩
    · rcases hids.2 s hs' with ⟨t, ht, hid'⟩ | hnew
      · have hr : r ∈ w.vaults := hrow t ht (hid'.trans hid) ▸ ht
        exact row_of_next hs hr (hnot hr) s hs' hid
      · rw [← hid, hnew] at hissued
        exact absurd hissued (Nat.lt_irrefl _)
    · have hr := hback hnext
      rcases (next_effect parseUuid hs a).2 p hp with hp | ⟨c, name, call, rfl, rfl, rfl, rfl, hauthorized⟩
      · exact hpending hr p hp hname
      · intro howner
        obtain ⟨s, hs', hsname, hgoverns, -⟩ := authorize_ok hs hauthorized
        rw [hs.names s hs' r hr (hsname.trans hname)] at hgoverns
        exact hguard p.caller rfl r hr rfl (hgoverns howner)
  exact hinv.2.2.1

instance decidableGoverns (w : World) (r : VaultRow) (c : Caller) : Decidable (Governs w r c) :=
  inferInstanceAs (Decidable (_ ∨ _ ∨ _))

instance decidableAdministers (w : World) (r : VaultRow) (c : Caller) : Decidable (Administers w r c) :=
  inferInstanceAs (Decidable (_ ∨ _))

instance decidableNotGoverned (id : VaultId) (w : World) (a : Step) :
    Decidable (∀ c ∈ a.caller w, ∀ s ∈ w.vaults, s.id = id → ¬ Governs w s c) :=
  inferInstanceAs (Decidable (∀ c ∈ a.caller w, ∀ s ∈ w.vaults.rows, s.id = id → ¬ Governs w s c))

instance decidableNotAdministered (id : VaultId) (w : World) (a : Step) :
    Decidable (∀ c ∈ a.caller w, ∀ s ∈ w.vaults, s.id = id → ¬ Administers w s c) :=
  inferInstanceAs (Decidable (∀ c ∈ a.caller w, ∀ s ∈ w.vaults.rows, s.id = id → ¬ Administers w s c))

def sampleUsers : Table UserRow UserRow.id := ⟨[⟨1, "ann", false⟩, ⟨2, "bob", false⟩, ⟨3, "eve", false⟩], by decide⟩

def sampleCaller (u : UserId) : Caller := ⟨u, none, none⟩

/-- Ann creates a vault and makes Bob its administrator. -/
def sampleBefore : List Step :=
  [.account sampleUsers, .create (sampleCaller 1) "eng" "none" false,
    .check (sampleCaller 1) "eng" (.grant (some "bob") none "admin" "direct" none), .commit 0 ScanOrder.stored]

def sampleWorld : World := sampleBefore.foldl (World.next fun _ => none) .empty

def sampleRow : VaultRow := ⟨0, "eng", some 1, .active, .none, false, none⟩

/-- Bob lets Eve write, but cannot archive the vault or open it to everybody. -/
def sampleSteps : List Step :=
  [.check (sampleCaller 2) "eng" .archive, .check (sampleCaller 2) "eng" (.grant (some "eve") none "writer" "direct" none),
    .commit 0 ScanOrder.stored, .setPublic (sampleCaller 2) "eng" "writer"]

theorem sampleRow_mem : sampleRow ∈ sampleWorld.vaults := by
  refine List.mem_of_find?_eq_some (p := fun v => v.name = "eng") ?_
  rfl

theorem governed_row_stays_sample :
    currentEffectiveRole (sampleSteps.foldl (World.next fun _ => none) sampleWorld).grants 0 3 = some .writer ∧
      ∀ s ∈ (sampleSteps.foldl (World.next fun _ => none) sampleWorld).vaults, s.id = 0 → s = sampleRow := by
  have hmeets : Meets (World.next fun _ => none)
      (fun w a => ∀ c ∈ a.caller w, ∀ s ∈ w.vaults, s.id = sampleRow.id → ¬ Governs w s c) sampleWorld sampleSteps := by
    decide +kernel
  exact ⟨by decide +kernel, governed_row_stays (run_of_foldl _ _ sampleBefore) (by decide +kernel) sampleRow_mem hmeets.run⟩

end Akb.Access.Vaults
