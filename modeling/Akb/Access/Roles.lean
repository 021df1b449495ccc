import Akb.Library.PyText
import Mathlib.Data.List.Basic
import Mathlib.Tactic.Linarith
import Akb.Library.Table

/-! Vault roles and the derivation of the strongest one. -/
namespace Akb.Access
open Akb.Library

inductive Role where
  | reader | writer | admin | owner
  deriving DecidableEq, Repr

/-- The one role ordering, `ROLE_HIERARCHY`. -/
def roleHierarchy : Role → Nat
  | .owner => 4
  | .admin => 3
  | .writer => 2
  | .reader => 1

/-- An absent role is below every role. -/
def roleLevel : Option Role → Nat
  | none => 0
  | some role => roleHierarchy role

theorem roleLevel_pos (role : Role) : 0 < roleLevel (some role) := by
  cases role <;> decide

theorem roleLevel_injective {a b : Option Role} (h : roleLevel a = roleLevel b) : a = b := by
  rcases a with _ | a <;> rcases b with _ | b
  · rfl
  · exact absurd h (roleLevel_pos b).ne
  · exact absurd h.symm (roleLevel_pos a).ne
  · cases a <;> cases b <;> first | rfl | exact absurd h (by decide)

/-- Scan the roles and keep a later one only when it is strictly stronger. -/
def effectiveRole (roles : List (Option Role)) : Option Role :=
  roles.foldl (fun best role => if roleLevel best < roleLevel role then role else best) none

section Best
variable {α : Type*} (level : α → Nat)

private theorem best_mem (best : α) (xs : List α) :
    xs.foldl (fun b x => if level b < level x then x else b) best ∈ best :: xs := by
  induction xs generalizing best with
  | nil => exact List.mem_cons_self
  | cons x xs ih =>
    rw [List.foldl_cons]
    rcases List.mem_cons.mp (ih (if level best < level x then x else best)) with h | h
    · rw [h]
      split
      · exact List.mem_cons_of_mem _ List.mem_cons_self
      · exact List.mem_cons_self
    · exact List.mem_cons_of_mem _ (List.mem_cons_of_mem _ h)

private theorem best_ge (best : α) (xs : List α) :
    ∀ x ∈ best :: xs, level x ≤ level (xs.foldl (fun b x => if level b < level x then x else b) best) := by
  induction xs generalizing best with
  | nil => simp
  | cons y ys ih =>
    intro x hx
    rw [List.foldl_cons]
    have hstart : level best ≤ level (if level best < level y then y else best) ∧
        level y ≤ level (if level best < level y then y else best) := by
      split <;> omega
    have hnext := ih (if level best < level y then y else best)
    rcases List.mem_cons.mp hx with rfl | hx
    · exact hstart.1.trans (hnext _ List.mem_cons_self)
    · rcases List.mem_cons.mp hx with rfl | hx
      · exact hstart.2.trans (hnext _ List.mem_cons_self)
      · exact hnext x (List.mem_cons_of_mem _ hx)

end Best

theorem effectiveRole_mem {roles : List (Option Role)} {role : Role}
    (h : effectiveRole roles = some role) : some role ∈ roles := by
  have hm := best_mem roleLevel none roles
  rw [show roles.foldl _ none = effectiveRole roles from rfl, h] at hm
  simpa using hm

/-- No role of the list is above the derived one. -/
theorem effectiveRole_max {roles : List (Option Role)} {role : Option Role} (h : role ∈ roles) :
    roleLevel role ≤ roleLevel (effectiveRole roles) :=
  best_ge roleLevel none roles role (List.mem_cons_of_mem _ h)

theorem effectiveRole_eq_none {roles : List (Option Role)} :
    effectiveRole roles = none ↔ ∀ role ∈ roles, role = none := by
  constructor
  · intro h role hr
    have hl := effectiveRole_max hr
    rw [h] at hl
    exact roleLevel_injective (Nat.le_zero.mp hl)
  · intro h
    cases he : effectiveRole roles with
    | none => rfl
    | some role => cases h _ (effectiveRole_mem he)

/-- The derivation depends on the set of roles only, not on their order. -/
theorem effectiveRole_perm {as bs : List (Option Role)} (h : as.Perm bs) :
    effectiveRole as = effectiveRole bs := by
  have hle {xs ys : List (Option Role)} (hp : xs.Perm ys) :
      roleLevel (effectiveRole xs) ≤ roleLevel (effectiveRole ys) := by
    cases he : effectiveRole xs with
    | none => exact Nat.zero_le _
    | some role => exact effectiveRole_max (hp.subset (effectiveRole_mem he))
  exact roleLevel_injective (Nat.le_antisymm (hle h) (hle h.symm))

end Akb.Access

/-! The contribution writes behind a vault grant: each one records or removes a
basis for a (vault, user) pair and recomputes the effective row. -/
namespace Akb.Access
open Akb.Library

/-- `CONTRIBUTION_ROLES`. Ownership is never a contribution. -/
def contributionRoles : List Role := [.reader, .writer, .admin]

/-- A role the contribution table accepts. -/
structure ContributionRole where
  role : Role
  listed : role ∈ contributionRoles
  deriving DecidableEq

def Role.name : Role → String
  | .reader => "reader"
  | .writer => "writer"
  | .admin => "admin"
  | .owner => "owner"

/-- A BIGINT column value. -/
structure Revision where
  value : Int
  fits : -2 ^ 63 ≤ value ∧ value < 2 ^ 63
  deriving DecidableEq

inductive AccessError where
  | invalidRole (role : String)
  | invalidSourceKey (message : String)
  | revisionOutOfRange (revision : Int)
  deriving DecidableEq, Repr

def sourceKeyMax : Nat := 255

/-- What `validate_source_key` objects to, in its order. -/
def sourceKeyProblem (text : String) : Option String :=
  if text = "" then some "source key must be a non-empty string"
  else if sourceKeyMax < text.length then some "source key exceeds 255 characters"
  else if text.toList.any PyText.isSpace then some "source key must not contain whitespace"
  else none

/-- A source key of the stored shape; its value is never interpreted. -/
structure SourceKey where
  text : String
  valid : sourceKeyProblem text = none
  deriving DecidableEq

def validateSourceKey (text : String) : Except AccessError SourceKey :=
  match h : sourceKeyProblem text with
  | some message => .error (.invalidSourceKey message)
  | none => .ok ⟨text, h⟩

def directSourceKey : String := "direct"

theorem writer_listed : Role.writer ∈ contributionRoles := by decide

/-- The membership test that opens `apply_contribution`. -/
def contributionRole (name : String) : Except AccessError ContributionRole :=
  if name = "reader" then .ok ⟨.reader, by decide⟩
  else if name = "writer" then .ok ⟨.writer, writer_listed⟩
  else if name = "admin" then .ok ⟨.admin, by decide⟩
  else .error (.invalidRole name)

/-- Binding an integer to a BIGINT parameter fails outside the column's range. -/
def Revision.encode (n : Int) : Except AccessError Revision :=
  if h : -2 ^ 63 ≤ n ∧ n < 2 ^ 63 then .ok ⟨n, h⟩ else .error (.revisionOutOfRange n)

variable {Vault User : Type} [DecidableEq Vault] [DecidableEq User]

/-- A row of `vault_access_contributions`. -/
structure Contribution (Vault User : Type) where
  vaultId : Vault
  userId : User
  sourceKey : SourceKey
  role : ContributionRole
  grantedBy : Option User
  revision : Revision

def Contribution.key (c : Contribution Vault User) : Vault × User × SourceKey :=
  (c.vaultId, c.userId, c.sourceKey)

def Contribution.pair (c : Contribution Vault User) : Vault × User := (c.vaultId, c.userId)

/-- A row of `vault_access`. -/
structure AccessRow (Vault User : Type) where
  vaultId : Vault
  userId : User
  role : Role
  grantedBy : Option User

def AccessRow.pair (a : AccessRow Vault User) : Vault × User := (a.vaultId, a.userId)

structure Tables (Vault User : Type) where
  contributions : Table (Contribution Vault User) Contribution.key
  access : Table (AccessRow Vault User) AccessRow.pair

def Tables.empty : Tables Vault User := ⟨.empty, .empty⟩

/-- The order in which an unordered SELECT happens to return its rows. -/
structure ScanOrder (Vault User : Type) where
  arrange : List (Contribution Vault User) → List (Contribution Vault User)
  perm : ∀ rows, (arrange rows).Perm rows

def ScanOrder.stored : ScanOrder Vault User := ⟨id, List.Perm.refl⟩

structure ContributionOutcome where
  applied : Bool
  effectiveRole : Option Role
  previousEffectiveRole : Option Role
  contributionRole : Option Role
  deriving DecidableEq, Repr

def currentEffectiveRole (t : Tables Vault User) (vault : Vault) (user : User) : Option Role :=
  (t.access.get? (vault, user)).map AccessRow.role

/-- The rows `_materialize` reads for a pair. -/
def pairRows (scan : ScanOrder Vault User) (t : Tables Vault User) (vault : Vault) (user : User) :
    List (Contribution Vault User) :=
  scan.arrange (t.contributions.rows.filter (fun c => c.pair = (vault, user)))

/-- Recompute the `vault_access` row of a pair; attribution follows the first
scanned basis that holds the effective role. -/
def materialize (scan : ScanOrder Vault User) (t : Tables Vault User) (vault : Vault) (user : User) :
    Option Role × Tables Vault User :=
  let rows := pairRows scan t vault user
  match effectiveRole (rows.map (fun c => some c.role.role)) with
  | none => (none, { t with access := t.access.deleteWhere (fun a => a.pair = (vault, user)) })
  | some effective =>
    let grantedBy := (rows.find? (fun c => c.role.role = effective)).bind Contribution.grantedBy
    (some effective, { t with access := t.access.upsert ⟨vault, user, effective, grantedBy⟩ })

/-- The write both branches of `apply_contribution` end in. -/
def storeContribution (scan : ScanOrder Vault User) (t : Tables Vault User) (c : Contribution Vault User) :
    ContributionOutcome × Tables Vault User :=
  let (effective, t') := materialize scan { t with contributions := t.contributions.upsert c } c.vaultId c.userId
  (⟨true, effective, currentEffectiveRole t c.vaultId c.userId, some c.role.role⟩, t')

def applyContribution (scan : ScanOrder Vault User) (t : Tables Vault User) (vault : Vault) (user : User)
    (role sourceKey : String) (grantedBy : Option User) (revision : Option Int) :
    Except AccessError (ContributionOutcome × Tables Vault User) := do
  let role ← contributionRole role
  let sourceKey ← validateSourceKey sourceKey
  let previous := currentEffectiveRole t vault user
  match revision, t.contributions.get? (vault, user, sourceKey) with
  | none, stored =>
    let next ← Revision.encode ((stored.map (fun s => s.revision.value)).getD 0 + 1)
    return storeContribution scan t ⟨vault, user, sourceKey, role, grantedBy, next⟩
  | some revision, some stored =>
    if revision ≤ stored.revision.value then
      return (⟨false, previous, previous, some stored.role.role⟩, t)
    else
      let next ← Revision.encode revision
      return storeContribution scan t ⟨vault, user, sourceKey, role, grantedBy, next⟩
  | some revision, none =>
    let next ← Revision.encode revision
    return storeContribution scan t ⟨vault, user, sourceKey, role, grantedBy, next⟩

/-- Drop the contributions a condition selects and recompute the pair. -/
def dropContributions (scan : ScanOrder Vault User) (t : Tables Vault User) (vault : Vault) (user : User)
    (selected : Contribution Vault User → Bool) : Option Role × Tables Vault User :=
  materialize scan { t with contributions := t.contributions.deleteWhere selected } vault user

def removeContribution (scan : ScanOrder Vault User) (t : Tables Vault User) (vault : Vault) (user : User)
    (sourceKey : String) (revision : Option Int) :
    Except AccessError (ContributionOutcome × Tables Vault User) := do
  let sourceKey ← validateSourceKey sourceKey
  let previous := currentEffectiveRole t vault user
  match t.contributions.get? (vault, user, sourceKey) with
  | none => return (⟨false, previous, previous, none⟩, t)
  | some stored =>
    if revision.any (fun r => r ≤ stored.revision.value) then
      return (⟨false, previous, previous, some stored.role.role⟩, t)
    else
      let (effective, t') := dropContributions scan t vault user (fun c => c.key = (vault, user, sourceKey))
      return (⟨true, effective, previous, none⟩, t')

def removeAllContributions (scan : ScanOrder Vault User) (t : Tables Vault User) (vault : Vault) (user : User) :
    ContributionOutcome × Tables Vault User :=
  let previous := currentEffectiveRole t vault user
  let removed := t.contributions.rows.any (fun c => c.pair = (vault, user))
  let (effective, t') := dropContributions scan t vault user (fun c => c.pair = (vault, user))
  (⟨removed || previous.isSome, effective, previous, none⟩, t')

/-- The three writes, with the arguments their callers pass. -/
inductive Call (Vault User : Type) where
  | apply (vault : Vault) (user : User) (role sourceKey : String) (grantedBy : Option User) (revision : Option Int)
  | remove (vault : Vault) (user : User) (sourceKey : String) (revision : Option Int)
  | removeAll (vault : Vault) (user : User)

def Call.pair : Call Vault User → Vault × User
  | .apply vault user .. => (vault, user)
  | .remove vault user .. => (vault, user)
  | .removeAll vault user => (vault, user)

def Call.run (scan : ScanOrder Vault User) (t : Tables Vault User) :
    Call Vault User → Except AccessError (ContributionOutcome × Tables Vault User)
  | .apply vault user role sourceKey grantedBy revision =>
    applyContribution scan t vault user role sourceKey grantedBy revision
  | .remove vault user sourceKey revision => removeContribution scan t vault user sourceKey revision
  | .removeAll vault user => .ok (removeAllContributions scan t vault user)

/-- A call that raises leaves the transaction's tables as they were. -/
def perform (t : Tables Vault User) (step : ScanOrder Vault User × Call Vault User) : Tables Vault User :=
  match step.2.run step.1 t with
  | .ok out => out.2
  | .error _ => t

def performAll (t : Tables Vault User) (steps : List (ScanOrder Vault User × Call Vault User)) :
    Tables Vault User :=
  steps.foldl perform t

end Akb.Access
