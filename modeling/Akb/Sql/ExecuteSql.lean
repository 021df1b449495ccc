import Akb.Sql.Walk
import Mathlib.Data.List.Sort
import Mathlib.Data.String.Basic

/-! The guards of `execute_sql`, in their order, up to the call of the executor. -/
namespace Akb.Sql
open Akb.Library

inductive VaultStatus where
  | active
  | archived
  deriving DecidableEq

structure VaultRow where
  id : Nat
  name : String
  status : VaultStatus
  deriving DecidableEq

structure WritePolicy where
  vaultId : Nat
  managedBy : String
  deriving DecidableEq

structure WriteGrant where
  vaultId : Nat
  tokenId : Nat
  writeActions : List String
  deriving DecidableEq

/-- The rows the guards read. -/
structure Catalog where
  vaults : List VaultRow
  policies : List WritePolicy
  grants : List WriteGrant

/-- The caller, as the request carries it. -/
structure Caller where
  userId : String
  tokenId : Option Nat
  vaultScoped : Bool
  /-- The answer of `human_admin_sql_bypass`. -/
  adminBypass : Bool

/-- The codes under which `execute_sql` refuses a text. -/
inductive SqlErrorCode where
  | multiStatement
  | methodNotAllowed
  | vaultArchived
  | vaultWriteManaged
  deriving DecidableEq

structure SqlError where
  code : SqlErrorCode
  message : String
  deriving DecidableEq

/-- `vault.write_policy_admin_bypass`. -/
structure BypassEvent where
  vaultId : Nat
  actorId : String
  managedBy : String
  requiredRole : String
  vault : String
  deriving DecidableEq

def allowedFirstKeywords : List String := ["SELECT", "WITH", "INSERT", "UPDATE", "DELETE"]

def readKeywords : List String := ["SELECT", "WITH"]

/-- `text.strip().upper().startswith(keywords)`. -/
def startsWith (text : List Char) (keywords : List String) : Bool :=
  keywords.any (fun keyword => keyword.toList.isPrefixOf (PyText.upper (PyText.strip text)))

/-- The guards that look at the text alone. -/
def checkText (rewritten : List Char) : Except SqlError Unit :=
  if 0 < countStatementSeparators (sqlCheck rewritten) then
    .error ⟨.multiStatement, "Multi-statement SQL is not allowed. Send one statement at a time."⟩
  else if !startsWith rewritten allowedFirstKeywords then
    .error ⟨.methodNotAllowed, "Only SELECT / WITH / INSERT / UPDATE / DELETE are allowed via akb_sql. " ++
      "Use akb_create_table / akb_alter_table / akb_drop_table for schema changes."⟩
  else if containsSetConfigCall rewritten then
    .error ⟨.methodNotAllowed, "set_config() is not allowed via akb_sql because " ++
      "request.jwt.claims is reserved for service-key claim injection."⟩
  else if containsUnicodeEscapedIdentifier rewritten then
    .error ⟨.methodNotAllowed, "Unicode-escaped quoted identifiers are not allowed via akb_sql."⟩
  else if containsPgSettingsIdentifier rewritten then
    .error ⟨.methodNotAllowed, "pg_settings is not available via akb_sql because " ++
      "request.jwt.claims is reserved for service-key claim injection."⟩
  else .ok ()

def referenced (c : Catalog) (vaultNames : List String) : List VaultRow :=
  c.vaults.filter (fun v => vaultNames.contains v.name)

def getPolicy (c : Catalog) (vaultId : Nat) : Option WritePolicy := c.policies.find? (fun p => p.vaultId = vaultId)

/-- `is_granted` without an action: only a wildcard grant answers. -/
def isGranted (c : Catalog) (vaultId tokenId : Nat) : Bool :=
  (c.grants.find? (fun g => g.vaultId = vaultId ∧ g.tokenId = tokenId)).any (fun g => g.writeActions.contains "*")

def archivedNames (c : Catalog) (vaultNames : List String) : List String :=
  (((referenced c vaultNames).filter (fun v => v.status = .archived)).map VaultRow.name).insertionSort (· ≤ ·)

/-- The write-policy loop: the events of the bypasses on the way, and the refusal that ended it. -/
def checkWritePolicies (c : Catalog) (caller : Caller) : List VaultRow → List BypassEvent × Option SqlError
  | [] => ([], none)
  | v :: vs =>
    match getPolicy c v.id with
    | none => checkWritePolicies c caller vs
    | some policy =>
      if caller.tokenId.any (isGranted c v.id) then checkWritePolicies c caller vs
      else if !caller.vaultScoped && caller.adminBypass then
        let (events, refusal) := checkWritePolicies c caller vs
        (⟨v.id, caller.userId, policy.managedBy, "writer", v.name⟩ :: events, refusal)
      else ([], some ⟨.vaultWriteManaged, "Vault '" ++ v.name ++ "' is write-managed by " ++ policy.managedBy ++
        "; writes require a granted service token"⟩)

/-- What the guards answer, with the events they emit: none means that the text goes to the executor. -/
def executeSqlGuards (c : Catalog) (caller : Caller) (vaultNames : List String) (rewritten : List Char) :
    List BypassEvent × Option SqlError :=
  match checkText rewritten with
  | .error e => ([], some e)
  | .ok () =>
    if startsWith rewritten readKeywords then ([], none)
    else if archivedNames c vaultNames ≠ [] then
      ([], some ⟨.vaultArchived, "Vault '" ++ ", ".intercalate (archivedNames c vaultNames) ++
        "' is archived (read-only); writes via akb_sql are not allowed. Unarchive the vault first."⟩)
    else checkWritePolicies c caller (referenced c vaultNames)

/-- The text reaches the executor. -/
def Passes (c : Catalog) (caller : Caller) (vaultNames : List String) (rewritten : List Char) : Prop :=
  (executeSqlGuards c caller vaultNames rewritten).2 = none

/-- A vault the caller may not write to through `akb_sql`. -/
def ReadOnlyFor (c : Catalog) (caller : Caller) (v : VaultRow) : Prop :=
  v.status = .archived ∨ ((getPolicy c v.id).isSome ∧ caller.tokenId.any (isGranted c v.id) = false ∧
    (caller.vaultScoped ∨ caller.adminBypass = false))

theorem archivedNames_eq_nil {c : Catalog} {vaultNames : List String} :
    archivedNames c vaultNames = [] ↔ ∀ v ∈ referenced c vaultNames, v.status ≠ .archived := by
  rw [archivedNames, List.eq_nil_iff_length_eq_zero, List.length_insertionSort, List.length_map,
    ← List.eq_nil_iff_length_eq_zero, List.filter_eq_nil_iff]
  simp

/-- The loop ends without a refusal when each policy has its exemption. -/
theorem checkWritePolicies_eq_none {c : Catalog} {caller : Caller} {vs : List VaultRow} :
    (checkWritePolicies c caller vs).2 = none ↔ ∀ v ∈ vs, (getPolicy c v.id).isSome →
      caller.tokenId.any (isGranted c v.id) ∨ (caller.vaultScoped = false ∧ caller.adminBypass) := by
  induction vs with
  | nil => simp [checkWritePolicies]
  | cons v vs ih =>
    rw [checkWritePolicies, List.forall_mem_cons]
    cases hp : getPolicy c v.id with
    | none => simp [ih]
    | some policy =>
      by_cases hg : caller.tokenId.any (isGranted c v.id)
      · simp [hg, ih]
      · by_cases hb : (!caller.vaultScoped && caller.adminBypass) = true
        · simp only [hg, hb, if_true, if_false, Bool.false_eq_true, ih]
          simp only [Bool.and_eq_true, Bool.not_eq_true'] at hb
          simp [hb]
        · simp only [hg, hb, if_false, Bool.false_eq_true]
          simp only [Bool.and_eq_true, Bool.not_eq_true'] at hb
          simp [hb]

/-- A text that passes its own guards reaches the executor when it starts as a read, or
when no referenced vault is read-only for the caller. -/
theorem passes_iff {c : Catalog} {caller : Caller} {vaultNames : List String} {rewritten : List Char}
    (h : checkText rewritten = .ok ()) : Passes c caller vaultNames rewritten ↔
      startsWith rewritten readKeywords ∨ ∀ v ∈ referenced c vaultNames, ¬ ReadOnlyFor c caller v := by
  unfold Passes executeSqlGuards
  rw [h]
  by_cases hread : startsWith rewritten readKeywords
  · simp [hread]
  · by_cases harchived : archivedNames c vaultNames = []
    · simp only [hread, harchived, ne_eq, not_true_eq_false, if_false, Bool.false_eq_true, false_or,
        checkWritePolicies_eq_none]
      have hactive := archivedNames_eq_nil.mp harchived
      refine forall₂_congr (fun v hv => ?_)
      have := hactive v hv
      unfold ReadOnlyFor
      cases hg : caller.tokenId.any (isGranted c v.id) <;> cases caller.vaultScoped <;>
        cases caller.adminBypass <;> simp [this]
    · simp only [hread, harchived, ne_eq, not_false_eq_true, if_true, if_false, Bool.false_eq_true, false_or,
        reduceCtorEq, false_iff, not_forall, not_not]
      rw [archivedNames_eq_nil] at harchived
      push Not at harchived
      obtain ⟨v, hv, hs⟩ := harchived
      exact ⟨v, hv, Or.inl hs⟩

end Akb.Sql
