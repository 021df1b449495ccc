import Akb.Native.Ledger
import Akb.Access.Roles

/-! The names of the PostgreSQL roles that stand for users, vault groups and tokens. -/
namespace Akb.RoleSync
open Akb.Library Akb.Native

/-- The scopes of a vault group. -/
inductive Scope where
  | reader
  | writer
  | admin
  deriving DecidableEq

def Scope.text : Scope → String
  | .reader => "reader"
  | .writer => "writer"
  | .admin => "admin"

def Scope.all : List Scope := [.reader, .writer, .admin]

theorem Scope.mem_all (scope : Scope) : scope ∈ Scope.all := by cases scope <;> decide

theorem Scope.text_injective : Function.Injective Scope.text := by
  intro a b h
  cases a <;> cases b <;> first | rfl | exact absurd h (by decide)

def swap (a b : Char) (text : List Char) : List Char := text.map (fun c => if c = a then b else c)

/-- `str(id).replace('-', '_')`. -/
def underscored (id : Uuid) : List Char := swap '-' '_' id.str.toList

def authenticatedRole : String := "akb_authenticated"

def userRoleName (userId : Uuid) : String := String.ofList ("akb_user_".toList ++ underscored userId)

def vaultGroupRoleName (vaultId : Uuid) (scope : Scope) : String :=
  String.ofList ("akb_vault_".toList ++ (underscored vaultId ++ '_' :: scope.text.toList))

def tokenRoleName (tokenId : Uuid) : String := String.ofList ("akb_token_".toList ++ underscored tokenId)

def hexDigitValue (c : Char) : Option Nat := "0123456789abcdef".toList.idxOf? c.toLower

/-- `uuid.UUID(text)`, none where it raises. Of the spellings Python takes besides this one, none is
the canonical text of the value. -/
def uuidOf (text : List Char) : Option Uuid :=
  let hex := text.filter (fun c => c ≠ '-')
  if hex.length = 32 then
    (hex.foldlM (fun n c => (hexDigitValue c).map (fun d => 16 * n + d)) 0).map (BitVec.ofNat 128)
  else none

inductive Kind where
  | user
  | vault
  | token
  deriving DecidableEq

def Kind.leading : Kind → String
  | .user => "akb_user_"
  | .vault => "akb_vault_"
  | .token => "akb_token_"

/-- `text.rsplit("_", 1)` into two parts. -/
def rsplit (text : List Char) : Option (List Char × List Char) :=
  let last := text.reverse.takeWhile (fun c => c ≠ '_')
  match text.reverse.dropWhile (fun c => c ≠ '_') with
  | [] => none
  | _ :: front => some (front.reverse, last.reverse)

/-- The suffix reads as a UUID, and the role is spelled canonically. -/
def isCanonical (role : String) (leading : String) (suffix rest : List Char) : Bool :=
  (uuidOf (swap '_' '-' suffix)).any (fun id =>
    decide (role = String.ofList (leading.toList ++ (underscored id ++ rest))))

/-- Only exact UUID identifiers belong to the managed role namespace. -/
def isCatalogRole (role : String) (kind : Kind) : Bool :=
  let leading := kind.leading.toList
  if !leading.isPrefixOf role.toList then false
  else
    let suffix := role.toList.drop leading.length
    match kind with
    | .vault =>
      match rsplit suffix with
      | none => false
      | some (id, scope) =>
        Scope.all.any (fun s => s.text.toList = scope) && isCanonical role kind.leading id ('_' :: scope)
    | .user | .token => isCanonical role kind.leading suffix []

/-! ### The names are read back -/

private theorem digit_ne {u : Uuid} {c : Char} (hc : c ∈ u.digits) : c ≠ '-' ∧ c ≠ '_' := by
  have hall : ∀ n : BitVec 4, hexDigit n ≠ '-' ∧ hexDigit n ≠ '_' := by decide
  obtain ⟨i, -, rfl⟩ := List.mem_map.mp hc
  exact hall _

private theorem str_chars (u : Uuid) : ∀ c ∈ u.str.toList, c ≠ '_' := by
  intro c hc
  by_cases hdash : c = '-'
  · rw [hdash]
    decide
  · have hmem : c ∈ u.str.toList.filter (fun c => c ≠ '-') := List.mem_filter.mpr ⟨hc, by simpa using hdash⟩
    rw [u.filter_str] at hmem
    exact (digit_ne hmem).2

theorem swap_underscored (u : Uuid) : swap '_' '-' (underscored u) = u.str.toList := by
  rw [underscored, swap, swap, List.map_map]
  refine (List.map_congr_left (fun c hc => ?_)).trans (List.map_id _)
  have hne := str_chars u c hc
  by_cases hdash : c = '-'
  · simp [hdash]
  · simp [hdash, hne]

theorem underscored_injective : Function.Injective underscored := by
  intro u v h
  have hstr := congrArg (swap '_' '-') h
  rw [swap_underscored, swap_underscored] at hstr
  exact Uuid.str_injective (String.ext hstr)

private theorem hexDigitValue_hexDigit (n : BitVec 4) : hexDigitValue (hexDigit n) = some n.toNat := by
  revert n
  decide

private theorem digits_length (u : Uuid) : u.digits.length = 32 := by
  rw [Uuid.digits, List.length_map, List.length_range]

/-- The first digits of a UUID have the value of its upper bits. -/
private theorem digits_value (u : Uuid) (k : Nat) (hk : k ≤ 32) :
    ((List.range k).map (fun i => hexDigit (u.extractLsb' (4 * (31 - i)) 4))).foldlM
      (fun n c => (hexDigitValue c).map (fun d => 16 * n + d)) 0 = some (u.toNat / 16 ^ (32 - k)) := by
  induction k with
  | zero =>
    have hlt : u.toNat < 16 ^ 32 := u.isLt
    rw [List.range_zero, List.map_nil, List.foldlM_nil, Nat.div_eq_of_lt hlt]
    rfl
  | succ k ih =>
    rw [List.range_succ, List.map_append, List.foldlM_append, ih (by omega), Option.bind_eq_bind, Option.bind_some,
      List.map_singleton, List.foldlM_cons, hexDigitValue_hexDigit]
    have hpow : 16 ^ (32 - k) = 16 ^ (32 - (k + 1)) * 16 := by
      rw [← pow_succ]
      congr 1
      omega
    have hdigit : (u.extractLsb' (4 * (31 - k)) 4).toNat = u.toNat / 16 ^ (32 - (k + 1)) % 16 := by
      rw [BitVec.extractLsb'_toNat, Nat.shiftRight_eq_div_pow, show (16 : Nat) = 2 ^ 4 by norm_num, ← pow_mul]
      congr 3
      omega
    rw [hdigit, hpow, ← Nat.div_div_eq_div_mul]
    simp only [Option.map_some, Option.bind_eq_bind, Option.bind_some, List.foldlM_nil, Option.pure_def,
      Option.some.injEq]
    exact Nat.div_add_mod _ 16

theorem uuidOf_str (u : Uuid) : uuidOf u.str.toList = some u := by
  have hvalue := digits_value u 32 (Nat.le_refl 32)
  rw [uuidOf, u.filter_str]
  simp only [digits_length, if_true]
  rw [show u.digits = (List.range 32).map (fun i => hexDigit (u.extractLsb' (4 * (31 - i)) 4)) from rfl, hvalue]
  simp

private theorem scope_chars (scope : Scope) : ∀ c ∈ scope.text.toList, c ≠ '_' := by
  cases scope <;> decide

private theorem rsplit_scope (front : List Char) (scope : Scope) :
    rsplit (front ++ '_' :: scope.text.toList) = some (front, scope.text.toList) := by
  have hscope : ∀ c ∈ scope.text.toList.reverse, (decide (c ≠ '_')) = true :=
    fun c hc => by simpa using scope_chars scope c (List.mem_reverse.mp hc)
  rw [rsplit, List.reverse_append, List.reverse_cons, List.append_assoc, List.singleton_append]
  simp only [List.takeWhile_append_of_pos hscope, List.dropWhile_append_of_pos hscope]
  simp

theorem isCanonical_iff {role leading : String} {suffix rest : List Char} :
    isCanonical role leading suffix rest = true ↔ ∃ u, uuidOf (swap '_' '-' suffix) = some u ∧
      role = String.ofList (leading.toList ++ (underscored u ++ rest)) := by
  rw [isCanonical]
  cases h : uuidOf (swap '_' '-' suffix) with
  | none => simp
  | some u =>
    simp only [Option.any_some, decide_eq_true_eq, Option.some.injEq]
    constructor
    · exact fun hu => ⟨u, rfl, hu⟩
    · rintro ⟨v, rfl, hrole⟩
      exact hrole

/-- A canonical name passes the test of its leading part. -/
private theorem isCatalogRole_ofList (kind : Kind) (suffix : List Char) :
    isCatalogRole (String.ofList (kind.leading.toList ++ suffix)) kind =
      (match kind with
      | .vault =>
        match rsplit suffix with
        | none => false
        | some (id, scope) => Scope.all.any (fun s => s.text.toList = scope) &&
            isCanonical (String.ofList (kind.leading.toList ++ suffix)) kind.leading id ('_' :: scope)
      | .user | .token => isCanonical (String.ofList (kind.leading.toList ++ suffix)) kind.leading suffix []) := by
  have hpre : kind.leading.toList.isPrefixOf (kind.leading.toList ++ suffix) = true :=
    List.isPrefixOf_iff_prefix.mpr (List.prefix_append _ _)
  rw [isCatalogRole, String.toList_ofList, hpre, Bool.not_true, if_neg Bool.false_ne_true, List.drop_left]

theorem isCatalogRole_user {role : String} : isCatalogRole role .user = true ↔ ∃ u, role = userRoleName u := by
  constructor
  · intro h
    rw [isCatalogRole] at h
    split at h
    · cases h
    · obtain ⟨u, -, hu⟩ := isCanonical_iff.mp h
      rw [List.append_nil] at hu
      exact ⟨u, hu⟩
  · rintro ⟨u, rfl⟩
    refine (isCatalogRole_ofList .user (underscored u)).trans (isCanonical_iff.mpr ⟨u, ?_, ?_⟩)
    · rw [swap_underscored, uuidOf_str]
    · rw [List.append_nil]

theorem isCatalogRole_token {role : String} : isCatalogRole role .token = true ↔ ∃ u, role = tokenRoleName u := by
  constructor
  · intro h
    rw [isCatalogRole] at h
    split at h
    · cases h
    · obtain ⟨u, -, hu⟩ := isCanonical_iff.mp h
      rw [List.append_nil] at hu
      exact ⟨u, hu⟩
  · rintro ⟨u, rfl⟩
    refine (isCatalogRole_ofList .token (underscored u)).trans (isCanonical_iff.mpr ⟨u, ?_, ?_⟩)
    · rw [swap_underscored, uuidOf_str]
    · rw [List.append_nil]

theorem isCatalogRole_vault {role : String} :
    isCatalogRole role .vault = true ↔ ∃ v scope, role = vaultGroupRoleName v scope := by
  constructor
  · intro h
    rw [isCatalogRole] at h
    split at h
    · cases h
    · simp only at h
      split at h
      · cases h
      · rename_i id scope _
        obtain ⟨hscope, hcanonical⟩ := Bool.and_eq_true_iff.mp h
        obtain ⟨s, -, hs⟩ := List.any_eq_true.mp hscope
        obtain ⟨v, -, hv⟩ := isCanonical_iff.mp hcanonical
        rw [← of_decide_eq_true hs] at hv
        exact ⟨v, s, hv⟩
  · rintro ⟨v, scope, rfl⟩
    refine (isCatalogRole_ofList .vault (underscored v ++ '_' :: scope.text.toList)).trans ?_
    simp only [rsplit_scope, Bool.and_eq_true]
    refine ⟨List.any_eq_true.mpr ⟨scope, scope.mem_all, decide_eq_true rfl⟩, isCanonical_iff.mpr ⟨v, ?_, rfl⟩⟩
    rw [swap_underscored, uuidOf_str]

/-! ### No two roles share a name -/

private theorem ofList_injective {a b : List Char} (h : String.ofList a = String.ofList b) : a = b := by
  have := congrArg String.toList h
  rwa [String.toList_ofList, String.toList_ofList] at this

private theorem underscored_length (u : Uuid) : (underscored u).length = u.str.toList.length := by
  rw [underscored, swap, List.length_map]

theorem userRoleName_injective : Function.Injective userRoleName := by
  intro u v h
  exact underscored_injective (List.append_cancel_left (ofList_injective h))

theorem tokenRoleName_injective : Function.Injective tokenRoleName := by
  intro u v h
  exact underscored_injective (List.append_cancel_left (ofList_injective h))

theorem vaultGroupRoleName_inj {v w : Uuid} {s t : Scope} (h : vaultGroupRoleName v s = vaultGroupRoleName w t) :
    v = w ∧ s = t := by
  have hlen (u : Uuid) : (underscored u).length = 36 := by
    rw [underscored_length, Uuid.str, String.toList_ofList]
    simp [digits_length]
  obtain ⟨hid, hscope⟩ := List.append_inj (List.append_cancel_left (ofList_injective h)) ((hlen v).trans (hlen w).symm)
  exact ⟨underscored_injective hid, Scope.text_injective (String.ext (List.cons.inj hscope).2)⟩

private theorem ne_of_take {a b x y : List Char} (h : a.take 5 ≠ b.take 5) (ha : 5 ≤ a.length) (hb : 5 ≤ b.length) :
    String.ofList (a ++ x) ≠ String.ofList (b ++ y) := by
  intro he
  have htake := congrArg (List.take 5) (ofList_injective he)
  rw [List.take_append_of_le_length ha, List.take_append_of_le_length hb] at htake
  exact h htake

theorem group_ne_user (v u : Uuid) (s : Scope) : vaultGroupRoleName v s ≠ userRoleName u :=
  ne_of_take (by decide) (by decide) (by decide)

theorem group_ne_token (v t : Uuid) (s : Scope) : vaultGroupRoleName v s ≠ tokenRoleName t :=
  ne_of_take (by decide) (by decide) (by decide)

theorem user_ne_token (u t : Uuid) : userRoleName u ≠ tokenRoleName t :=
  ne_of_take (by decide) (by decide) (by decide)

private theorem ne_authenticated {a x : List Char} (h : a.take 5 ≠ "akb_a".toList) (ha : 5 ≤ a.length) :
    String.ofList (a ++ x) ≠ authenticatedRole :=
  fun he => ne_of_take (b := "akb_a".toList) (y := "uthenticated".toList) h ha (by decide) he

theorem user_ne_authenticated (u : Uuid) : userRoleName u ≠ authenticatedRole :=
  ne_authenticated (by decide) (by decide)

theorem token_ne_authenticated (t : Uuid) : tokenRoleName t ≠ authenticatedRole :=
  ne_authenticated (by decide) (by decide)

theorem group_ne_authenticated (v : Uuid) (s : Scope) : vaultGroupRoleName v s ≠ authenticatedRole :=
  ne_authenticated (by decide) (by decide)

-- Names are only compared through the lemmas above.
attribute [irreducible] userRoleName vaultGroupRoleName tokenRoleName authenticatedRole isCatalogRole

end Akb.RoleSync
