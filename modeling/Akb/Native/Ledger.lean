import Akb.Library.Table
import Akb.Library.PyText
import Mathlib.Data.BitVec

/-! The rows of the native Resource and Revision ledger. -/
namespace Akb.Native
open Akb.Library

abbrev Uuid := BitVec 128

def hexDigit (n : BitVec 4) : Char := "0123456789abcdef".toList.getD n.toNat '0'

/-- The hex digits of a UUID, the highest first. -/
def Uuid.digits (u : Uuid) : List Char := (List.range 32).map (fun i => hexDigit (u.extractLsb' (4 * (31 - i)) 4))

/-- `str(uuid)`. -/
def Uuid.str (u : Uuid) : String :=
  let d := u.digits
  String.ofList (d.take 8 ++ '-' :: (d.drop 8).take 4 ++ '-' :: (d.drop 12).take 4 ++
    '-' :: (d.drop 16).take 4 ++ '-' :: d.drop 20)

/-- Payloads are compared byte by byte. -/
instance decidableEqBytes : DecidableEq ByteArray := ByteArray.instDecidableEq

/-- `_validate_expected_revision` and the column's own check. -/
def isRevisionId (text : String) : Bool :=
  text.length == 40 && text.toList.all (fun c => "0123456789abcdef".toList.contains c)

structure RevisionId where
  text : String
  shape : isRevisionId text
  deriving DecidableEq

inductive Surface where
  | document
  | file
  deriving DecidableEq

def Surface.text : Surface → String
  | .document => "document"
  | .file => "file"

inductive Lifecycle where
  | live
  | deleted
  deriving DecidableEq

inductive Action where
  | create
  | replace
  | move
  | delete
  deriving DecidableEq

def Action.text : Action → String
  | .create => "create"
  | .replace => "replace"
  | .move => "move"
  | .delete => "delete"

/-- A row of `native_resources`. -/
structure Resource where
  resourceId : Uuid
  namespaceId : Uuid
  surface : Surface
  contentProfile : String
  currentPath : String
  lifecycle : Lifecycle
  headRevisionId : Option RevisionId
  createdAt : Int
  updatedAt : Int
  deriving DecidableEq

/-- A row of `native_payload_manifests`. -/
structure Manifest where
  payloadManifestId : Uuid
  namespaceId : Uuid
  resourceId : Uuid
  contentProfile : String
  digest : String
  byteSize : Nat
  encoding : String
  selectedPlacement : String
  privateLocator : Uuid
  verificationProfile : String
  createdAt : Int
  deriving DecidableEq

/-- A row of `native_revisions`. -/
structure Revision where
  revisionId : RevisionId
  namespaceId : Uuid
  resourceId : Uuid
  parentRevisionId : Option RevisionId
  action : Action
  pathAtRevision : String
  pathFrom : Option String
  pathTo : Option String
  payloadManifestId : Option Uuid
  mutationId : Uuid
  requestFingerprint : String
  message : Option String
  subject : Option String
  summary : Option String
  actor : String
  occurredAt : Int
  deriving DecidableEq

/-- A row of `native_resource_path_aliases`. -/
structure PathAlias where
  aliasId : Uuid
  namespaceId : Uuid
  surface : Surface
  oldPath : String
  resourceId : Uuid
  createdRevisionId : RevisionId
  retiredRevisionId : Option RevisionId
  createdAt : Int
  retiredAt : Option Int
  deriving DecidableEq

structure Ledger where
  resources : Table Resource Resource.resourceId
  manifests : Table Manifest Manifest.payloadManifestId
  revisions : Table Revision Revision.revisionId
  aliases : Table PathAlias PathAlias.aliasId

def Ledger.empty : Ledger := ⟨.empty, .empty, .empty, .empty⟩

def Resource.Live (r : Resource) : Prop := r.lifecycle = .live

instance : DecidablePred Resource.Live := fun r => inferInstanceAs (Decidable (r.lifecycle = .live))

def PathAlias.Live (a : PathAlias) : Prop := a.retiredRevisionId = none

instance : DecidablePred PathAlias.Live := fun a => inferInstanceAs (Decidable (a.retiredRevisionId = none))

inductive NativeError where
  | validation (message : String)
  | conflict (message : String)
  | revisionIdCollision
  | referenceAmbiguous (reference : String)
  | notFound (identifier : String)
  | payloadIntegrity (message : String)
  | missingManifest (payloadManifestId : Uuid)
  | uniqueViolation (constraint : String)
  | checkViolation (constraint : String)
  | unreadablePayload
  deriving DecidableEq

/-- The errors that are a `ConflictError`. -/
def NativeError.isConflict : NativeError → Bool
  | .conflict _ => true
  | .revisionIdCollision => true
  | .referenceAmbiguous _ => true
  | _ => false

private theorem hexDigit_injective : Function.Injective hexDigit := by
  intro a b
  revert a b
  decide

theorem Uuid.digits_injective : Function.Injective Uuid.digits := by
  intro u v h
  have hdigit : ∀ i < 32, u.extractLsb' (4 * (31 - i)) 4 = v.extractLsb' (4 * (31 - i)) 4 := by
    intro i hi
    exact hexDigit_injective (List.map_inj_left.mp h i (List.mem_range.mpr hi))
  apply BitVec.eq_of_getLsbD_eq
  intro k hk
  have hd := congrArg (fun n => n.getLsbD (k % 4)) (hdigit (31 - k / 4) (by omega))
  simp only [BitVec.getLsbD_extractLsb'] at hd
  have hpos : 4 * (31 - (31 - k / 4)) + k % 4 = k := by omega
  rw [hpos] at hd
  simpa [Nat.mod_lt] using hd

private theorem join_groups (d : List Char) :
    d.take 8 ++ ((d.drop 8).take 4 ++ ((d.drop 12).take 4 ++ ((d.drop 16).take 4 ++ d.drop 20))) = d := by
  rw [show d.drop 20 = (d.drop 16).drop 4 by simp, List.take_append_drop,
    show d.drop 16 = (d.drop 12).drop 4 by simp, List.take_append_drop,
    show d.drop 12 = (d.drop 8).drop 4 by simp, List.take_append_drop, List.take_append_drop]

/-- Dropping the dashes gives the digits back. -/
theorem Uuid.filter_str (u : Uuid) : u.str.toList.filter (fun c => c ≠ '-') = u.digits := by
  have hdash : ∀ n : BitVec 4, hexDigit n ≠ '-' := by decide
  have hall : ∀ c ∈ u.digits, c ≠ '-' := by
    intro c hc
    obtain ⟨i, _, rfl⟩ := List.mem_map.mp hc
    exact hdash _
  have hkeep (l : List Char) (hl : ∀ c ∈ l, c ∈ u.digits) : l.filter (fun c => c ≠ '-') = l :=
    List.filter_eq_self.mpr (fun c hc => by simpa using hall c (hl c hc))
  simp only [Uuid.str, String.toList_ofList, List.filter_append, List.filter_cons, ne_eq, not_true_eq_false,
    decide_false, Bool.false_eq_true, if_false, List.append_assoc]
  have htake (n m : Nat) : ∀ c ∈ (u.digits.drop n).take m, c ∈ u.digits :=
    fun c hc => List.mem_of_mem_drop (List.mem_of_mem_take hc)
  rw [hkeep _ (fun c hc => List.mem_of_mem_take hc), hkeep _ (htake 8 4), hkeep _ (htake 12 4), hkeep _ (htake 16 4),
    hkeep _ (fun c hc => List.mem_of_mem_drop hc)]
  exact join_groups u.digits

theorem Uuid.str_injective : Function.Injective Uuid.str := by
  intro u v h
  apply Uuid.digits_injective
  rw [← u.filter_str, ← v.filter_str, h]

end Akb.Native
