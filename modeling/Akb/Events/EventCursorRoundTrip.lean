import Akb.Browse.Cursor
import Akb.Events.RetentionGap
import Mathlib.Data.List.Sort

/-! The sealed position of an event tail: AES-SIV over the JSON of vault, kinds and position, in base64. -/
namespace Akb.Events
open Akb.Library Akb.Browse

/-- What the code takes from outside: the standard library, the hash, the cipher, and whether a float is `1`. The
cipher has no value where it raises. -/
structure SealLibrary where
  python : Python
  sha512 : List UInt8 → BitVec 512
  encrypt : BitVec 512 → List UInt8 → List (List UInt8) → Option (List UInt8)
  decrypt : BitVec 512 → List UInt8 → List (List UInt8) → Option (List UInt8)
  floatIsOne : Json.FloatRepr → Bool

/-- AES-SIV as it is documented: 16 bytes of tag, at most `2 ^ 31 - 1` bytes of data, and decryption inverts. -/
structure SealLibrary.Seals (lib : SealLibrary) : Prop where
  length : ∀ key data aad sealed, lib.encrypt key data aad = some sealed → sealed.length = data.length + 16
  inverts : ∀ key data aad, data ≠ [] → data.length < 2 ^ 31 →
    ∃ sealed, lib.encrypt key data aad = some sealed ∧ lib.decrypt key sealed aad = some data

inductive CursorError where
  | secretRequired
  | invalidCursor
  | intDigits
  | cipher
  deriving DecidableEq

def cursorPrefix : Text := "ec1.".toList

def cursorAad : List UInt8 := utf8 "akb-event-cursor-v1".toList

def maxTokenLength : Nat := 4096

/-- `sys.get_int_max_str_digits()`. -/
def intMaxStrDigits : Nat := 4300

/-- The rest of a kind; `closed` says that it may end here. -/
def isKindRest : Bool → Text → Bool
  | closed, [] => closed
  | closed, c :: s =>
    if c.isAlphanum then isKindRest true s else closed && c ∈ ['.', '_', ':', '-'] && isKindRest false s

/-- `_KIND_PATTERN.fullmatch`. -/
def isKind : Text → Bool
  | [] => false
  | c :: s => c.isAlpha && isKindRest true s

def canonicalKinds (values : List String) : Except CursorError (List String) :=
  if ∀ value ∈ values, isKind value.toList then .ok (values.dedup.insertionSort (· ≤ ·)) else .error .invalidCursor

def normalizeKindFilter (values : Option (List String)) : Except CursorError (List String) :=
  match values with
  | none => .ok []
  | some values => canonicalKinds values

/-- `EventCursorCodec.__init__`: the key of a secret. -/
def cursorKey (lib : SealLibrary) (secret : String) : Except CursorError (BitVec 512) :=
  if secret = "" then .error .secretRequired else .ok (lib.sha512 (cursorAad ++ 0 :: utf8 secret.toList))

/-- `_canonical_uuid` of a decoded value; no other value has a text of 32 hex digits. -/
def canonicalUuid (lib : SealLibrary) : Json.Value → Option Uuid
  | .str s => parseUuid lib.python s.toList
  | .int n => parseUuid lib.python (Json.renderInt n)
  | _ => none

def cursorPayload (vaultId : Uuid) (kinds : List String) (position : Int) : Json.Value :=
  .dict [("kinds", .list (kinds.map .str)), ("position", .int position), ("vault", .str vaultId.str), ("version", .int 1)]

def encodeEventCursor (lib : SealLibrary) (key : BitVec 512) (vaultId : Uuid) (kinds : List String) (position : Int) :
    Except CursorError Text := do
  refuse (position < 0) .invalidCursor
  let canonical ← canonicalKinds kinds
  refuse (intMaxStrDigits < (Nat.toDigits 10 position.natAbs).length) .intDigits
  -- The kinds are ASCII, so `ensure_ascii` writes what `render` does.
  let payload := ((cursorPayload vaultId canonical position).render 0).getD []
  let sealed ← found (lib.encrypt key (utf8 payload) [cursorAad]) .cipher
  return cursorPrefix ++ Base64.encode sealed

/-- `_decode_bytes`. -/
def decodeBytes (value : Text) : Option (List UInt8) :=
  if value ≠ [] ∧ ∀ c ∈ value, c ∈ Base64.alphabet then Base64.decode value else none

/-- `value == 1` of Python. -/
def equalsOne (lib : SealLibrary) : Json.Value → Bool
  | .int n => n == 1
  | .bool b => b
  | .float x => lib.floatIsOne x
  | _ => false

def readText : Json.Value → Option String
  | .str s => some s
  | _ => none

/-- The kinds of a payload, which must stand there in their canonical form. -/
def readKinds : Json.Value → Option (List String)
  | .list items => do
    let values ← items.mapM readText
    if canonicalKinds values = .ok values then some values else none
  | _ => none

def readPositionOf : Json.Value → Option Nat
  | .int n => if 0 ≤ n then some n.toNat else none
  | _ => none

def payloadKeys : List String := ["kinds", "position", "vault", "version"]

def readPayload (lib : SealLibrary) : Json.Value → Option (Uuid × List String × Nat)
  | .dict fields =>
    if (∀ key ∈ payloadKeys, (fields.lookup key).isSome) ∧ ∀ field ∈ fields, field.1 ∈ payloadKeys then do
      let version ← fields.lookup "version"
      if equalsOne lib version then
        let vaultId ← (fields.lookup "vault").bind (canonicalUuid lib)
        let position ← (fields.lookup "position").bind readPositionOf
        let kinds ← (fields.lookup "kinds").bind readKinds
        some (vaultId, kinds, position)
      else none
    else none
  | _ => none

/-- `EventCursorCodec.decode`, none for its one error. -/
def decodeEventCursor (lib : SealLibrary) (key : BitVec 512) (token : Text) : Option (Uuid × List String × Nat) :=
  if ¬ cursorPrefix <+: token ∨ maxTokenLength < token.length then none
  else do
    let raw ← decodeBytes (token.drop cursorPrefix.length)
    if raw.length ≤ 16 then none
    else
      let payload ← lib.decrypt key raw [cursorAad]
      readPayload lib (← loadsBytes lib.python payload)

/-- The codec of a tail; where `encode` raises no cursor is sent. -/
def eventCursorCodec (lib : SealLibrary) (key : BitVec 512) : EventCursorCodec Uuid where
  encode vaultId kinds position :=
    match encodeEventCursor lib key vaultId kinds position with
    | .ok token => String.ofList token
    | .error _ => ""
  decode token := decodeEventCursor lib key token.toList

end Akb.Events

/-! Which event cursors are accepted back: those of at most 4096 characters. -/
namespace Akb.Events
open Akb.Library Akb.Browse

/-! ### Kinds -/

theorem mem_isKindRest {closed : Bool} {s : Text} (h : isKindRest closed s) :
    ∀ c ∈ s, c.isAlphanum ∨ c ∈ ['.', '_', ':', '-'] := by
  induction s generalizing closed with
  | nil => simp
  | cons d s ih =>
    rw [isKindRest] at h
    split at h
    · rename_i hd
      exact List.forall_mem_cons.mpr ⟨Or.inl hd, ih h⟩
    · simp only [Bool.and_eq_true, decide_eq_true_eq] at h
      exact List.forall_mem_cons.mpr ⟨Or.inr h.1.2, ih h.2⟩

theorem alphanum_unescaped {c : Char} (h : c.isAlphanum) : Json.escapeChar c = [c] ∧ c.utf8Size = 1 := by
  have hrange : 48 ≤ c.toNat ∧ c.toNat ≤ 122 ∧ c.toNat ≠ 92 := by
    have hletters : 'A'.toNat = 65 ∧ 'Z'.toNat = 90 ∧ 'a'.toNat = 97 ∧ 'z'.toNat = 122 ∧ '0'.toNat = 48 ∧
        '9'.toNat = 57 := by decide
    have hval (d : Char) : d.val.toNat = d.toNat := rfl
    simp only [Char.isAlphanum, PyText.isAlpha_def, PyText.isUpper_def, PyText.isLower_def, Char.isDigit, Bool.or_eq_true,
      Bool.and_eq_true, decide_eq_true_eq, ge_iff_le, UInt32.le_iff_toNat_le, hval, hletters] at h
    omega
  have hne {d : Char} (hd : d.toNat < 48 ∨ d.toNat = 92) : c ≠ d := by
    rintro rfl
    omega
  constructor
  · unfold Json.escapeChar
    rw [if_neg (hne (by decide)), if_neg (hne (by decide)), if_neg (hne (by decide)), if_neg (hne (by decide)),
      if_neg (hne (by decide)), if_neg (hne (by decide)), if_neg (hne (by decide)), if_neg (by omega)]
  · have hsmall : c.toNat ≤ 127 := by omega
    exact if_pos (show c.val ≤ 127 from UInt32.le_iff_toNat_le.mpr hsmall)

theorem kind_unescaped {s : Text} (h : isKind s) : ∀ c ∈ s, Json.escapeChar c = [c] ∧ c.utf8Size = 1 := by
  have hmark : ∀ c ∈ ['.', '_', ':', '-'], Json.escapeChar c = [c] ∧ c.utf8Size = 1 := by decide
  cases s with
  | nil => simp
  | cons d s =>
    rw [isKind, Bool.and_eq_true] at h
    refine List.forall_mem_cons.mpr ⟨alphanum_unescaped ?_, fun c hc => ?_⟩
    · rw [Char.isAlphanum, h.1, Bool.true_or]
    · exact (mem_isKindRest h.2 c hc).elim alphanum_unescaped (hmark c)

theorem canonicalKinds_ok {values kinds : List String} (h : canonicalKinds values = .ok kinds) :
    (∀ kind ∈ kinds, isKind kind.toList) ∧ kinds = values.dedup.insertionSort (· ≤ ·) := by
  unfold canonicalKinds at h
  split at h
  · rename_i hall
    obtain rfl := Except.ok.inj h
    exact ⟨fun kind hk => hall kind (List.mem_dedup.mp (List.mem_insertionSort _ |>.mp hk)), rfl⟩
  · cases h

/-- The canonical kinds are their own canonical form. -/
theorem canonicalKinds_idem {values kinds : List String} (h : canonicalKinds values = .ok kinds) :
    canonicalKinds kinds = .ok kinds := by
  obtain ⟨hall, hkinds⟩ := canonicalKinds_ok h
  have hnodup : kinds.Nodup := by
    rw [hkinds]
    exact (List.perm_insertionSort _ _).nodup_iff.mpr (List.nodup_dedup values)
  have hsorted : kinds.Pairwise (· ≤ ·) := by
    rw [hkinds]
    exact List.pairwise_insertionSort _ _
  rw [canonicalKinds, if_pos hall, hnodup.dedup, hsorted.insertionSort_eq]

/-! ### The payload -/

theorem distinct_cursorPayload (vaultId : Uuid) (kinds : List String) (position : Int) :
    (cursorPayload vaultId kinds position).Distinct := by
  have hitems : Json.DistinctItems (kinds.map .str) := by
    induction kinds with
    | nil => trivial
    | cons kind kinds ih => exact ⟨trivial, ih⟩
  have hkeys : ["kinds", "position", "vault", "version"].Nodup := by decide
  exact ⟨hkeys, hitems, trivial, trivial, trivial, trivial⟩

theorem mapM_readText (kinds : List String) : (kinds.map Json.Value.str).mapM readText = some kinds := by
  induction kinds with
  | nil => rfl
  | cons kind kinds ih => rw [List.map_cons, List.mapM_cons, ih]; rfl

theorem readKinds_canonical {values kinds : List String} (h : canonicalKinds values = .ok kinds) :
    readKinds (.list (kinds.map .str)) = some kinds := by
  rw [readKinds, mapM_readText]
  exact if_pos (canonicalKinds_idem h)

theorem readPayload_cursor (lib : SealLibrary) (vaultId : Uuid) {values kinds : List String}
    (h : canonicalKinds values = .ok kinds) (position : Nat) :
    readPayload lib (cursorPayload vaultId kinds position) = some (vaultId, kinds, position) := by
  have hposition : readPositionOf (.int position) = some position := by
    rw [readPositionOf, if_pos (Int.natCast_nonneg position), Int.toNat_natCast]
  have hvault : canonicalUuid lib (.str vaultId.str) = some vaultId := parseUuid_str lib.python vaultId
  have hkinds := readKinds_canonical h
  simp only [cursorPayload, readPayload]
  rw [if_pos (by simp [payloadKeys, List.lookup_cons])]
  simp [List.lookup_cons, equalsOne, hvault, hposition, hkinds]

/-- The kinds of a payload in its JSON text, with the bracket behind them. -/
def kindsText : List String → Text
  | [] => [']']
  | [kind] => Json.renderString kind ++ [']']
  | kind :: kinds => Json.renderString kind ++ [','] ++ kindsText kinds

def payloadText (vaultId : Uuid) (kinds : List String) (position : Nat) : Text :=
  '{' :: '"' :: ("kinds\":[".toList ++ kindsText kinds ++ ",\"position\":".toList ++ Nat.toDigits 10 position ++
    ",\"vault\":".toList ++ Json.renderString vaultId.str ++ ",\"version\":1\x7d".toList)

theorem renderItems_kinds (kinds : List String) : Json.renderItems 0 (kinds.map .str) = some (kindsText kinds) := by
  induction kinds with
  | nil => rfl
  | cons kind kinds ih =>
    cases kinds with
    | nil => rfl
    | cons next kinds =>
      rw [List.map_cons, List.map_cons, Json.renderItems, ← List.map_cons, ih]
      · rfl
      · rintro ⟨⟩

theorem render_cursorPayload (vaultId : Uuid) (kinds : List String) (position : Nat) :
    (cursorPayload vaultId kinds position).render 0 = some (payloadText vaultId kinds position) := by
  have hint : Json.renderInt position = Nat.toDigits 10 position := by
    rw [Json.renderInt, if_neg (by omega), Int.natAbs_natCast]
  have hkeys : Json.renderString "kinds" = "\"kinds\"".toList ∧ Json.renderString "position" = "\"position\"".toList ∧
      Json.renderString "vault" = "\"vault\"".toList ∧ Json.renderString "version" = "\"version\"".toList ∧
      Json.renderInt 1 = ['1'] := by decide
  simp only [cursorPayload, Json.Value.render, Json.renderFields, renderItems_kinds, hint, hkeys, Json.separator,
    List.replicate_zero, Option.map_some, Option.bind_eq_bind, Option.bind_some, Option.pure_def, payloadText]
  simp

/-! ### The length of a cursor -/

/-- What the kinds and the position take of the payload. -/
def scopeLength (kinds : List String) (position : Nat) : Nat :=
  ((kinds.map (fun kind => kind.length + 3)).sum - 1) + (Nat.toDigits 10 position).length

def maxScopeLength : Nat := 2970

theorem utf8Length_kinds {kinds : List String} (h : ∀ kind ∈ kinds, isKind kind.toList) :
    Uri.utf8Length (kindsText kinds) = (kinds.map (fun kind => kind.length + 3)).sum - 1 + 1 := by
  have hmarks : Uri.utf8Length [','] = 1 ∧ Uri.utf8Length [']'] = 1 := by decide
  have hkind : ∀ kind ∈ kinds, Uri.utf8Length (Json.renderString kind) = kind.length + 2 := by
    intro kind hk
    have hescaped := escapedBytes_unescaped (kind_unescaped (h kind hk))
    rwa [escapedBytes, String.ofList_toList, String.length_toList] at hescaped
  clear h
  induction kinds with
  | nil => exact hmarks.2
  | cons kind kinds ih =>
    rw [List.forall_mem_cons] at hkind
    have hrest := ih hkind.2
    cases kinds with
    | nil => simp [kindsText, utf8Length_append, hkind.1, hmarks]
    | cons next kinds =>
      have hpositive : 3 ≤ ((next :: kinds).map (fun kind => kind.length + 3)).sum := by
        rw [List.map_cons, List.sum_cons]
        omega
      rw [kindsText, utf8Length_append, utf8Length_append, hkind.1, hmarks.1, hrest, List.map_cons (a := kind), List.sum_cons]
      · omega
      · rintro ⟨⟩

theorem utf8Length_digits (n : Nat) : Uri.utf8Length (Nat.toDigits 10 n) = (Nat.toDigits 10 n).length := by
  refine utf8Length_single fun c hc => (alphanum_unescaped ?_).2
  have hdigit : c.isDigit := Nat.isDigit_of_mem_toDigits (by decide) (by decide) hc
  rw [Char.isAlphanum, hdigit, Bool.or_true]

theorem utf8Length_payload (vaultId : Uuid) {kinds : List String} (h : ∀ kind ∈ kinds, isKind kind.toList)
    (position : Nat) : Uri.utf8Length (payloadText vaultId kinds position) = 83 + scopeLength kinds position := by
  have hvault := escapedBytes_plain (uuid_length vaultId).2
  rw [escapedBytes, (uuid_length vaultId).1, String.ofList_toList] at hvault
  have hmarks : Uri.utf8Length ['\x7b', '"'] = 2 ∧ Uri.utf8Length "kinds\":[".toList = 8 ∧
      Uri.utf8Length ",\"position\":".toList = 12 ∧ Uri.utf8Length ",\"vault\":".toList = 9 ∧
      Uri.utf8Length ",\"version\":1\x7d".toList = 13 := by decide
  have htext : payloadText vaultId kinds position = ['\x7b', '"'] ++ ("kinds\":[".toList ++ kindsText kinds ++
    ",\"position\":".toList ++ Nat.toDigits 10 position ++ ",\"vault\":".toList ++ Json.renderString vaultId.str ++
    ",\"version\":1\x7d".toList) := rfl
  rw [htext]
  simp only [utf8Length_append, hmarks, utf8Length_kinds h, utf8Length_digits, hvault, scopeLength]
  omega

/-- The canonical kinds are the distinct ones in another order. -/
theorem scopeLength_canonical {values kinds : List String} (h : canonicalKinds values = .ok kinds) (position : Nat) :
    scopeLength kinds position = scopeLength values.dedup position := by
  have hperm : List.Perm kinds values.dedup := by
    rw [(canonicalKinds_ok h).2]
    exact List.perm_insertionSort _ _
  rw [scopeLength, scopeLength, (hperm.map _).sum_nat]

/-! ### The round trip -/

variable {lib : SealLibrary} {key : BitVec 512} {vaultId : Uuid} {values kinds : List String} {position : Nat} {token : Text}

/-- What a cursor is made of. -/
theorem encodeEventCursor_ok (h : canonicalKinds values = .ok kinds)
    (ht : encodeEventCursor lib key vaultId values position = .ok token) :
    ∃ sealed, lib.encrypt key (utf8 (payloadText vaultId kinds position)) [cursorAad] = some sealed ∧
      token = cursorPrefix ++ Base64.encode sealed := by
  unfold encodeEventCursor at ht
  obtain ⟨-, -, ht⟩ := bind_eq_ok.mp ht
  rw [h, ok_bind] at ht
  obtain ⟨-, -, ht⟩ := bind_eq_ok.mp ht
  rw [render_cursorPayload, Option.getD_some] at ht
  obtain ⟨sealed, hsealed, ht⟩ := bind_eq_ok.mp ht
  exact ⟨sealed, found_eq_ok.mp hsealed, (pure_eq_ok.mp ht).symm⟩

theorem length_encodeEventCursor (hlib : lib.Seals) (h : canonicalKinds values = .ok kinds)
    (ht : encodeEventCursor lib key vaultId values position = .ok token) :
    token.length ≤ maxTokenLength ↔ scopeLength values.dedup position ≤ maxScopeLength := by
  obtain ⟨sealed, hsealed, rfl⟩ := encodeEventCursor_ok h ht
  have hlength := hlib.length _ _ _ _ hsealed
  rw [length_utf8, utf8Length_payload vaultId (canonicalKinds_ok h).1, scopeLength_canonical h] at hlength
  have hstart : cursorPrefix.length = 4 := rfl
  rw [List.length_append, Base64.length_encode, hstart, hlength, maxTokenLength, maxScopeLength]
  omega

theorem encodeEventCursor_fits (key : BitVec 512) (vaultId : Uuid) (hlib : lib.Seals) (h : canonicalKinds values = .ok kinds)
    (hfits : scopeLength values.dedup position ≤ maxScopeLength) :
    ∃ sealed, encodeEventCursor lib key vaultId values position = .ok (cursorPrefix ++ Base64.encode sealed) ∧
      16 < sealed.length ∧ lib.decrypt key sealed [cursorAad] = some (utf8 (payloadText vaultId kinds position)) := by
  have hlength : (utf8 (payloadText vaultId kinds position)).length = 83 + scopeLength values.dedup position := by
    rw [length_utf8, utf8Length_payload vaultId (canonicalKinds_ok h).1, scopeLength_canonical h]
  have hmax : maxScopeLength = 2970 := rfl
  obtain ⟨sealed, hsealed, hopen⟩ := hlib.inverts key (utf8 (payloadText vaultId kinds position)) [cursorAad]
    (fun hnil => by rw [hnil, List.length_nil] at hlength; omega) (by omega)
  have htag := hlib.length _ _ _ _ hsealed
  refine ⟨sealed, ?_, by omega, hopen⟩
  have hpositive : refuse ((position : Int) < 0) CursorError.invalidCursor = .ok () := refuse_eq_ok.mpr (by omega)
  have hdigits : refuse (intMaxStrDigits < (Nat.toDigits 10 (position : Int).natAbs).length) CursorError.intDigits = .ok () := by
    refine refuse_eq_ok.mpr ?_
    rw [Int.natAbs_natCast, intMaxStrDigits]
    rw [scopeLength] at hfits
    omega
  rw [encodeEventCursor, hpositive, ok_bind, h, ok_bind, hdigits, ok_bind, render_cursorPayload, Option.getD_some]
  dsimp only
  rw [hsealed]
  rfl

theorem decodeBytes_encode {bytes : List UInt8} (h : bytes ≠ []) : decodeBytes (Base64.encode bytes) = some bytes := by
  have hne : Base64.encode bytes ≠ [] := by
    intro hnil
    have hlength := Base64.length_encode bytes
    have hpositive := List.length_pos_iff.mpr h
    rw [hnil, List.length_nil] at hlength
    omega
  rw [decodeBytes, if_pos ⟨hne, Base64.encode_alphabet bytes⟩, Base64.decode_encode]

theorem decodeEventCursor_fits (key : BitVec 512) (vaultId : Uuid) (hlib : lib.Seals) (h : canonicalKinds values = .ok kinds)
    (hfits : scopeLength values.dedup position ≤ maxScopeLength) :
    ∃ token, encodeEventCursor lib key vaultId values position = .ok token ∧
      decodeEventCursor lib key token = some (vaultId, kinds, position) := by
  obtain ⟨sealed, htoken, hraw, hopen⟩ := encodeEventCursor_fits key vaultId hlib h hfits
  refine ⟨_, htoken, ?_⟩
  have hlength := (length_encodeEventCursor hlib h htoken).mpr hfits
  have hdetect : detectsUtf8 (utf8 (payloadText vaultId kinds position)) = true :=
    detectsUtf8_ascii (x := 123) (y := 34) rfl rfl (by decide) (by decide) _
  have hloads := loadsBytes_render lib.python (render_cursorPayload vaultId kinds position)
    (distinct_cursorPayload vaultId kinds position) hdetect
  have hne : sealed ≠ [] := List.ne_nil_of_length_pos (by omega)
  have hshape : ¬ (¬ cursorPrefix <+: cursorPrefix ++ Base64.encode sealed ∨
      maxTokenLength < (cursorPrefix ++ Base64.encode sealed).length) := by
    rintro (hstart | hlong)
    · exact hstart (List.prefix_append _ _)
    · omega
  rw [decodeEventCursor, if_neg hshape, List.drop_left, decodeBytes_encode hne]
  simp only [Option.bind_eq_bind, Option.bind_some]
  rw [if_neg (Nat.not_le.mpr hraw), hopen, Option.bind_some, hloads, Option.bind_some, readPayload_cursor lib vaultId h]

theorem decodeEventCursor_tooLong (hlib : lib.Seals) (h : canonicalKinds values = .ok kinds)
    (ht : encodeEventCursor lib key vaultId values position = .ok token)
    (hlong : ¬ scopeLength values.dedup position ≤ maxScopeLength) : decodeEventCursor lib key token = none := by
  have hlength := mt (length_encodeEventCursor hlib h ht).mp hlong
  rw [decodeEventCursor, if_pos (Or.inr (Nat.lt_of_not_le hlength))]

/-- The server issues a cursor for the position, decodes it to what it was issued for, and resumes a stream there. -/
def AcceptedBack (lib : SealLibrary) (key : BitVec 512) (vaultId : Uuid) (values kinds : List String) (position : Nat) :
    Prop :=
  ∃ token, encodeEventCursor lib key vaultId values position = .ok token ∧
    decodeEventCursor lib key token = some (vaultId, kinds, position) ∧
    ∀ bounds lastEventId cursor, lastEventId.or cursor = some (String.ofList token) →
      resolveStartPosition (eventCursorCodec lib key) vaultId kinds bounds lastEventId cursor none = .ok position

theorem resolveStartPosition_cursor (h : decodeEventCursor lib key token = some (vaultId, kinds, position))
    (bounds : EventBounds) {lastEventId cursor : Option String} (hcursor : lastEventId.or cursor = some (String.ofList token)) :
    resolveStartPosition (eventCursorCodec lib key) vaultId kinds bounds lastEventId cursor none = .ok position := by
  have hdecode : (eventCursorCodec lib key).decode (String.ofList token) = some (vaultId, kinds, position) := by
    change decodeEventCursor lib key (String.ofList token).toList = _
    rw [String.toList_ofList, h]
  simp [resolveStartPosition, hcursor, hdecode]

theorem not_acceptedBack (hlib : lib.Seals) (h : canonicalKinds values = .ok kinds)
    (hlong : ¬ scopeLength values.dedup position ≤ maxScopeLength) :
    ¬ AcceptedBack lib key vaultId values kinds position := by
  rintro ⟨token, ht, hdecode, -⟩
  rw [decodeEventCursor_tooLong hlib h ht hlong] at hdecode
  cases hdecode

/-- A cursor of an accepted kind filter is accepted back exactly when the distinct kinds, each with three characters,
and the digits of the position are within what fits into 4096 characters. -/
theorem cursor_accepted_back_iff (hlib : lib.Seals) (key : BitVec 512)
    (filter : Option (List String)) (hfilter : normalizeKindFilter filter = .ok kinds) (vaultId : Uuid) (position : Nat) :
    AcceptedBack lib key vaultId (filter.getD []) kinds position ↔
      scopeLength (filter.getD []).dedup position ≤ maxScopeLength := by
  have hkinds : canonicalKinds (filter.getD []) = .ok kinds := by
    cases filter with
    | none => exact hfilter
    | some values => exact hfilter
  constructor
  · exact fun haccepted => Decidable.byContradiction fun hlong => not_acceptedBack hlib hkinds hlong haccepted
  · intro hfits
    obtain ⟨token, ht, hdecode⟩ := decodeEventCursor_fits key vaultId hlib hkinds hfits
    exact ⟨token, ht, hdecode, fun bounds _ _ hcursor => resolveStartPosition_cursor hdecode bounds hcursor⟩

/-! ### A key and one sealed cursor -/

def sampleVault : Uuid := 0x11111111111141118111111111111111

/-- The hash of the additional data and `cursor-secret`. -/
def sampleKey : BitVec 512 := 0x9f234e2b1573ca0c11612ba525a2c33ac79592558cb84a22909837fbf5496d790954d5d7503038a8f7b5619352949fbf5cab899f435987e23e0181a7a00608b4

/-- What AES-SIV makes of the payload of `sampleVault`, one kind and position 42 under the key. -/
def sampleSealed : List UInt8 :=
  [135, 77, 166, 75, 95, 34, 167, 171, 247, 250, 181, 92, 135, 53, 73, 171, 128, 181, 29, 69, 77, 93, 3, 76, 41,
    109, 33, 126, 171, 234, 176, 215, 17, 58, 37, 138, 59, 189, 204, 243, 145, 153, 134, 181, 231, 35, 17, 142,
    241, 131, 99, 65, 181, 147, 188, 179, 166, 213, 49, 121, 38, 116, 110, 88, 1, 100, 95, 41, 146, 45, 124, 242,
    26, 128, 209, 254, 166, 219, 78, 103, 26, 103, 61, 125, 201, 114, 180, 207, 3, 170, 170, 250, 113, 171, 9, 97,
    193, 7, 67, 175, 233, 245, 100, 233, 232, 221, 3, 223, 187, 242, 54, 255, 221, 240, 119]

def samplePayload : List UInt8 := utf8 (payloadText sampleVault ["document.put"] 42)

/-- The cipher of the sample; any other data gets an empty tag. -/
def sampleLibrary : SealLibrary where
  python := ⟨fun _ => 0, fun _ => none, fun _ => none⟩
  sha512 data := if data = cursorAad ++ 0 :: utf8 "cursor-secret".toList then sampleKey else 0
  encrypt key data aad :=
    if key = sampleKey ∧ data = samplePayload ∧ aad = [cursorAad] then some sampleSealed
    else if data.length < 2 ^ 31 then some (data ++ List.replicate 16 0) else none
  decrypt _ sealed _ := if sealed = sampleSealed then some samplePayload else some (sealed.take (sealed.length - 16))
  floatIsOne x := x.text = "1.0".toList

theorem sampleLibrary_seals : sampleLibrary.Seals := by
  have hlast : sampleSealed.getLast? = some 119 := by decide
  refine ⟨fun key data aad sealed h => ?_, fun key data aad _ hlength => ?_⟩
  · simp only [sampleLibrary] at h
    split at h
    · rename_i hsample
      obtain rfl := Option.some.inj h
      rw [hsample.2.1]
      decide
    split at h
    · obtain rfl := Option.some.inj h
      rw [List.length_append, List.length_replicate]
    · cases h
  · simp only [sampleLibrary]
    split
    · rename_i hsample
      exact ⟨sampleSealed, rfl, by rw [if_pos rfl, hsample.2.1]⟩
    · refine ⟨_, rfl, ?_⟩
      rw [if_neg, List.length_append, List.length_replicate, Nat.add_sub_cancel, List.take_left]
      intro heq
      rw [← heq, List.getLast?_append_of_ne_nil _ (by simp)] at hlast
      exact absurd hlast (by decide)

theorem sample_cursor_accepted_back : cursorKey sampleLibrary "cursor-secret" = .ok sampleKey ∧
    AcceptedBack sampleLibrary sampleKey sampleVault ["document.put"] ["document.put"] 42 :=
  ⟨by decide +kernel, (cursor_accepted_back_iff sampleLibrary_seals sampleKey (some ["document.put"]) (by decide)
    sampleVault 42).mpr (by decide)⟩

/-- A kind of `n` letters, as a query may give it. -/
def letters (n : Nat) : String := String.ofList (List.replicate n 'a')

theorem length_letters (n : Nat) : (letters n).length = n := by
  rw [letters, String.length_ofList, List.length_replicate]

theorem canonicalKinds_letters (n : Nat) : canonicalKinds [letters (n + 1)] = .ok [letters (n + 1)] := by
  have hrest (m : Nat) : isKindRest true (List.replicate m 'a') = true := by
    induction m with
    | zero => rfl
    | succ m ih => exact ih
  have hkind : ∀ value ∈ [letters (n + 1)], isKind value.toList := by
    rintro value hv
    rw [List.mem_singleton.mp hv, letters, String.toList_ofList]
    exact hrest n
  rw [canonicalKinds, if_pos hkind, (List.nodup_singleton _).dedup,
    (List.pairwise_singleton _ _).insertionSort_eq]

/-- The cursor of a stream with one kind of 2968 letters is refused. -/
theorem long_kind_refused : cursorKey sampleLibrary "cursor-secret" = .ok sampleKey ∧
    normalizeKindFilter (some [letters 2968]) = .ok [letters 2968] ∧
    ¬ AcceptedBack sampleLibrary sampleKey sampleVault [letters 2968] [letters 2968] 0 := by
  have hkinds := canonicalKinds_letters 2967
  refine ⟨by decide +kernel, hkinds, not_acceptedBack sampleLibrary_seals hkinds ?_⟩
  have hlength := length_letters 2968
  have hdigits : (Nat.toDigits 10 0).length = 1 := by decide
  rw [(List.nodup_singleton _).dedup, scopeLength, List.map_singleton, List.sum_singleton, hlength, hdigits, maxScopeLength]
  omega

end Akb.Events
