import Akb.Library.Base64
import Akb.Library.JsonReader
import Akb.Native.Ledger
import Akb.Uri.Names
import Akb.Library.JsonRoundTrip
import Mathlib.Tactic.Ring

/-! The cursor of a paged browse: base64 of `[1, scope, kind, path, id]`. -/
namespace Akb.Browse
open Akb.Library

abbrev Text := List Char

abbrev Uuid := Native.Uuid

inductive Kind where
  | collection
  | document
  | table
  | file
  deriving DecidableEq

def Kind.code : Kind → Nat
  | .collection => 0
  | .document => 1
  | .table => 2
  | .file => 3

def kindOf (n : Int) : Option Kind := [Kind.collection, .document, .table, .file].find? (fun k => n = k.code)

/-- Where a page ends. -/
structure Position where
  kind : Kind
  path : Text
  id : Uuid
  deriving DecidableEq

/-- What the standard library adds: the hash, the texts besides hex digits that `int(hex, 16)` takes, the
encodings besides UTF-8 that `json.loads` recognizes. -/
structure Python where
  sha256 : List UInt8 → BitVec 256
  oddInt : Text → Option Uuid
  otherEncoding : List UInt8 → Option Text

inductive BrowseError where
  | validation (message : String)
  | collectionPath (error : Uri.PathError)
  | vaultNotFound (vault : Text)

/-- `text.encode()`. -/
def utf8 (text : Text) : List UInt8 := text.flatMap String.utf8EncodeChar

def hexdigest (digest : BitVec 256) : Text :=
  (List.range 64).map (fun i => Native.hexDigit (digest.extractLsb' (4 * (63 - i)) 4))

/-- Where `json.detect_encoding` stays with UTF-8. -/
def detectsUtf8 (raw : List UInt8) : Bool :=
  raw.take 2 ∉ [[0xfe, 0xff], [0xff, 0xfe]] && raw.take 3 != [0xef, 0xbb, 0xbf] &&
    (raw.length < 4 && raw.length != 2 || (raw.take 2).all (· != 0))

/-- The value of `json.loads(raw)`. -/
def loadsBytes (py : Python) (raw : List UInt8) : Option Json.Value :=
  (if detectsUtf8 raw then raw.toByteArray.utf8Decode?.map Array.toList else py.otherEncoding raw).bind Json.loads

/-- `text.replace(word, "")`; a count of characters still to drop comes first. -/
def removeWord (word : Text) : Nat → Text → Text
  | _, [] => []
  | 0, c :: s => if word <+: c :: s then removeWord word (word.length - 1) s else c :: removeWord word 0 s
  | n + 1, _ :: s => removeWord word n s

def hexDigitValue (c : Char) : Option Nat :=
  if c ∈ "0123456789abcdef".toList then some ("0123456789abcdef".toList.idxOf c)
  else if c ∈ "ABCDEF".toList then some (10 + "ABCDEF".toList.idxOf c) else none

def hexNumber (s : Text) : Option Nat := s.foldlM (fun n c => (hexDigitValue c).map (n * 16 + ·)) 0

/-- `uuid.UUID(text)`, none where it raises. -/
def parseUuid (py : Python) (text : Text) : Option Uuid :=
  let bare := removeWord "uuid:".toList 0 (removeWord "urn:".toList 0 text)
  let unbraced := ((bare.dropWhile (· ∈ ['\x7b', '\x7d'])).reverse.dropWhile (· ∈ ['\x7b', '\x7d'])).reverse
  let hex := unbraced.filter (fun c => c ≠ '-')
  if hex.length = 32 then ((hexNumber hex).map (BitVec.ofNat 128)).or (py.oddInt hex) else none

def maxCursorLength : Nat := 32768

def cursorValue (scope : Text) (row : Position) : Json.Value :=
  .list [.int 1, .str (String.ofList scope), .int row.kind.code, .str (String.ofList row.path), .str row.id.str]

/-- `_encode_cursor`. -/
def encodeCursor (scope : Text) (row : Position) : Text :=
  Base64.encode (utf8 (((cursorValue scope row).render 1).getD []))

def readPosition (py : Python) (scope : Text) : Json.Value → Option Position
  | .list [.int version, .str boundScope, .int kind, .str path, .str resource] =>
    if version = 1 ∧ boundScope.toList = scope ∧ '\x00' ∉ path.toList then do
      return ⟨← kindOf kind, path.toList, ← parseUuid py resource.toList⟩
    else none
  | _ => none

/-- `_decode_cursor`. -/
def decodeCursor (py : Python) (cursor : Option Text) (scope : Text) : Except BrowseError (Option Position) :=
  match cursor with
  | none => .ok none
  | some text =>
    match if maxCursorLength < text.length then none
      else ((Base64.decode text).bind (loadsBytes py)).bind (readPosition py scope) with
    | some position => .ok (some position)
    | none => .error (.validation "Invalid browse cursor; restart from the first page for this scope")

/-! A cursor reads back as the position it was written for, unless it has grown too long. -/
private theorem removeWord_eq {word s : Text} {c : Char} (hc : word.head? = some c) (hs : c ∉ s) :
    removeWord word 0 s = s := by
  obtain ⟨word, rfl⟩ := List.head?_eq_some_iff.mp hc
  induction s with
  | nil => rfl
  | cons d s ih =>
    have hne : ¬ (c :: word) <+: d :: s := fun h => hs ((List.cons_prefix_cons.mp h).1 ▸ List.mem_cons_self)
    rw [removeWord, if_neg hne, ih fun h => hs (List.mem_cons_of_mem _ h)]

private theorem hexDigitValue_hexDigit : ∀ d : BitVec 4, hexDigitValue (Native.hexDigit d) = some d.toNat := by decide

/-- The digits of the lowest `4 * n` bits, the highest first. -/
private theorem hexNumber_digits (u : Uuid) (n acc : Nat) :
    ((List.range n).map (fun i => Native.hexDigit (u.extractLsb' (4 * (n - 1 - i)) 4))).foldlM
      (fun m c => (hexDigitValue c).map (m * 16 + ·)) acc = some (acc * 16 ^ n + u.toNat % 16 ^ n) := by
  induction n generalizing acc with
  | zero => simp [Nat.mod_one]
  | succ n ih =>
    have hindex : (List.range n).map ((fun i => Native.hexDigit (u.extractLsb' (4 * (n + 1 - 1 - i)) 4)) ∘ Nat.succ) =
        (List.range n).map (fun i => Native.hexDigit (u.extractLsb' (4 * (n - 1 - i)) 4)) := by
      refine List.map_congr_left fun i _ => ?_
      rw [Function.comp_apply, Nat.succ_eq_add_one, show n + 1 - 1 - (i + 1) = n - 1 - i by omega]
    have hdigit : (u.extractLsb' (4 * (n + 1 - 1 - 0)) 4).toNat = u.toNat / 16 ^ n % 16 := by
      rw [BitVec.extractLsb'_toNat, Nat.shiftRight_eq_div_pow, Nat.add_sub_cancel, Nat.sub_zero, Nat.pow_mul]
    rw [List.range_succ_eq_map, List.map_cons, List.map_map, hindex, List.foldlM_cons, hexDigitValue_hexDigit, hdigit]
    simp only [Option.map_some, Option.bind_eq_bind, Option.bind_some]
    rw [ih, Nat.mod_pow_succ]
    congr 1
    ring

private theorem hexNumber_uuid (u : Uuid) : hexNumber u.digits = some u.toNat := by
  have hall := hexNumber_digits u 32 0
  rwa [Nat.zero_mul, Nat.zero_add, Nat.mod_eq_of_lt (by simpa using u.isLt)] at hall

private theorem uuid_plain (u : Uuid) : ∀ c ∈ u.str.toList, c ∉ ['u', '\x7b', '\x7d'] := by
  have hhex : ∀ d : BitVec 4, Native.hexDigit d ∉ ['u', '\x7b', '\x7d'] := by decide
  intro c hc
  by_cases hdash : c = '-'
  · subst hdash
    decide
  · have hdigits : c ∈ u.digits := by
      rw [← Native.Uuid.filter_str]
      exact List.mem_filter.mpr ⟨hc, decide_eq_true hdash⟩
    obtain ⟨i, -, rfl⟩ := List.mem_map.mp hdigits
    exact hhex _

theorem parseUuid_str (py : Python) (u : Uuid) : parseUuid py u.str.toList = some u := by
  have hplain := uuid_plain u
  have hu : 'u' ∉ u.str.toList := fun h => hplain _ h (by decide)
  have hbraces : ∀ s : Text, (∀ c ∈ s, c ∈ u.str.toList) → s.dropWhile (· ∈ ['\x7b', '\x7d']) = s := by
    intro s hs
    cases s with
    | nil => rfl
    | cons c s =>
      have hc : c ∉ ['\x7b', '\x7d'] := fun h => hplain c (hs c List.mem_cons_self) (List.mem_cons_of_mem _ h)
      rw [List.dropWhile_cons_of_neg (by simpa using hc)]
  have hlength : u.digits.length = 32 := by simp [Native.Uuid.digits]
  simp only [parseUuid]
  have hurn : removeWord "urn:".toList 0 u.str.toList = u.str.toList := removeWord_eq rfl hu
  rw [hurn, removeWord_eq rfl hu, hbraces _ (fun _ h => h),
    hbraces _ (fun _ h => List.mem_reverse.mp h), List.reverse_reverse, Native.Uuid.filter_str, if_pos hlength,
    hexNumber_uuid, Option.map_some, Option.some_or, BitVec.ofNat_toNat]
  simp

theorem kindOf_code (k : Kind) : kindOf k.code = some k := by
  cases k <;> rfl

/-- Two characters of ASCII in front leave no doubt about the encoding. -/
theorem detectsUtf8_ascii {a b : Char} {x y : UInt8} (ha : String.utf8EncodeChar a = [x])
    (hb : String.utf8EncodeChar b = [y]) (hx : x ∉ [0, 0xfe, 0xff, 0xef]) (hy : y ≠ 0) (t : Text) :
    detectsUtf8 (utf8 (a :: b :: t)) = true := by
  have hhead : utf8 (a :: b :: t) = x :: y :: utf8 t := by
    rw [utf8, List.flatMap_cons, List.flatMap_cons, ha, hb]
    rfl
  simp only [List.mem_cons, List.not_mem_nil, or_false, not_or] at hx
  simp [hhead, detectsUtf8, hx, hy]

theorem loadsBytes_render (py : Python) {pad : Nat} {v : Json.Value} {t : Text} (h : v.render pad = some t)
    (hv : v.Distinct) (hdetect : detectsUtf8 (utf8 t) = true) : loadsBytes py (utf8 t) = some v := by
  have hdecode : (utf8 t).toByteArray.utf8Decode? = some t.toArray := List.utf8Decode?_utf8Encode
  rw [loadsBytes, hdetect, if_pos rfl, hdecode, Option.map_some, Option.bind_some, List.toList_toArray]
  exact Json.loads_render h hv

/-- The JSON text of a cursor. -/
private def cursorText (scope : Text) (row : Position) : Text :=
  ['[', '1', ',', ' '] ++ Json.renderString (String.ofList scope) ++ [',', ' '] ++ Json.renderInt row.kind.code ++
    [',', ' '] ++ Json.renderString (String.ofList row.path) ++ [',', ' '] ++ Json.renderString row.id.str ++ [']']

private theorem render_cursorValue (scope : Text) (row : Position) :
    (cursorValue scope row).render 1 = some (cursorText scope row) := by
  have hone : Json.renderInt 1 = ['1'] := by decide
  simp only [cursorValue, Json.Value.render, Json.renderItems, Json.separator, List.replicate_one, hone, Option.map_some,
    Option.bind_eq_bind, Option.bind_some, Option.pure_def, cursorText, List.append_assoc, List.cons_append,
    List.nil_append]

private theorem encodeCursor_eq (scope : Text) (row : Position) :
    encodeCursor scope row = Base64.encode (utf8 (cursorText scope row)) := by
  rw [encodeCursor, render_cursorValue, Option.getD_some]

private theorem distinct_cursorValue (scope : Text) (row : Position) : (cursorValue scope row).Distinct := by
  simp [cursorValue, Json.Value.Distinct, Json.DistinctItems]

private theorem loadsBytes_cursor (py : Python) (scope : Text) (row : Position) :
    loadsBytes py (utf8 (cursorText scope row)) = some (cursorValue scope row) := by
  refine loadsBytes_render py (render_cursorValue scope row) (distinct_cursorValue scope row) ?_
  simp only [cursorText, List.append_assoc, List.cons_append]
  exact detectsUtf8_ascii (x := 91) (y := 49) rfl rfl (by decide) (by decide) _

private theorem readPosition_cursor (py : Python) (scope : Text) {row : Position} (hnul : '\x00' ∉ row.path) :
    readPosition py scope (cursorValue scope row) = some row := by
  simp only [cursorValue, readPosition, String.toList_ofList, parseUuid_str, kindOf_code]
  rw [if_pos ⟨trivial, trivial, hnul⟩]
  rfl

/-! ### The length of a cursor -/

/-- What the path takes of a cursor. -/
def escapedBytes (path : Text) : Nat := Uri.utf8Length (Json.renderString (String.ofList path))

def maxEscapedBytes : Nat := 24460

theorem utf8Length_append (s t : Text) : Uri.utf8Length (s ++ t) = Uri.utf8Length s + Uri.utf8Length t := by
  rw [Uri.utf8Length, List.map_append, List.sum_append]
  rfl

theorem length_utf8 (text : Text) : (utf8 text).length = Uri.utf8Length text := by
  rw [utf8, List.length_flatMap]
  exact congrArg List.sum (List.map_congr_left fun c _ => String.length_utf8EncodeChar c)

theorem utf8Length_single {s : Text} (hs : ∀ c ∈ s, c.utf8Size = 1) : Uri.utf8Length s = s.length := by
  have hsize : s.map Char.utf8Size = List.replicate s.length 1 :=
    List.eq_replicate_iff.mpr ⟨List.length_map _, List.forall_mem_map.mpr hs⟩
  rw [Uri.utf8Length, hsize, List.sum_replicate_nat, Nat.mul_one]

/-- A text without escapes stands between its quotes as it is. -/
theorem escapedBytes_unescaped {s : Text} (hs : ∀ c ∈ s, Json.escapeChar c = [c] ∧ c.utf8Size = 1) :
    escapedBytes s = s.length + 2 := by
  have hescape : s.flatMap Json.escapeChar = s := by
    induction s with
    | nil => rfl
    | cons c s ih =>
      rw [List.forall_mem_cons] at hs
      rw [List.flatMap_cons, hs.1.1, ih hs.2, List.singleton_append]
  have hquote : Uri.utf8Length ['"'] = 1 := by decide
  rw [escapedBytes, Json.renderString, String.toList_ofList, hescape, ← List.singleton_append, utf8Length_append,
    utf8Length_append, hquote, utf8Length_single fun c hc => (hs c hc).2]
  omega

theorem escapedBytes_plain {s : Text} (hs : ∀ c ∈ s, c ∈ "0123456789abcdef-".toList) :
    escapedBytes s = s.length + 2 := by
  have hplain : ∀ c ∈ "0123456789abcdef-".toList, Json.escapeChar c = [c] ∧ c.utf8Size = 1 := by decide
  exact escapedBytes_unescaped fun c hc => hplain c (hs c hc)

private theorem hexdigest_plain (digest : BitVec 256) :
    (hexdigest digest).length = 64 ∧ ∀ c ∈ hexdigest digest, c ∈ "0123456789abcdef-".toList := by
  have hhex : ∀ d : BitVec 4, Native.hexDigit d ∈ "0123456789abcdef-".toList := by decide
  exact ⟨by simp [hexdigest], List.forall_mem_map.mpr fun i _ => hhex _⟩

theorem uuid_length (u : Uuid) : u.str.toList.length = 36 ∧ ∀ c ∈ u.str.toList, c ∈ "0123456789abcdef-".toList := by
  have hhex : ∀ d : BitVec 4, Native.hexDigit d ∈ "0123456789abcdef-".toList := by decide
  refine ⟨by simp [Native.Uuid.str, Native.Uuid.digits], fun c hc => ?_⟩
  by_cases hdash : c = '-'
  · subst hdash
    decide
  · have hdigits : c ∈ u.digits := by
      rw [← Native.Uuid.filter_str]
      exact List.mem_filter.mpr ⟨hc, decide_eq_true hdash⟩
    obtain ⟨i, -, rfl⟩ := List.mem_map.mp hdigits
    exact hhex _

private theorem utf8Length_cursor (digest : BitVec 256) (row : Position) :
    Uri.utf8Length (cursorText (hexdigest digest) row) = 116 + escapedBytes row.path := by
  have hscope := escapedBytes_plain (hexdigest_plain digest).2
  have hid := escapedBytes_plain (uuid_length row.id).2
  rw [escapedBytes, (hexdigest_plain digest).1] at hscope
  rw [escapedBytes, (uuid_length row.id).1, String.ofList_toList] at hid
  have hkind : Uri.utf8Length (Json.renderInt row.kind.code) = 1 := by
    cases row.kind <;> decide
  have hmarks : Uri.utf8Length ['[', '1', ',', ' '] = 4 ∧ Uri.utf8Length [',', ' '] = 2 ∧ Uri.utf8Length [']'] = 1 := by
    decide
  simp only [cursorText, utf8Length_append, hscope, hid, hkind, hmarks, escapedBytes]
  omega

theorem length_encodeCursor (digest : BitVec 256) (row : Position) :
    (encodeCursor (hexdigest digest) row).length ≤ maxCursorLength ↔ escapedBytes row.path ≤ maxEscapedBytes := by
  rw [encodeCursor_eq, Base64.length_encode, length_utf8, utf8Length_cursor, maxCursorLength, maxEscapedBytes]
  omega

theorem decodeCursor_encodeCursor (py : Python) (digest : BitVec 256) {row : Position} (hnul : '\x00' ∉ row.path)
    (hfits : escapedBytes row.path ≤ maxEscapedBytes) :
    decodeCursor py (some (encodeCursor (hexdigest digest) row)) (hexdigest digest) = .ok (some row) := by
  have hlength := (length_encodeCursor digest row).mpr hfits
  simp only [decodeCursor]
  rw [if_neg (Nat.not_lt.mpr hlength), encodeCursor_eq, Base64.decode_encode, Option.bind_some, loadsBytes_cursor,
    Option.bind_some, readPosition_cursor py _ hnul]

theorem decodeCursor_tooLong (py : Python) (digest : BitVec 256) {row : Position}
    (hlong : ¬ escapedBytes row.path ≤ maxEscapedBytes) :
    ∃ e, decodeCursor py (some (encodeCursor (hexdigest digest) row)) (hexdigest digest) = .error e := by
  have hlength := mt (length_encodeCursor digest row).mp hlong
  simp only [decodeCursor]
  rw [if_pos (Nat.lt_of_not_le hlength)]
  exact ⟨_, rfl⟩

end Akb.Browse
