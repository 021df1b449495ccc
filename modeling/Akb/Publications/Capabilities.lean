import Akb.Library.JsonReader
import Akb.Library.PyText
import Mathlib.Algebra.Order.Round
import Mathlib.Data.Rat.Floor

/-! The capabilities that a published page hands out: the token of who gave the password, and the grant of a view that
has been counted. Clock values are seconds since the epoch, as exact numbers; `hmac` is the keyed digest in
hexadecimal. -/
namespace Akb.Publications
open Akb.Library

/-- What `int` knows of the decimal digits of Unicode. -/
structure Decimals where
  value : Char → Option Nat
  ascii : ∀ c, c.isDigit → value c = some (c.toNat - '0'.toNat)
  colon : value ':' = none

/-- `int` of digits, with single underscores between them. -/
def Decimals.natOf (d : Decimals) (s : List Char) : Option Nat :=
  if (s.splitOn '_').all (fun group => !group.isEmpty) then
    ((s.filter fun c => c != '_').mapM d.value).map fun digits => digits.foldl (fun n digit => 10 * n + digit) 0
  else none

/-- `int` of a text. -/
def Decimals.int (d : Decimals) (s : List Char) : Option Int :=
  match PyText.strip s with
  | '-' :: digits => (d.natOf digits).map fun (n : Nat) => -(n : Int)
  | '+' :: digits => (d.natOf digits).map fun (n : Nat) => (n : Int)
  | digits => (d.natOf digits).map fun (n : Nat) => (n : Int)

/-- `int` of a clock value. -/
def toSeconds (now : ℚ) : Int := if 0 ≤ now then ⌊now⌋ else ⌈now⌉

/-- The settings of the grants, as they are validated at startup. -/
structure GrantSettings where
  viewGrantTtlSecs : Int
  viewGrantSessionSecs : Int
  viewGrantEmitLegacy : Bool
  ttl : 60 ≤ viewGrantTtlSecs ∧ viewGrantTtlSecs ≤ 3600
  session : 600 ≤ viewGrantSessionSecs ∧ viewGrantSessionSecs ≤ 3600
  ordered : viewGrantTtlSecs ≤ viewGrantSessionSecs

def tokenTtl : ℚ := 3600

def isHexDigit (c : Char) : Bool := "0123456789abcdef".toList.contains c

/-- `_matches_hmac_hexdigest`. -/
def matchesHmacHexdigest (expected supplied : List Char) : Bool :=
  decide (supplied.length = 64) && supplied.all isHexDigit && decide (expected = supplied)

/-! ### Messages -/

def tokenMessage (slug issued : List Char) : List Char := [':'].intercalate [slug, issued]

def legacyMessage (slug issued : List Char) : List Char := [':'].intercalate ["grant".toList, slug, issued]

def boundedMessage (slug issued expires : List Char) : List Char :=
  [':'].intercalate ["grant".toList, slug, issued, expires]

/-- What the server has signed: the message, and the text that it hands out. -/
structure Capability where
  message : List Char
  text : List Char
  issued : Int
  deriving DecidableEq

section Signing
variable (hmac : List Char → List Char) (s : GrantSettings)

/-- `_make_token`. -/
def makeToken (slug : List Char) (now : ℚ) : Capability :=
  let issued := Json.renderInt (toSeconds now)
  ⟨tokenMessage slug issued, ['.'].intercalate [issued, hmac (tokenMessage slug issued)], toSeconds now⟩

/-- `_make_bounded_view_grant`. -/
def makeBoundedViewGrant (slug : List Char) (issuedAt : Option Int) (now : ℚ) : Capability :=
  let issued := issuedAt.getD (toSeconds now)
  let expires := min (toSeconds now + s.viewGrantTtlSecs) (issued + s.viewGrantSessionSecs)
  let message := boundedMessage slug (Json.renderInt issued) (Json.renderInt expires)
  ⟨message, ['.'].intercalate [Json.renderInt issued, Json.renderInt expires, hmac message], issued⟩

/-- `_make_view_grant`. -/
def makeViewGrant (slug : List Char) (issuedAt : Option Int) (now : ℚ) : Capability :=
  if s.viewGrantEmitLegacy then
    let issued := issuedAt.getD (toSeconds now)
    let message := legacyMessage slug (Json.renderInt issued)
    ⟨message, ['.'].intercalate [Json.renderInt issued, hmac message], issued⟩
  else makeBoundedViewGrant hmac s slug issuedAt now

/-! ### Checks -/

/-- The message and the signature that a token is checked with. -/
def tokenMac (slug token : List Char) : Option (List Char × List Char) :=
  match token.dropWhile (fun c => c != '.') with
  | _ :: sig => some (tokenMessage slug (token.takeWhile fun c => c != '.'), sig)
  | [] => none

/-- `_verify_token`. -/
def verifyToken (d : Decimals) (slug token : List Char) (now : ℚ) : Bool :=
  match tokenMac slug token, d.int (token.takeWhile fun c => c != '.') with
  | some (message, sig), some ts =>
    if |now - (ts : ℚ)| > tokenTtl then false else matchesHmacHexdigest (hmac message) sig
  | _, _ => false

/-- The message and the signature that a grant is checked with. -/
def grantMac (slug grant : List Char) : Option (List Char × List Char) :=
  match grant.splitOn '.' with
  | [issued, sig] => some (legacyMessage slug issued, sig)
  | [issued, expires, sig] => some (boundedMessage slug issued expires, sig)
  | _ => none

/-- When a grant says that it was issued and when it expires. -/
def grantTimes (d : Decimals) (grant : List Char) : Option (Int × Int) :=
  match grant.splitOn '.' with
  | [issued, _] => (d.int issued).map fun i => (i, i + s.viewGrantTtlSecs)
  | [issued, expires, _] => do return (← d.int issued, ← d.int expires)
  | _ => none

/-- `_parse_view_grant`; an absent grant is the empty one. -/
def parseViewGrant (d : Decimals) (slug grant : List Char) : Option (Int × Int) :=
  match grantTimes s d grant, grantMac slug grant with
  | some (issued, expires), some (message, sig) =>
    if expires < issued then none
    else if expires > issued + s.viewGrantSessionSecs then none
    else if matchesHmacHexdigest (hmac message) sig then some (issued, expires)
    else none
  | _, _ => none

/-- `_verify_view_grant`. -/
def verifyViewGrant (d : Decimals) (slug grant : List Char) (now : ℚ) : Bool :=
  match parseViewGrant hmac s d slug grant with
  | some (issued, expires) => decide (issued ≤ toSeconds now + 30) && decide (toSeconds now ≤ expires)
  | none => false

/-- `_validate_view_grant_renewal`. -/
def validateViewGrantRenewal (d : Decimals) (slug grant : List Char) (now : ℚ) : Option (Int × Int) :=
  if (grant.splitOn '.').length ≠ 3 then none
  else (parseViewGrant hmac s d slug grant).filter fun times =>
    !(times.1 > toSeconds now + 30 || toSeconds now ≥ times.1 + s.viewGrantSessionSecs)

end Signing

/-! ### Numbers -/

variable {d : Decimals}

theorem isDigit_bounds {c : Char} (h : c.isDigit) : 48 ≤ c.toNat ∧ c.toNat ≤ 57 := by
  simp only [Char.isDigit, Bool.and_eq_true, decide_eq_true_eq] at h
  exact ⟨h.1, h.2⟩

/-- A digit is none of the characters that the formats use otherwise. -/
theorem isDigit_plain {c : Char} (h : c.isDigit) : PyText.isSpace c = false ∧ c ∉ ['-', '+', '_', '.', ':'] := by
  have hbounds := isDigit_bounds h
  constructor
  · simp only [PyText.isSpace]
    simp
    omega
  · intro hc
    simp only [List.mem_cons, List.not_mem_nil, or_false] at hc
    rcases hc with rfl | rfl | rfl | rfl | rfl <;> exact absurd h (by decide)

theorem natOf_toDigits (n : Nat) : d.natOf (Nat.toDigits 10 n) = some n := by
  have hdigit {c : Char} (hc : c ∈ Nat.toDigits 10 n) : c.isDigit := Nat.isDigit_of_mem_toDigits (by decide) (by decide) hc
  have hsplit : (Nat.toDigits 10 n).splitOn '_' = [Nat.toDigits 10 n] :=
    List.splitOn_eq_singleton fun hc => (isDigit_plain (hdigit hc)).2 (by decide)
  have hvalues (digits : List Char) (h : ∀ c ∈ digits, c.isDigit) :
      digits.mapM d.value = some (digits.map fun c => c.toNat - '0'.toNat) := by
    induction digits with
    | nil => rfl
    | cons c digits ih =>
      rw [List.mapM_cons, d.ascii c (h c List.mem_cons_self), ih fun x hx => h x (List.mem_cons_of_mem _ hx)]
      rfl
  have hne : (Nat.toDigits 10 n).isEmpty = false := by
    rw [List.isEmpty_eq_false_iff]
    exact Nat.toDigits_ne_nil
  have hkept : (Nat.toDigits 10 n).filter (fun c => c != '_') = Nat.toDigits 10 n := by
    rw [List.filter_eq_self]
    intro c hc
    rw [bne_iff_ne]
    rintro rfl
    exact (isDigit_plain (hdigit hc)).2 (by decide)
  rw [Decimals.natOf, hsplit, hkept, hvalues _ fun c => hdigit]
  simp only [List.all_cons, List.all_nil, hne, Bool.not_false, Bool.and_self, if_true, Option.map_some, List.foldl_map]
  exact congrArg some (Nat.ofDigitChars_eq_foldl.symm.trans Nat.ofDigitChars_ten_toDigits)

/-- The characters of a number. -/
theorem mem_renderInt {n : Int} {c : Char} (h : c ∈ Json.renderInt n) : c = '-' ∨ c.isDigit := by
  unfold Json.renderInt at h
  split at h
  · rcases List.mem_cons.mp h with rfl | h
    · exact .inl rfl
    · exact .inr (Nat.isDigit_of_mem_toDigits (by decide) (by decide) h)
  · exact .inr (Nat.isDigit_of_mem_toDigits (by decide) (by decide) h)

theorem notMem_renderInt (n : Int) : '.' ∉ Json.renderInt n ∧ ':' ∉ Json.renderInt n := by
  constructor <;> intro h <;> rcases mem_renderInt h with h | h <;> revert h <;> decide

/-- Reading a number that was written gives it back. -/
theorem int_renderInt (n : Int) : d.int (Json.renderInt n) = some n := by
  have hspace {c : Char} (hc : c ∈ Json.renderInt n) : PyText.isSpace c = false := by
    rcases mem_renderInt hc with rfl | h
    · decide
    · exact (isDigit_plain h).1
  have hstrip : PyText.strip (Json.renderInt n) = Json.renderInt n :=
    PyText.strip_eq_self (fun c hc => hspace (List.mem_of_mem_head? hc)) (fun c hc => hspace (List.mem_of_getLast? hc))
  rw [Decimals.int, hstrip, Json.renderInt]
  by_cases hneg : n < 0
  · simp only [if_pos hneg, natOf_toDigits, Option.map_some, Option.some.injEq]
    omega
  · rw [if_neg hneg]
    obtain ⟨c, t, htext⟩ := List.exists_cons_of_ne_nil (Nat.toDigits_ne_nil (b := 10) (n := n.natAbs))
    have hc : c.isDigit := Nat.isDigit_of_mem_toDigits (by decide) (by decide) (htext ▸ List.mem_cons_self)
    have hnat := natOf_toDigits (d := d) n.natAbs
    rw [htext] at hnat ⊢
    have hvalue : ((n.natAbs : Nat) : Int) = n := by omega
    split
    · rename_i heq
      exact absurd (List.cons.inj heq).1 (fun he => (isDigit_plain hc).2 (by rw [he]; decide))
    · rename_i heq
      exact absurd (List.cons.inj heq).1 (fun he => (isDigit_plain hc).2 (by rw [he]; decide))
    · rw [hnat, Option.map_some, hvalue]

theorem colon_of_natOf {digits : List Char} {n : Nat} (h : d.natOf digits = some n) : ':' ∉ digits := by
  intro hc
  unfold Decimals.natOf at h
  split at h
  · obtain ⟨values, hvalues, -⟩ := Option.map_eq_some_iff.mp h
    have hall (l : List Char) {values : List Nat} (h : l.mapM d.value = some values) : ':' ∉ l := by
      induction l generalizing values with
      | nil => exact List.not_mem_nil
      | cons c l ih =>
        rw [List.mapM_cons] at h
        obtain ⟨x, hx, h⟩ := Option.bind_eq_some_iff.mp h
        obtain ⟨xs, hxs, -⟩ := Option.bind_eq_some_iff.mp h
        rw [List.mem_cons, not_or]
        refine ⟨?_, ih hxs⟩
        rintro rfl
        rw [d.colon] at hx
        cases hx
    exact hall _ hvalues (List.mem_filter.mpr ⟨hc, by decide⟩)
  · cases h

/-- A number has no colon in it. -/
theorem colon_of_int {text : List Char} {n : Int} (h : d.int text = some n) : ':' ∉ text := by
  obtain ⟨lead, trail, htext, hlead, htrail⟩ := PyText.strip_spec text
  have hstrip : ':' ∉ PyText.strip text := by
    unfold Decimals.int at h
    split at h <;> obtain ⟨m, hm, -⟩ := Option.map_eq_some_iff.mp h
    · rename_i heq
      rw [heq, List.mem_cons, not_or]
      exact ⟨by decide, colon_of_natOf hm⟩
    · rename_i heq
      rw [heq, List.mem_cons, not_or]
      exact ⟨by decide, colon_of_natOf hm⟩
    · exact colon_of_natOf hm
  rw [htext]
  simp only [List.mem_append, not_or]
  exact ⟨⟨fun hc => absurd (hlead _ hc) (by decide), hstrip⟩, fun hc => absurd (htrail _ hc) (by decide)⟩

/-! ### What is handed out is accepted -/

/-- A hexadecimal digest of 32 bytes. -/
structure HexDigest (hmac : List Char → List Char) : Prop where
  length : ∀ m, (hmac m).length = 64
  hex : ∀ m, ∀ c ∈ hmac m, isHexDigit c

variable {hmac : List Char → List Char} {s : GrantSettings} {slug : List Char}

theorem HexDigest.matches (h : HexDigest hmac) (m : List Char) : matchesHmacHexdigest (hmac m) (hmac m) = true := by
  rw [matchesHmacHexdigest, decide_eq_true (h.length m), List.all_eq_true.mpr (h.hex m), decide_eq_true rfl]
  rfl

theorem HexDigest.dot (h : HexDigest hmac) (m : List Char) : '.' ∉ hmac m := by
  intro hm
  exact absurd (h.hex m '.' hm) (by decide)

theorem splitOn_signed (h : HexDigest hmac) (numbers : List Int) (m : List Char) :
    (['.'].intercalate (numbers.map Json.renderInt ++ [hmac m])).splitOn '.' = numbers.map Json.renderInt ++ [hmac m] := by
  refine List.splitOn_intercalate '.' (fun field hfield => ?_) (List.append_ne_nil_of_right_ne_nil _ (List.cons_ne_nil _ _))
  rcases List.mem_append.mp hfield with hfield | hfield
  · obtain ⟨n, -, rfl⟩ := List.mem_map.mp hfield
    exact (notMem_renderInt n).1
  · rw [List.mem_singleton.mp hfield]
    exact h.dot m

theorem grantTimes_legacy (h : HexDigest hmac) (issued : Int) (m : List Char) :
    grantTimes s d (['.'].intercalate [Json.renderInt issued, hmac m]) = some (issued, issued + s.viewGrantTtlSecs) := by
  have hsplit := splitOn_signed h [issued] m
  rw [List.map_cons, List.map_nil, List.singleton_append] at hsplit
  simp only [grantTimes, hsplit, int_renderInt, Option.map_some]

theorem grantTimes_bounded (h : HexDigest hmac) (issued expires : Int) (m : List Char) :
    grantTimes s d (['.'].intercalate [Json.renderInt issued, Json.renderInt expires, hmac m]) = some (issued, expires) := by
  have hsplit := splitOn_signed h [issued, expires] m
  rw [List.map_cons, List.map_cons, List.map_nil, List.cons_append, List.singleton_append] at hsplit
  simp only [grantTimes, hsplit, int_renderInt]
  rfl

theorem parseViewGrant_of {grant : List Char} (message : List Char) {issued expires : Int} (h : HexDigest hmac)
    (htimes : grantTimes s d grant = some (issued, expires)) (hmac' : grantMac slug grant = some (message, hmac message))
    (hexpires : issued ≤ expires ∧ expires ≤ issued + s.viewGrantSessionSecs) :
    parseViewGrant hmac s d slug grant = some (issued, expires) := by
  simp only [parseViewGrant, htimes, hmac', if_neg (show ¬ expires < issued by omega),
    if_neg (show ¬ expires > issued + s.viewGrantSessionSecs by omega), h.matches, if_true]

/-- Either form of a new grant is read back as issued now, for the lifetime of a view. -/
theorem parseViewGrant_makeViewGrant (h : HexDigest hmac) (now : ℚ) :
    parseViewGrant hmac s d slug (makeViewGrant hmac s slug none now).text =
      some (toSeconds now, toSeconds now + s.viewGrantTtlSecs) := by
  have hsettings := s.ordered
  have hpositive := s.ttl.1
  unfold makeViewGrant
  split
  · have hsplit := splitOn_signed h [toSeconds now] (legacyMessage slug (Json.renderInt (toSeconds now)))
    refine parseViewGrant_of (legacyMessage slug (Json.renderInt (toSeconds now))) h (grantTimes_legacy h _ _) ?_
      ⟨by omega, by omega⟩
    rw [List.map_cons, List.map_nil, List.singleton_append] at hsplit
    simp only [Option.getD_none, grantMac, hsplit]
  · have hexpires : min (toSeconds now + s.viewGrantTtlSecs) (toSeconds now + s.viewGrantSessionSecs) =
        toSeconds now + s.viewGrantTtlSecs := by omega
    have hsplit := splitOn_signed h [toSeconds now, toSeconds now + s.viewGrantTtlSecs]
      (boundedMessage slug (Json.renderInt (toSeconds now)) (Json.renderInt (toSeconds now + s.viewGrantTtlSecs)))
    simp only [makeBoundedViewGrant, Option.getD_none, hexpires]
    refine parseViewGrant_of (boundedMessage slug (Json.renderInt (toSeconds now))
      (Json.renderInt (toSeconds now + s.viewGrantTtlSecs))) h (grantTimes_bounded h _ _ _) ?_ ⟨by omega, by omega⟩
    rw [List.map_cons, List.map_cons, List.map_nil, List.cons_append, List.singleton_append] at hsplit
    simp only [grantMac, hsplit]

theorem length_makeViewGrant (h : HexDigest hmac) (now : ℚ) :
    ((makeViewGrant hmac s slug none now).text.splitOn '.').length = if s.viewGrantEmitLegacy then 2 else 3 := by
  unfold makeViewGrant
  split
  · have hsplit := splitOn_signed h [toSeconds now] (legacyMessage slug (Json.renderInt (toSeconds now)))
    rw [List.map_cons, List.map_nil, List.singleton_append] at hsplit
    simp only [Option.getD_none, hsplit, List.length_cons, List.length_nil]
  · simp only [makeBoundedViewGrant, Option.getD_none]
    have hsplit := splitOn_signed h [toSeconds now, min (toSeconds now + s.viewGrantTtlSecs) (toSeconds now + s.viewGrantSessionSecs)]
    simp only [List.map_cons, List.map_nil, List.cons_append, List.nil_append] at hsplit
    rw [hsplit]
    rfl

/-- A grant is accepted from half a minute before it was issued until the lifetime of a view is over, in whichever form
the server hands it out, and can be renewed until the session is over if it is of the bounded form. -/
theorem grant_accepted_in_its_window (h : HexDigest hmac) (now now' : ℚ) :
    (verifyViewGrant hmac s d slug (makeViewGrant hmac s slug none now).text now' = true ↔
      toSeconds now ≤ toSeconds now' + 30 ∧ toSeconds now' ≤ toSeconds now + s.viewGrantTtlSecs) ∧
    ((validateViewGrantRenewal hmac s d slug (makeViewGrant hmac s slug none now).text now').isSome ↔
      s.viewGrantEmitLegacy = false ∧ toSeconds now ≤ toSeconds now' + 30 ∧
        toSeconds now' < toSeconds now + s.viewGrantSessionSecs) := by
  constructor
  · rw [verifyViewGrant, parseViewGrant_makeViewGrant h]
    simp only [Bool.and_eq_true, decide_eq_true_eq]
  · rw [validateViewGrantRenewal, length_makeViewGrant h, parseViewGrant_makeViewGrant h]
    cases s.viewGrantEmitLegacy with
    | true => simp
    | false => simp [Option.filter]

/-- A digest of 64 hexadecimal digits. -/
def sampleHmac (m : List Char) : List Char :=
  let n := m.foldl (fun n c => (131 * n + c.toNat) % 2 ^ 128) 7
  (List.range 64).map fun i => Nat.digitChar (n / 16 ^ i % 16)

theorem hexDigest_sampleHmac : HexDigest sampleHmac where
  length m := by rw [sampleHmac, List.length_map, List.length_range]
  hex m c hc := by
    have hdigit : ∀ k < 16, isHexDigit (Nat.digitChar k) := by decide
    obtain ⟨i, -, rfl⟩ := List.mem_map.mp hc
    exact hdigit _ (Nat.mod_lt _ (by decide))

def sampleSettings : GrantSettings := ⟨600, 3600, true, by decide, by decide, by decide⟩

def sampleDecimals : Decimals where
  value c := if c.isDigit then some (c.toNat - '0'.toNat) else none
  ascii _ h := if_pos h
  colon := rfl

theorem grant_accepted_in_its_window_sample :
    (verifyViewGrant sampleHmac sampleSettings sampleDecimals "Zk3_x".toList
        (makeViewGrant sampleHmac sampleSettings "Zk3_x".toList none 1000).text 1600 = true ↔ (1000 : Int) ≤ 1600 + 30 ∧
      (1600 : Int) ≤ 1000 + 600) ∧
    ((validateViewGrantRenewal sampleHmac sampleSettings sampleDecimals "Zk3_x".toList
        (makeViewGrant sampleHmac sampleSettings "Zk3_x".toList none 1000).text 1600).isSome ↔
      true = false ∧ (1000 : Int) ≤ 1600 + 30 ∧ (1600 : Int) < 1000 + 3600) :=
  grant_accepted_in_its_window hexDigest_sampleHmac 1000 1600

end Akb.Publications
