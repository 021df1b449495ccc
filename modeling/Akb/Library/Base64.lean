import Akb.Library.PyText
import Mathlib.Data.List.Basic
import Mathlib.Data.Nat.Basic

/-! The URL-safe base64 texts of `base64`, without their padding. -/
namespace Akb.Library.Base64

def alphabet : List Char := "ABCDEFGHIJKLMNOPQRSTUVWXYZabcdefghijklmnopqrstuvwxyz0123456789-_".toList

def sextetChar (n : Nat) : Char := alphabet.getD n 'A'

/-- The value of a character; with `altchars=b"-_"` the characters `+` and `/` keep theirs. -/
def sextet (c : Char) : Option Nat :=
  if c = '+' then some 62
  else if c = '/' then some 63
  else if c ∈ alphabet then some (alphabet.idxOf c) else none

/-- `urlsafe_b64encode(bytes).decode().rstrip("=")`. -/
def encode : List UInt8 → List Char
  | [] => []
  | [a] => [a.toNat / 4, a.toNat % 4 * 16].map sextetChar
  | [a, b] => [a.toNat / 4, a.toNat % 4 * 16 + b.toNat / 16, b.toNat % 16 * 4].map sextetChar
  | a :: b :: c :: rest =>
    [a.toNat / 4, a.toNat % 4 * 16 + b.toNat / 16, b.toNat % 16 * 4 + c.toNat / 64, c.toNat % 64].map sextetChar ++
      encode rest

/-- The bytes of whole groups of four and of a last one of two or three. -/
def bytesOf : List Nat → List UInt8
  | w :: x :: y :: z :: rest =>
    [w * 4 + x / 16, x % 16 * 16 + y / 4, y % 4 * 64 + z].map UInt8.ofNat ++ bytesOf rest
  | [w, x, y] => [w * 4 + x / 16, x % 16 * 16 + y / 4].map UInt8.ofNat
  | [w, x] => [w * 4 + x / 16].map UInt8.ofNat
  | _ => []

/-- `b64decode(text + "=" * (-len(text) % 4), altchars=b"-_", validate=True)`. -/
def decode (text : List Char) : Option (List UInt8) :=
  let padded := text ++ List.replicate ((4 - text.length % 4) % 4) '='
  let padding := padded.dropWhile (· ≠ '=')
  if padding.length ≤ 2 ∧ ∀ c ∈ padding, c = '=' then ((padded.takeWhile (· ≠ '=')).mapM sextet).map bytesOf
  else none

private theorem alphabet_spec : alphabet.length = 64 ∧ alphabet.Nodup ∧ ∀ c ∈ ['+', '/', '='], c ∉ alphabet := by
  have hchars : alphabet = _ := String.toList_ofList
  rw [hchars]
  decide +kernel

private theorem sextetChar_eq {n : Nat} (h : n < alphabet.length) : sextetChar n = alphabet[n] := by
  rw [sextetChar, List.getD_eq_getElem?_getD, List.getElem?_eq_getElem h, Option.getD_some]

private theorem sextetChar_alphabet (n : Nat) (h : n < 64) : sextetChar n ∈ alphabet := by
  rw [← alphabet_spec.1] at h
  rw [sextetChar_eq h]
  exact List.getElem_mem h

private theorem sextetChar_ne {c : Char} (hc : c ∈ ['+', '/', '=']) (n : Nat) (h : n < 64) : sextetChar n ≠ c :=
  fun heq => alphabet_spec.2.2 c hc (heq ▸ sextetChar_alphabet n h)

theorem sextet_sextetChar (n : Nat) (h : n < 64) : sextet (sextetChar n) = some n := by
  rw [sextet, if_neg (sextetChar_ne (by simp) n h), if_neg (sextetChar_ne (by simp) n h),
    if_pos (sextetChar_alphabet n h)]
  rw [← alphabet_spec.1] at h
  rw [sextetChar_eq h, alphabet_spec.2.1.idxOf_getElem n h]

private theorem sextetChar_ne_pad (n : Nat) (h : n < 64) : sextetChar n ≠ '=' := sextetChar_ne (by simp) n h

/-- The values of the characters that a list of bytes is written with. -/
private def sextets : List UInt8 → List Nat
  | [] => []
  | [a] => [a.toNat / 4, a.toNat % 4 * 16]
  | [a, b] => [a.toNat / 4, a.toNat % 4 * 16 + b.toNat / 16, b.toNat % 16 * 4]
  | a :: b :: c :: rest =>
    [a.toNat / 4, a.toNat % 4 * 16 + b.toNat / 16, b.toNat % 16 * 4 + c.toNat / 64, c.toNat % 64] ++ sextets rest

private theorem encode_eq (bytes : List UInt8) : encode bytes = (sextets bytes).map sextetChar := by
  induction bytes using encode.induct with
  | case1 => rfl
  | case2 a => rfl
  | case3 a b => rfl
  | case4 a b c rest ih => rw [encode, sextets, List.map_append, ih]

private theorem sextets_lt (bytes : List UInt8) : ∀ n ∈ sextets bytes, n < 64 := by
  induction bytes using encode.induct with
  | case1 => exact fun n hn => absurd hn List.not_mem_nil
  | case2 a =>
    have ha := a.toNat_lt
    simp only [sextets, List.mem_cons, List.not_mem_nil, or_false]
    omega
  | case3 a b =>
    have ha := a.toNat_lt
    have hb := b.toNat_lt
    simp only [sextets, List.mem_cons, List.not_mem_nil, or_false]
    omega
  | case4 a b c rest ih =>
    have ha := a.toNat_lt
    have hb := b.toNat_lt
    have hc := c.toNat_lt
    intro n hn
    rcases List.mem_append.mp hn with hn | hn
    · simp only [List.mem_cons, List.not_mem_nil, or_false] at hn
      omega
    · exact ih n hn

private theorem bytesOf_sextets (bytes : List UInt8) : bytesOf (sextets bytes) = bytes := by
  induction bytes using encode.induct with
  | case1 => rfl
  | case2 a =>
    have ha : a.toNat / 4 * 4 + a.toNat % 4 * 16 / 16 = a.toNat := by omega
    simp only [sextets, bytesOf, List.map_cons, List.map_nil, ha, UInt8.ofNat_toNat]
  | case3 a b =>
    have hb := b.toNat_lt
    have h₁ : a.toNat / 4 * 4 + (a.toNat % 4 * 16 + b.toNat / 16) / 16 = a.toNat := by omega
    have h₂ : (a.toNat % 4 * 16 + b.toNat / 16) % 16 * 16 + b.toNat % 16 * 4 / 4 = b.toNat := by omega
    simp only [sextets, bytesOf, List.map_cons, List.map_nil, h₁, h₂, UInt8.ofNat_toNat]
  | case4 a b c rest ih =>
    have hb := b.toNat_lt
    have hc := c.toNat_lt
    have h₁ : a.toNat / 4 * 4 + (a.toNat % 4 * 16 + b.toNat / 16) / 16 = a.toNat := by omega
    have h₂ : (a.toNat % 4 * 16 + b.toNat / 16) % 16 * 16 + (b.toNat % 16 * 4 + c.toNat / 64) / 4 = b.toNat := by omega
    have h₃ : (b.toNat % 16 * 4 + c.toNat / 64) % 4 * 64 + c.toNat % 64 = c.toNat := by omega
    simp only [sextets, List.cons_append, List.nil_append, bytesOf, List.map_cons, List.map_nil, h₁, h₂, h₃,
      UInt8.ofNat_toNat, ih]

theorem encode_alphabet (bytes : List UInt8) : ∀ c ∈ encode bytes, c ∈ alphabet := by
  rw [encode_eq]
  exact List.forall_mem_map.mpr fun n hn => sextetChar_alphabet n (sextets_lt bytes n hn)

theorem length_encode (bytes : List UInt8) : (encode bytes).length = (4 * bytes.length + 2) / 3 := by
  induction bytes using encode.induct with
  | case1 => rfl
  | case2 a => simp [encode]
  | case3 a b => simp [encode]
  | case4 a b c rest ih =>
    rw [encode, List.length_append, ih]
    simp only [List.length_map, List.length_cons, List.length_nil]
    omega

private theorem mapM_sextet {ns : List Nat} (h : ∀ n ∈ ns, n < 64) : (ns.map sextetChar).mapM sextet = some ns := by
  induction ns with
  | nil => rfl
  | cons n ns ih =>
    rw [List.forall_mem_cons] at h
    simp [List.mapM_cons, sextet_sextetChar n h.1, ih h.2]

theorem decode_encode (bytes : List UInt8) : decode (encode bytes) = some bytes := by
  have hlength := length_encode bytes
  rw [encode_eq] at hlength ⊢
  have hplain : ∀ c ∈ (sextets bytes).map sextetChar, c ≠ '=' :=
    List.forall_mem_map.mpr fun n hn => sextetChar_ne_pad n (sextets_lt bytes n hn)
  have hkeep : ∀ c ∈ (sextets bytes).map sextetChar, decide (c ≠ '=') = true := fun c hc => by simpa using hplain c hc
  have hpad (k : Nat) : (List.replicate k '=').dropWhile (· ≠ '=') = List.replicate k '=' ∧
      (List.replicate k '=').takeWhile (· ≠ '=') = [] := by
    cases k <;> simp [List.replicate_succ]
  simp only [decode]
  rw [List.dropWhile_append_of_pos hkeep, List.takeWhile_append_of_pos hkeep, (hpad _).1, (hpad _).2, List.append_nil,
    mapM_sextet (sextets_lt bytes), if_pos]
  · rw [Option.map_some, bytesOf_sextets]
  · refine ⟨?_, fun c hc => List.eq_of_mem_replicate hc⟩
    rw [List.length_replicate, hlength]
    omega

end Akb.Library.Base64
