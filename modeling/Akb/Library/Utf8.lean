import Mathlib.Data.List.Infix

/-! Bytes of a text in UTF-8, whole and cut. -/
namespace Akb.Library.Utf8

def encode (s : List Char) : List UInt8 := s.flatMap String.utf8EncodeChar

/-- `bytes.decode("utf-8", errors="strict")`. -/
def decode (bytes : List UInt8) : Option (List Char) := bytes.toByteArray.utf8Decode?.map Array.toList

def firstChar (bytes : List UInt8) : Option Char := bytes.toByteArray.utf8DecodeChar? 0

/-- `bytes.decode("utf-8", errors="ignore")`; `skip` bytes belong to the last character. -/
def decodeIgnore : Nat → List UInt8 → List Char
  | _, [] => []
  | skip + 1, _ :: bytes => decodeIgnore skip bytes
  | 0, byte :: bytes =>
    match firstChar (byte :: bytes) with
    | some c => c :: decodeIgnore (c.utf8Size - 1) bytes
    | none => decodeIgnore 0 bytes

/-- The first characters that fit into so many bytes. -/
def fitting : Nat → List Char → List Char
  | _, [] => []
  | n, c :: s => if c.utf8Size ≤ n then c :: fitting (n - c.utf8Size) s else []

theorem encode_cons (c : Char) (s : List Char) : encode (c :: s) = String.utf8EncodeChar c ++ encode s := List.flatMap_cons

theorem encode_append (s t : List Char) : encode (s ++ t) = encode s ++ encode t := List.flatMap_append

theorem length_le_encode (s : List Char) : s.length ≤ (encode s).length := by
  induction s with
  | nil => exact Nat.zero_le _
  | cons c s ih =>
    rw [encode_cons, List.length_append, String.length_utf8EncodeChar, List.length_cons]
    have hpos := c.utf8Size_pos
    omega

/-! ### Strict decoding -/

theorem decode_encode (s : List Char) : decode (encode s) = some s := by
  rw [decode, encode, ← List.utf8Encode, List.utf8Decode?_utf8Encode, Option.map_some]

theorem encode_of_decode {bytes : List UInt8} {s : List Char} (h : decode bytes = some s) : encode s = bytes := by
  obtain ⟨chars, hchars, rfl⟩ := Option.map_eq_some_iff.mp h
  have hsome : bytes.toByteArray.utf8Decode?.isSome := Option.isSome_of_eq_some hchars
  have hencode := ByteArray.utf8Encode_get_utf8Decode? (h := hsome)
  rw [Option.get_of_eq_some hsome hchars, List.utf8Encode] at hencode
  exact List.toByteArray_inj.mp hencode

theorem encode_injective {s t : List Char} (h : encode s = encode t) : s = t := by
  have hs := decode_encode s
  rw [h, decode_encode] at hs
  exact (Option.some.inj hs).symm

/-- What decodes at the beginning of a text's bytes is a beginning of the text. -/
theorem prefix_of_decode {bytes rest : List UInt8} {s t : List Char} (h : decode bytes = some t)
    (hbytes : bytes ++ rest = encode s) : t <+: s := by
  apply List.isPrefix_of_utf8Encode_append_eq_utf8Encode rest.toByteArray
  rw [List.utf8Encode, List.utf8Encode, ← encode, ← encode, encode_of_decode h, ← hbytes, List.toByteArray_append]

/-! ### Decoding what was cut -/

theorem firstChar_encode (c : Char) (rest : List UInt8) : firstChar (String.utf8EncodeChar c ++ rest) = some c := by
  rw [firstChar, List.toByteArray_append, ByteArray.utf8DecodeChar?_utf8EncodeChar_append]

theorem bytes_of_firstChar {bytes : List UInt8} {c : Char} (h : firstChar bytes = some c) :
    ∃ rest, bytes = String.utf8EncodeChar c ++ rest := by
  obtain ⟨rest, hrest⟩ := ByteArray.exists_of_utf8DecodeChar?_eq_some h
  refine ⟨rest.data.toList, ?_⟩
  have hlist := congrArg (fun b => b.data.toList) hrest
  simpa only [ByteArray.data_append, Array.toList_append, List.toList_data_toByteArray] using hlist

/-- A character that lacks bytes at its end does not decode. -/
theorem firstChar_cut {bytes rest : List UInt8} {c : Char} (h : bytes ++ rest = String.utf8EncodeChar c) (hrest : rest ≠ []) :
    firstChar bytes = none := by
  rw [Option.eq_none_iff_forall_ne_some]
  intro d hd
  obtain ⟨more, rfl⟩ := bytes_of_firstChar hd
  have hc := firstChar_encode c []
  rw [List.append_nil, ← h, List.append_assoc, firstChar_encode] at hc
  have hlength := congrArg List.length h
  rw [Option.some.inj hc, List.length_append, List.length_append] at hlength
  exact hrest (List.length_eq_zero_iff.mp (by omega))

/-- The bytes behind the first one of a character begin none. -/
theorem firstChar_inside {before bytes rest : List UInt8} {c : Char} (h : before ++ bytes ++ rest = String.utf8EncodeChar c)
    (hbefore : before ≠ []) : firstChar bytes = none := by
  rw [Option.eq_none_iff_forall_ne_some]
  intro d hd
  obtain ⟨more, rfl⟩ := bytes_of_firstChar hd
  have hpos : 0 < (String.utf8EncodeChar d).length := by
    rw [String.length_utf8EncodeChar]
    exact d.utf8Size_pos
  have hlength := congrArg List.length h
  simp only [List.length_append] at hlength
  have hfirst : UInt8.IsUTF8FirstByte (String.utf8EncodeChar d)[0] := UInt8.isUTF8FirstByte_getElem_utf8EncodeChar.mpr rfl
  have hat : (String.utf8EncodeChar c)[before.length]? = some (String.utf8EncodeChar d)[0] := by
    rw [← h, List.append_assoc, List.getElem?_append_right (le_refl _), Nat.sub_self, List.append_assoc,
      List.getElem?_append_left hpos, List.getElem?_eq_getElem hpos]
  obtain ⟨hlt, hat⟩ := List.getElem?_eq_some_iff.mp hat
  rw [← hat, UInt8.isUTF8FirstByte_getElem_utf8EncodeChar] at hfirst
  exact hbefore (List.length_eq_zero_iff.mp hfirst)

theorem decodeIgnore_skip (skipped bytes : List UInt8) : decodeIgnore skipped.length (skipped ++ bytes) = decodeIgnore 0 bytes := by
  induction skipped with
  | nil => rfl
  | cons byte skipped ih => exact ih

theorem decodeIgnore_char (c : Char) (bytes : List UInt8) :
    decodeIgnore 0 (String.utf8EncodeChar c ++ bytes) = c :: decodeIgnore 0 bytes := by
  have hsize := String.length_utf8EncodeChar c
  have hfirst := firstChar_encode c bytes
  cases hbytes : String.utf8EncodeChar c with
  | nil =>
    have hpos := c.utf8Size_pos
    rw [hbytes, List.length_nil] at hsize
    omega
  | cons byte more =>
    rw [hbytes, List.cons_append] at hfirst
    rw [List.cons_append, decodeIgnore, hfirst]
    rw [hbytes, List.length_cons] at hsize
    simp only
    rw [← hsize, Nat.add_sub_cancel, decodeIgnore_skip]

/-- Bytes at which no character begins are ignored. -/
theorem decodeIgnore_nothing {bytes : List UInt8} (h : ∀ before rest, before ++ rest = bytes → firstChar rest = none) :
    decodeIgnore 0 bytes = [] := by
  induction bytes with
  | nil => rfl
  | cons byte bytes ih =>
    rw [decodeIgnore, h [] (byte :: bytes) rfl]
    exact ih fun before rest hsplit => h (byte :: before) rest (congrArg _ hsplit)

/-- Cut anywhere, the bytes of a text decode to the characters that they hold in full. -/
theorem decodeIgnore_take (s : List Char) (n : Nat) : decodeIgnore 0 ((encode s).take n) = fitting n s := by
  induction s generalizing n with
  | nil => rw [encode, List.flatMap_nil, List.take_nil]; rfl
  | cons c s ih =>
    have hsize := String.length_utf8EncodeChar c
    rw [encode_cons, fitting]
    split
    · rename_i hfits
      rw [List.take_append, List.take_of_length_le (by omega), decodeIgnore_char, hsize, ih]
    · rename_i hcut
      rw [List.take_append_of_le_length (by omega)]
      have hsplit := List.take_append_drop n (String.utf8EncodeChar c)
      have hrest : (String.utf8EncodeChar c).drop n ≠ [] := by
        rw [← List.length_pos_iff, List.length_drop]
        omega
      refine decodeIgnore_nothing fun before rest heq => ?_
      rw [← heq] at hsplit
      by_cases hbefore : before = []
      · rw [hbefore, List.nil_append] at hsplit
        exact firstChar_cut hsplit hrest
      · exact firstChar_inside hsplit hbefore

theorem fitting_prefix (n : Nat) (s : List Char) : fitting n s <+: s := by
  induction s generalizing n with
  | nil => exact List.nil_prefix
  | cons c s ih =>
    rw [fitting]
    split
    · exact List.prefix_cons_inj c |>.mpr (ih _)
    · exact List.nil_prefix

theorem length_encode_fitting (n : Nat) (s : List Char) : (encode (fitting n s)).length ≤ n := by
  induction s generalizing n with
  | nil => exact Nat.zero_le n
  | cons c s ih =>
    rw [fitting]
    split
    · have hrest := ih (n - c.utf8Size)
      rw [encode_cons, List.length_append, String.length_utf8EncodeChar]
      omega
    · exact Nat.zero_le n

theorem fitting_append {n : Nat} {s : List Char} (h : (encode s).length ≤ n) (t : List Char) :
    fitting n (s ++ t) = s ++ fitting (n - (encode s).length) t := by
  induction s generalizing n with
  | nil => rfl
  | cons c s ih =>
    rw [encode_cons, List.length_append, String.length_utf8EncodeChar] at h ⊢
    rw [List.cons_append, fitting, if_pos (by omega), ih (by omega), Nat.sub_add_eq]
    rfl

theorem fitting_all {n : Nat} {s : List Char} (h : (encode s).length ≤ n) : fitting n s = s := by
  have hall := fitting_append h []
  rwa [List.append_nil, fitting, List.append_nil] at hall

/-- Cut anywhere, the bytes of a text are those of the characters that fit and less than one character. -/
theorem take_encode (s : List Char) (n : Nat) :
    ∃ part, (encode s).take n = encode (fitting n s) ++ part ∧
      (part = [] ∨ ∃ c rest, rest ≠ [] ∧ part ++ rest = String.utf8EncodeChar c) := by
  induction s generalizing n with
  | nil => exact ⟨[], by rw [encode, List.flatMap_nil, List.take_nil]; rfl, Or.inl rfl⟩
  | cons c s ih =>
    have hsize := String.length_utf8EncodeChar c
    rw [encode_cons, fitting]
    split
    · obtain ⟨part, htake, hpart⟩ := ih (n - c.utf8Size)
      refine ⟨part, ?_, hpart⟩
      rw [List.take_append, List.take_of_length_le (by omega), hsize, htake, encode_cons, List.append_assoc]
    · rename_i hcut
      refine ⟨(String.utf8EncodeChar c).take n, ?_, Or.inr ⟨c, (String.utf8EncodeChar c).drop n, ?_, List.take_append_drop n _⟩⟩
      · rw [List.take_append_of_le_length (by omega)]
        rfl
      · rw [← List.length_pos_iff, List.length_drop]
        omega

/-- With a part of a character at the end nothing decodes. -/
theorem decode_part (s : List Char) {part rest : List UInt8} {c : Char} (hpart : part ≠ []) (hrest : rest ≠ [])
    (h : part ++ rest = String.utf8EncodeChar c) : decode (encode s ++ part) = none := by
  rw [Option.eq_none_iff_forall_ne_some]
  intro t ht
  have hbytes := encode_of_decode ht
  obtain ⟨more, rfl⟩ := prefix_of_decode (decode_encode s) hbytes.symm
  rw [encode_append, List.append_cancel_left_eq] at hbytes
  cases more with
  | nil => exact hpart hbytes.symm
  | cons d more =>
    have hfirst := firstChar_encode d (encode more)
    rw [← encode_cons, hbytes, firstChar_cut h hrest] at hfirst
    cases hfirst

end Akb.Library.Utf8
