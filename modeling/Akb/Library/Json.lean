import Mathlib.Data.List.Sort
import Mathlib.Data.String.Basic
import Mathlib.Tactic.IntervalCases

/-! Compact JSON texts of flat objects with sorted keys, as `json.dumps` writes
them without ASCII escaping. Different objects have different texts. -/
namespace Akb.Library.Json

inductive Scalar where
  | null
  | bool (b : Bool)
  | num (n : Nat)
  | str (s : String)
  deriving DecidableEq

abbrev Field := String × Scalar

def hexDigit (n : Nat) : Char := "0123456789abcdef".toList.getD n '0'

/-- The escapes of a JSON string; everything else stands for itself. -/
def escapeChar (c : Char) : List Char :=
  if c = '"' then ['\\', '"']
  else if c = '\\' then ['\\', '\\']
  else if c = '\n' then ['\\', 'n']
  else if c = '\r' then ['\\', 'r']
  else if c = '\t' then ['\\', 't']
  else if c = '\x08' then ['\\', 'b']
  else if c = '\x0c' then ['\\', 'f']
  else if c.toNat < 32 then ['\\', 'u', '0', '0', hexDigit (c.toNat / 16), hexDigit (c.toNat % 16)]
  else [c]

def renderString (s : String) : List Char := '"' :: (s.toList.flatMap escapeChar ++ ['"'])

def renderScalar : Scalar → List Char
  | .null => "null".toList
  | .bool b => (if b then "true" else "false").toList
  | .num n => Nat.toDigits 10 n
  | .str s => renderString s

def renderField (f : Field) : List Char := renderString f.1 ++ ':' :: renderScalar f.2

/-- What follows the first field. -/
def renderRest : List Field → List Char
  | [] => ['}']
  | f :: fs => ',' :: (renderField f ++ renderRest fs)

def renderObject : List Field → List Char
  | [] => ['{', '}']
  | f :: fs => '{' :: (renderField f ++ renderRest fs)

/-- `json.dumps(fields, ensure_ascii=False, separators=(",", ":"), sort_keys=True)`. -/
def dumps (fields : List Field) : String :=
  String.ofList (renderObject (fields.insertionSort (fun a b => a.1 ≤ b.1)))

/-! ### Reading a text back -/

def hexValue (c : Char) : Nat := "0123456789abcdef".toList.idxOf c

/-- The character an escaped text begins with; a bare quote begins none. -/
private def unescape : List Char → Option (Char × List Char)
  | '\\' :: 'u' :: '0' :: '0' :: a :: b :: rest => some (Char.ofNat (16 * hexValue a + hexValue b), rest)
  | '\\' :: 'n' :: rest => some ('\n', rest)
  | '\\' :: 'r' :: rest => some ('\r', rest)
  | '\\' :: 't' :: rest => some ('\t', rest)
  | '\\' :: 'b' :: rest => some ('\x08', rest)
  | '\\' :: 'f' :: rest => some ('\x0c', rest)
  | '\\' :: c :: rest => some (c, rest)
  | '"' :: _ => none
  | c :: rest => some (c, rest)
  | [] => none

theorem hexValue_hexDigit : ∀ n < 16, hexValue (hexDigit n) = n := by decide

private theorem unescape_escapeChar (c : Char) (rest : List Char) :
    unescape (escapeChar c ++ rest) = some (c, rest) := by
  unfold escapeChar
  split
  · subst_vars; rfl
  split
  · subst_vars; rfl
  split
  · subst_vars; rfl
  split
  · subst_vars; rfl
  split
  · subst_vars; rfl
  split
  · subst_vars; rfl
  split
  · subst_vars; rfl
  split
  · have hhigh := hexValue_hexDigit (c.toNat / 16) (by omega)
    have hlow := hexValue_hexDigit (c.toNat % 16) (by omega)
    simp only [List.cons_append, List.nil_append, unescape, hhigh, hlow]
    rw [show 16 * (c.toNat / 16) + c.toNat % 16 = c.toNat by omega, Char.ofNat_toNat]
  · rename_i hquote hslash _ _ _ _ _ _
    simp only [List.cons_append, List.nil_append]
    unfold unescape
    split <;> simp_all

private theorem escapeChars_inj {cs ds r s : List Char}
    (h : cs.flatMap escapeChar ++ '"' :: r = ds.flatMap escapeChar ++ '"' :: s) : cs = ds ∧ r = s := by
  induction cs generalizing ds with
  | nil =>
    cases ds with
    | nil => exact ⟨rfl, (List.cons.inj h).2⟩
    | cons d ds =>
      have hd := unescape_escapeChar d (ds.flatMap escapeChar ++ '"' :: s)
      rw [List.flatMap_cons, List.append_assoc] at h
      rw [← h] at hd
      cases hd
  | cons c cs ih =>
    have hc := unescape_escapeChar c (cs.flatMap escapeChar ++ '"' :: r)
    rw [List.flatMap_cons, List.append_assoc] at h
    rw [h] at hc
    cases ds with
    | nil => cases hc
    | cons d ds =>
      rw [List.flatMap_cons, List.append_assoc, unescape_escapeChar] at hc
      obtain ⟨rfl, hrest⟩ := Prod.mk.inj (Option.some.inj hc)
      obtain ⟨rfl, rfl⟩ := ih hrest.symm
      exact ⟨rfl, rfl⟩

private theorem renderString_inj {a b : String} {r s : List Char}
    (h : renderString a ++ r = renderString b ++ s) : a = b ∧ r = s := by
  simp only [renderString, List.cons_append, List.append_assoc, List.nil_append, List.cons.injEq, true_and] at h
  obtain ⟨hl, hr⟩ := escapeChars_inj h
  exact ⟨String.toList_injective hl, hr⟩

/-- What may follow a value inside an object. -/
private def Closed (r : List Char) : Prop := ∃ t, r = ',' :: t ∨ r = '}' :: t

private theorem closed_renderRest (fs : List Field) (r : List Char) : Closed (renderRest fs ++ r) := by
  cases fs with
  | nil => exact ⟨r, Or.inr rfl⟩
  | cons f fs => exact ⟨_, Or.inl rfl⟩

private theorem takeWhile_digits (n : Nat) {r : List Char} (hr : Closed r) :
    (Nat.toDigits 10 n ++ r).takeWhile Char.isDigit = Nat.toDigits 10 n := by
  have hall : ∀ c ∈ Nat.toDigits 10 n, c.isDigit := fun c hc =>
    Nat.isDigit_of_mem_toDigits (by decide) (by decide) hc
  rw [List.takeWhile_append_of_pos hall]
  obtain ⟨t, rfl | rfl⟩ := hr
  · simp
  · simp

private theorem toDigits_inj {m n : Nat} {r s : List Char} (hr : Closed r) (hs : Closed s)
    (h : Nat.toDigits 10 m ++ r = Nat.toDigits 10 n ++ s) : m = n ∧ r = s := by
  have hd : Nat.toDigits 10 m = Nat.toDigits 10 n := by
    rw [← takeWhile_digits m hr, h, takeWhile_digits n hs]
  rw [hd] at h
  refine ⟨?_, List.append_cancel_left h⟩
  have hv := congrArg (fun ds => Nat.ofDigitChars 10 ds 0) hd
  simpa only [Nat.ofDigitChars_ten_toDigits] using hv

/-- The first character tells the kind of a value. -/
theorem head_toDigits (n : Nat) (r : List Char) :
    ∃ c t, Nat.toDigits 10 n ++ r = c :: t ∧ c.isDigit := by
  cases h : Nat.toDigits 10 n with
  | nil => exact absurd h Nat.toDigits_ne_nil
  | cons c t =>
    exact ⟨c, t ++ r, rfl, Nat.isDigit_of_mem_toDigits (by decide) (by decide) (h ▸ List.mem_cons_self)⟩

private theorem renderScalar_inj {v w : Scalar} {r s : List Char} (hr : Closed r) (hs : Closed s)
    (h : renderScalar v ++ r = renderScalar w ++ s) : v = w ∧ r = s := by
  cases v with
  | null =>
    cases w with
    | null => exact ⟨rfl, List.append_cancel_left h⟩
    | bool b => cases b <;> simp [renderScalar] at h
    | num n =>
      obtain ⟨c, t, he, hd⟩ := head_toDigits n s
      simp only [renderScalar, he] at h
      cases h
      exact absurd hd (by decide)
    | str a => simp [renderScalar, renderString] at h
  | bool b =>
    cases w with
    | null => cases b <;> simp [renderScalar] at h
    | bool b' => cases b <;> cases b' <;> simp_all [renderScalar]
    | num n =>
      obtain ⟨c, t, he, hd⟩ := head_toDigits n s
      simp only [renderScalar, he] at h
      cases b <;> cases h <;> exact absurd hd (by decide)
    | str a => cases b <;> simp [renderScalar, renderString] at h
  | num n =>
    cases w with
    | num m =>
      obtain ⟨rfl, rfl⟩ := toDigits_inj hr hs h
      exact ⟨rfl, rfl⟩
    | null =>
      obtain ⟨c, t, he, hd⟩ := head_toDigits n r
      simp only [renderScalar, he] at h
      cases h
      exact absurd hd (by decide)
    | bool b =>
      obtain ⟨c, t, he, hd⟩ := head_toDigits n r
      simp only [renderScalar, he] at h
      cases b <;> cases h <;> exact absurd hd (by decide)
    | str a =>
      obtain ⟨c, t, he, hd⟩ := head_toDigits n r
      simp only [renderScalar, renderString, he] at h
      cases h
      exact absurd hd (by decide)
  | str a =>
    cases w with
    | null => simp [renderScalar, renderString] at h
    | bool b => cases b <;> simp [renderScalar, renderString] at h
    | num n =>
      obtain ⟨c, t, he, hd⟩ := head_toDigits n s
      simp only [renderScalar, renderString, he] at h
      cases h
      exact absurd hd (by decide)
    | str b =>
      obtain ⟨rfl, rfl⟩ := renderString_inj h
      exact ⟨rfl, rfl⟩

private theorem renderField_inj {f g : Field} {r s : List Char} (hr : Closed r) (hs : Closed s)
    (h : renderField f ++ r = renderField g ++ s) : f = g ∧ r = s := by
  simp only [renderField, List.append_assoc] at h
  obtain ⟨hkey, hrest⟩ := renderString_inj h
  obtain ⟨hvalue, htail⟩ := renderScalar_inj hr hs (List.cons.inj hrest).2
  exact ⟨Prod.ext hkey hvalue, htail⟩

private theorem renderRest_inj {fs gs : List Field} {r s : List Char}
    (h : renderRest fs ++ r = renderRest gs ++ s) : fs = gs ∧ r = s := by
  induction fs generalizing gs with
  | nil =>
    cases gs with
    | nil => exact ⟨rfl, (List.cons.inj h).2⟩
    | cons g gs => exact absurd (List.cons.inj h).1 (by decide)
  | cons f fs ih =>
    cases gs with
    | nil => exact absurd (List.cons.inj h).1 (by decide)
    | cons g gs =>
      have h' : (renderField f ++ renderRest fs) ++ r = (renderField g ++ renderRest gs) ++ s :=
        (List.cons.inj h).2
      rw [List.append_assoc, List.append_assoc] at h'
      obtain ⟨rfl, hrest⟩ := renderField_inj (closed_renderRest fs r) (closed_renderRest gs s) h'
      obtain ⟨rfl, rfl⟩ := ih hrest
      exact ⟨rfl, rfl⟩

theorem renderObject_injective : Function.Injective renderObject := by
  intro fs gs h
  cases fs with
  | nil =>
    cases gs with
    | nil => rfl
    | cons g gs => simp [renderObject, renderField, renderString] at h
  | cons f fs =>
    cases gs with
    | nil => simp [renderObject, renderField, renderString] at h
    | cons g gs =>
      have h' := (List.cons.inj h).2
      rw [← List.append_nil (renderField f ++ renderRest fs), ← List.append_nil (renderField g ++ renderRest gs),
        List.append_assoc, List.append_assoc] at h'
      obtain ⟨rfl, hrest⟩ := renderField_inj (closed_renderRest fs []) (closed_renderRest gs []) h'
      obtain ⟨rfl, _⟩ := renderRest_inj hrest
      rfl

/-- One text, one set of fields. -/
theorem dumps_inj {fs gs : List Field} (h : dumps fs = dumps gs) (f : Field) : f ∈ fs ↔ f ∈ gs := by
  have hs := renderObject_injective (String.ofList_injective h)
  rw [← (List.perm_insertionSort (fun a b : Field => a.1 ≤ b.1) fs).mem_iff, hs,
    (List.perm_insertionSort (fun a b : Field => a.1 ≤ b.1) gs).mem_iff]

/-- Objects with the same keys and the same fields list them alike. -/
theorem fields_ext {fs gs : List Field} (hkeys : fs.map Prod.fst = gs.map Prod.fst) (hnodup : (fs.map Prod.fst).Nodup)
    (h : ∀ f, f ∈ fs ↔ f ∈ gs) : fs = gs := by
  induction fs generalizing gs with
  | nil => exact (List.map_eq_nil_iff.mp hkeys.symm).symm
  | cons f fs ih =>
    cases gs with
    | nil => cases hkeys
    | cons g gs =>
      simp only [List.map_cons, List.cons.injEq] at hkeys
      obtain ⟨hk, hkeys⟩ := hkeys
      obtain ⟨hf, hnodup⟩ := List.nodup_cons.mp hnodup
      have hnot (x : Field) (hx : x ∈ fs) : x ≠ f := fun he => hf (List.mem_map.mpr ⟨x, hx, congrArg Prod.fst he⟩)
      have hnot' (x : Field) (hx : x ∈ gs) : x.1 ≠ f.1 := fun he => hf (hkeys ▸ List.mem_map.mpr ⟨x, hx, he⟩)
      have hfg : f = g := (List.mem_cons.mp ((h f).mp (List.mem_cons_self ..))).resolve_right (fun hg => hnot' f hg rfl)
      subst hfg
      rw [ih hkeys hnodup (fun x => ?_)]
      constructor
      · exact fun hx => (List.mem_cons.mp ((h x).mp (List.mem_cons_of_mem _ hx))).resolve_left (hnot x hx)
      · exact fun hx => (List.mem_cons.mp ((h x).mpr (List.mem_cons_of_mem _ hx))).resolve_left
          (fun he => hnot' x hx (congrArg Prod.fst he))

end Akb.Library.Json
