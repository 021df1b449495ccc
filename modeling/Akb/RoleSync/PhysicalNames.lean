import Akb.RoleSync.Hooks

/-! The physical name of a table: how long it is, and which pairs of a vault and a table share one. -/
namespace Akb.RoleSync
open Akb.Library

variable {sha1 : List Char → List Char}

/-- What `[a-z0-9_]` matches. -/
def isPgChar (c : Char) : Bool := c.isLower || c.isDigit || c == '_'

/-- What `^vt_[a-z0-9_]+__[a-z0-9_]+$` matches. -/
def IsVtName (name : List Char) : Prop :=
  ∃ vault table, name = "vt_".toList ++ (vault ++ ("__".toList ++ table)) ∧ vault ≠ [] ∧ table ≠ [] ∧
    (∀ c ∈ vault, isPgChar c = true) ∧ ∀ c ∈ table, isPgChar c = true

/-- `hexdigest` writes at least the eight hexadecimal digits that a name takes. -/
structure HexDigest (sha1 : List Char → List Char) : Prop where
  length : ∀ text, 8 ≤ (sha1 text).length
  digits : ∀ text, ∀ c ∈ sha1 text, c.isDigit = true ∨ c.isLower = true

/-- The digest that the shortened name of a pair ends with. -/
def shortDigest (sha1 : List Char → List Char) (vaultName tableName : String) : List Char :=
  (sha1 (sanitizePgPart vaultName ++ '\x00' :: sanitizePgPart tableName)).take 8

/-- A vault and a table joined as in a physical name. -/
def joined (vault table : List Char) : List Char := vault ++ ("__".toList ++ table)

/-- The pair goes into a name as it is. -/
def FitsPlainly (vaultName tableName : String) : Prop :=
  (joined (sanitizePgPart vaultName) (sanitizePgPart tableName)).length ≤ 60

instance (vaultName tableName : String) : Decidable (FitsPlainly vaultName tableName) :=
  inferInstanceAs (Decidable (_ ≤ _))

/-- How many characters of the table and of the vault a shortened name keeps. -/
def tableKept (tableName : String) : Nat := min (sanitizePgPart tableName).length 48

def vaultKept (vaultName tableName : String) : Nat := min (sanitizePgPart vaultName).length (49 - tableKept tableName)

/-- A short pair that spells the first characters of a long one, an underscore and its digest. -/
def Spells (sha1 : List Char → List Char) (long short : String × String) : Prop :=
  ¬ FitsPlainly long.1 long.2 ∧ FitsPlainly short.1 short.2 ∧
    joined (sanitizePgPart short.1) (sanitizePgPart short.2) =
      joined ((sanitizePgPart long.1).take (vaultKept long.1 long.2))
        ((sanitizePgPart long.2).take (tableKept long.2) ++ '_' :: shortDigest sha1 long.1 long.2)

/-! ### Sanitized parts -/

theorem sanitizePgPart_chars (text : String) : ∀ c ∈ sanitizePgPart text, isPgChar c = true := by
  intro c hc
  obtain ⟨d, -, rfl⟩ := List.mem_map.mp hc
  by_cases hd : (d.isLower || d.isDigit) = true
  · rw [if_pos hd, isPgChar, hd, Bool.true_or]
  · rw [if_neg hd]
    rfl

theorem lower_ne_nil {s : List Char} (h : s ≠ []) : PyText.lower s ≠ [] := by
  cases s with
  | nil => exact absurd rfl h
  | cons c s =>
    have hhead : (PyText.asciiLowercases.lookup c).getD [c.toLower] ≠ [] := by
      cases hlook : PyText.asciiLowercases.lookup c with
      | none => exact List.cons_ne_nil _ _
      | some t =>
        have ht : t ≠ [] := by
          rw [PyText.asciiLowercases, List.lookup_cons] at hlook
          split at hlook
          · cases hlook
            exact List.cons_ne_nil _ _
          · rw [List.lookup_cons] at hlook
            split at hlook
            · cases hlook
              exact List.cons_ne_nil _ _
            · cases hlook
        exact ht
    rw [PyText.lower, List.flatMap_cons]
    exact fun heq => hhead (List.append_eq_nil_iff.mp heq).1

theorem sanitizePgPart_ne_nil {text : String} (h : text ≠ "") : sanitizePgPart text ≠ [] := by
  have hne : text.toList ≠ [] := fun heq => h (String.toList_eq_nil_iff.mp heq)
  exact fun heq => lower_ne_nil hne (List.map_eq_nil_iff.mp heq)

/-! ### The two forms of a name -/

theorem fitsPlainly_iff (vaultName tableName : String) : FitsPlainly vaultName tableName ↔
    ("vt_".toList ++ (sanitizePgPart vaultName ++ ("__".toList ++ sanitizePgPart tableName))).length ≤
      Tables.pgIdentMaxLen := by
  rw [FitsPlainly, joined, @List.length_append _ "vt_".toList]
  change _ ≤ 60 ↔ 3 + _ ≤ 63
  omega

theorem pgTableName_fits {vaultName tableName : String} (h : FitsPlainly vaultName tableName) :
    (pgTableName sha1 vaultName tableName).toList =
      "vt_".toList ++ joined (sanitizePgPart vaultName) (sanitizePgPart tableName) := by
  rw [pgTableName, if_pos ((fitsPlainly_iff _ _).mp h), String.toList_ofList]
  rfl

theorem pgTableName_shortened {vaultName tableName : String} (h : ¬ FitsPlainly vaultName tableName) :
    (pgTableName sha1 vaultName tableName).toList =
      "vt_".toList ++ joined ((sanitizePgPart vaultName).take (vaultKept vaultName tableName))
        ((sanitizePgPart tableName).take (tableKept tableName) ++ '_' :: shortDigest sha1 vaultName tableName) := by
  rw [pgTableName, if_neg fun hle => h ((fitsPlainly_iff _ _).mpr hle), String.toList_ofList]
  rfl

theorem length_shortDigest (hsha : HexDigest sha1) (vaultName tableName : String) :
    (shortDigest sha1 vaultName tableName).length = 8 := by
  rw [shortDigest, List.length_take]
  exact min_eq_left (hsha.length _)

/-- A name is at most 63 characters long, and of the form that raw SQL expects. -/
theorem pgTableName_wellFormed (hsha : HexDigest sha1) {vaultName tableName : String} (hv : vaultName ≠ "")
    (ht : tableName ≠ "") : (pgTableName sha1 vaultName tableName).toList.length ≤ 63 ∧
      IsVtName (pgTableName sha1 vaultName tableName).toList := by
  have hvault := sanitizePgPart_ne_nil hv
  have htable := sanitizePgPart_ne_nil ht
  by_cases hfits : FitsPlainly vaultName tableName
  · rw [pgTableName_fits hfits]
    refine ⟨?_, _, _, rfl, hvault, htable, sanitizePgPart_chars _, sanitizePgPart_chars _⟩
    rw [List.length_append]
    exact Nat.add_le_add_left hfits 3
  · rw [pgTableName_shortened hfits]
    have hvaultLen := List.length_pos_of_ne_nil hvault
    have hkept : tableKept tableName ≤ 48 := Nat.min_le_right _ _
    have hpos : 0 < vaultKept vaultName tableName := by
      rw [vaultKept]
      omega
    refine ⟨?_, _, _, rfl, ?_, List.append_ne_nil_of_right_ne_nil _ (List.cons_ne_nil _ _), ?_, ?_⟩
    · have hdigest := length_shortDigest hsha vaultName tableName
      have hsep : "__".toList.length = 2 := rfl
      have hframe : "vt_".toList.length = 3 := rfl
      have hvaultKept : vaultKept vaultName tableName ≤ 49 - tableKept tableName := Nat.min_le_right _ _
      simp only [joined, List.length_append, List.length_cons, List.length_take, hdigest, hsep, hframe]
      omega
    · refine List.ne_nil_of_length_pos ?_
      rw [List.length_take]
      omega
    · exact fun c hc => sanitizePgPart_chars _ c (List.mem_of_mem_take hc)
    · intro c hc
      rcases List.mem_append.mp hc with hc | hc
      · exact sanitizePgPart_chars _ c (List.mem_of_mem_take hc)
      · rcases List.mem_cons.mp hc with rfl | hc
        · rfl
        · rcases hsha.digits _ c (List.mem_of_mem_take hc) with hd | hd
          · rw [isPgChar, hd, Bool.or_true, Bool.true_or]
          · rw [isPgChar, hd, Bool.true_or, Bool.true_or]

/-! ### Shared names -/

/-- The text of a shortened name before its digest. -/
theorem joined_digest (vault table digest : List Char) :
    joined vault (table ++ '_' :: digest) = (vault ++ ("__".toList ++ (table ++ ['_']))) ++ digest := by
  simp [joined, List.append_assoc]

/-- Two shortened names with different digests differ. -/
theorem shortened_ne (hsha : HexDigest sha1) {p q : String × String} (hp : ¬ FitsPlainly p.1 p.2)
    (hq : ¬ FitsPlainly q.1 q.2) (hdigest : shortDigest sha1 p.1 p.2 ≠ shortDigest sha1 q.1 q.2) :
    pgTableName sha1 p.1 p.2 ≠ pgTableName sha1 q.1 q.2 := by
  intro heq
  have htext := congrArg String.toList heq
  rw [pgTableName_shortened hp, pgTableName_shortened hq, joined_digest, joined_digest] at htext
  have htail := List.append_cancel_left htext
  refine hdigest (List.append_inj_right' htail ?_)
  rw [length_shortDigest hsha, length_shortDigest hsha]

/-- A shortened name is the name of a pair that fits exactly when that pair spells it. -/
theorem shortened_eq_iff {p q : String × String} (hp : ¬ FitsPlainly p.1 p.2) (hq : FitsPlainly q.1 q.2) :
    pgTableName sha1 p.1 p.2 = pgTableName sha1 q.1 q.2 ↔ Spells sha1 p q := by
  rw [← String.toList_inj, pgTableName_shortened hp, pgTableName_fits hq, List.append_cancel_left_eq]
  exact ⟨fun heq => ⟨hp, hq, heq.symm⟩, fun h => h.2.2.symm⟩

/-- A physical name is bounded, of the expected form and the plain one where that fits; of two pairs
that do not both fit, the names differ unless one spells the shortened name of the other. -/
theorem physical_names (hsha : HexDigest sha1) :
    (∀ vaultName tableName : String, vaultName ≠ "" → tableName ≠ "" →
      (pgTableName sha1 vaultName tableName).toList.length ≤ 63 ∧ IsVtName (pgTableName sha1 vaultName tableName).toList ∧
      (FitsPlainly vaultName tableName → (pgTableName sha1 vaultName tableName).toList =
        "vt_".toList ++ joined (sanitizePgPart vaultName) (sanitizePgPart tableName))) ∧
    ∀ p q : String × String, ¬ (FitsPlainly p.1 p.2 ∧ FitsPlainly q.1 q.2) →
      shortDigest sha1 p.1 p.2 ≠ shortDigest sha1 q.1 q.2 →
      (pgTableName sha1 p.1 p.2 ≠ pgTableName sha1 q.1 q.2 ↔ ¬ Spells sha1 p q ∧ ¬ Spells sha1 q p) := by
  refine ⟨fun vaultName tableName hv ht => ?_, fun p q hlong hdigest => ?_⟩
  · exact ⟨(pgTableName_wellFormed hsha hv ht).1, (pgTableName_wellFormed hsha hv ht).2, pgTableName_fits⟩
  · by_cases hp : FitsPlainly p.1 p.2
    · have hq : ¬ FitsPlainly q.1 q.2 := fun hq => hlong ⟨hp, hq⟩
      have hother : ¬ Spells sha1 p q := fun h => h.1 hp
      rw [ne_comm, ne_eq, shortened_eq_iff hq hp]
      exact ⟨fun h => ⟨hother, h⟩, And.right⟩
    · by_cases hq : FitsPlainly q.1 q.2
      · have hother : ¬ Spells sha1 q p := fun h => h.1 hq
        rw [ne_eq, shortened_eq_iff hp hq]
        exact ⟨fun h => ⟨h, hother⟩, And.left⟩
      · exact iff_of_true (shortened_ne hsha hp hq hdigest) ⟨fun h => hq h.2.1, fun h => hp h.2.1⟩

/-! ### A table that takes the name of another one -/

/-- The digests of the two pairs below, as SHA-1 has them. -/
def notesSha1 (text : List Char) : List Char :=
  if text = List.replicate 60 'a' ++ '\x00' :: "notes".toList then "a027fe5600e2d113b9ae1f11bcd48215f912e519".toList
  else "07aea74d7489bff4ffa64c382ce4fb9a5cbdf866".toList

/-- A vault and a table that do not fit, and the pair that spells their name. -/
def longPair : String × String := (String.ofList (List.replicate 60 'a'), "notes")

def spellingPair : String × String := (String.ofList (List.replicate 44 'a'), "notes_a027fe56")

theorem notesSha1_hex : HexDigest notesSha1 := by
  constructor
  · intro text
    rw [notesSha1]
    split <;> decide
  · intro text
    rw [notesSha1]
    split <;> decide

theorem sanitizePgPart_replicate (n : Nat) :
    sanitizePgPart (String.ofList (List.replicate n 'a')) = List.replicate n 'a' := by
  rw [sanitizePgPart, String.toList_ofList]
  induction n with
  | zero => rfl
  | succ n ih =>
    rw [List.replicate_succ, ← List.singleton_append, PyText.lower_append, List.map_append, ih]
    rfl

theorem sanitizePgPart_longPair :
    sanitizePgPart longPair.1 = List.replicate 60 'a' ∧ sanitizePgPart longPair.2 = "notes".toList :=
  ⟨sanitizePgPart_replicate 60, by decide⟩

theorem sanitizePgPart_spellingPair :
    sanitizePgPart spellingPair.1 = List.replicate 44 'a' ∧ sanitizePgPart spellingPair.2 = "notes_a027fe56".toList :=
  ⟨sanitizePgPart_replicate 44, by decide⟩

theorem longPair_not_fits : ¬ FitsPlainly longPair.1 longPair.2 := by
  rw [FitsPlainly, sanitizePgPart_longPair.1, sanitizePgPart_longPair.2]
  decide

theorem physical_name_taken :
    (sanitizePgPart longPair.1, sanitizePgPart longPair.2) ≠ (sanitizePgPart spellingPair.1, sanitizePgPart spellingPair.2) ∧
    ¬ FitsPlainly longPair.1 longPair.2 ∧
    shortDigest notesSha1 longPair.1 longPair.2 ≠ shortDigest notesSha1 spellingPair.1 spellingPair.2 ∧
    pgTableName notesSha1 longPair.1 longPair.2 = pgTableName notesSha1 spellingPair.1 spellingPair.2 := by
  have hfits : FitsPlainly spellingPair.1 spellingPair.2 := by
    rw [FitsPlainly, sanitizePgPart_spellingPair.1, sanitizePgPart_spellingPair.2]
    decide
  refine ⟨?_, longPair_not_fits, ?_, ?_⟩
  · rw [sanitizePgPart_longPair.1, sanitizePgPart_longPair.2, sanitizePgPart_spellingPair.1, sanitizePgPart_spellingPair.2]
    decide
  · rw [shortDigest, shortDigest, sanitizePgPart_longPair.1, sanitizePgPart_longPair.2, sanitizePgPart_spellingPair.1,
      sanitizePgPart_spellingPair.2]
    decide
  · rw [shortened_eq_iff longPair_not_fits hfits]
    refine ⟨longPair_not_fits, hfits, ?_⟩
    rw [vaultKept, tableKept, shortDigest, sanitizePgPart_longPair.1, sanitizePgPart_longPair.2,
      sanitizePgPart_spellingPair.1, sanitizePgPart_spellingPair.2]
    decide

theorem physical_names_notes :
    (pgTableName notesSha1 longPair.1 longPair.2).toList.length ≤ 63 ∧
    (pgTableName notesSha1 longPair.1 longPair.2 ≠ pgTableName notesSha1 "v" "t" ↔
      ¬ Spells notesSha1 longPair ("v", "t") ∧ ¬ Spells notesSha1 ("v", "t") longPair) := by
  have hdigest : shortDigest notesSha1 longPair.1 longPair.2 ≠ shortDigest notesSha1 "v" "t" := by
    rw [shortDigest, sanitizePgPart_longPair.1, sanitizePgPart_longPair.2]
    decide
  exact ⟨((physical_names notesSha1_hex).1 longPair.1 longPair.2 (by decide) (by decide)).1,
    (physical_names notesSha1_hex).2 longPair ("v", "t") (fun h => longPair_not_fits h.1) hdigest⟩

end Akb.RoleSync
