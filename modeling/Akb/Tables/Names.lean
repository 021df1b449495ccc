import Akb.Library.PyText

/-! The names of the columns, keys and constraints of a vault table: what the service takes
for a column name, what it writes into a statement, and what PostgreSQL reads there. -/
namespace Akb.Tables
open Akb.Library

abbrev Name := List Char

/-- `safe_ident`. -/
def safeIdent (name : Name) : Name := name.map (fun c => if c.isAlphanum || c == '_' then c else '_')

def pgIdentMaxLen : Nat := 63

/-- PostgreSQL folds an unquoted identifier to lower case, and cuts it. -/
def fold (name : Name) : Name := (name.map Char.toLower).take pgIdentMaxLen

/-- The identifier a name stands for in a statement. -/
def ident (name : Name) : Name := fold (safeIdent name)

/-- The bookkeeping columns of every table. -/
def reserved : List Name := ["id", "created_at", "updated_at", "created_by", "row_commit"].map String.toList

def pgReservedColumnWords : List Name :=
  ["all", "analyse", "analyze", "and", "any", "array", "as", "asc", "asymmetric", "authorization", "binary", "both",
    "case", "cast", "check", "collate", "collation", "column", "concurrently", "constraint", "create", "cross",
    "current_catalog", "current_date", "current_role", "current_schema", "current_time", "current_timestamp",
    "current_user", "default", "deferrable", "desc", "distinct", "do", "else", "end", "except", "false", "fetch",
    "for", "foreign", "freeze", "from", "full", "grant", "group", "having", "ilike", "in", "initially", "inner",
    "intersect", "into", "is", "isnull", "join", "lateral", "leading", "left", "like", "limit", "localtime",
    "localtimestamp", "natural", "not", "notnull", "null", "offset", "on", "only", "or", "order", "outer",
    "overlaps", "placing", "primary", "references", "returning", "right", "select", "session_user", "similar",
    "some", "symmetric", "system_user", "table", "tablesample", "then", "to", "trailing", "true", "union", "unique",
    "user", "using", "variadic", "verbose", "when", "where", "window", "with"].map String.toList

def pgSystemColumns : List Name := ["tableoid", "xmin", "cmin", "xmax", "cmax", "ctid"].map String.toList

inductive NameProblem where
  | empty
  | reservedByAkb
  | notAscii
  | uppercase
  | noLetterFirst
  | otherCharacters
  | tooLong
  | reservedWord
  | systemColumn
  deriving DecidableEq

def isNameChar (c : Char) : Bool := c.isLower || c.isDigit || c == '_'

/-- `_COLUMN_NAME_RE.fullmatch`. -/
def matchesColumnNameRe (name : Name) : Bool := name.head?.any Char.isLower && name.all isNameChar

/-- `_column_name_problem`. -/
def columnNameProblem (name : Name) : Option NameProblem :=
  if name = [] then some .empty
  else if PyText.lower name ∈ reserved then some .reservedByAkb
  else if !name.all (fun c => c.toNat < 128) then some .notAscii
  else if !matchesColumnNameRe name then
    some (if name ≠ PyText.lower name then .uppercase
      else if !name.head?.any Char.isAlpha then .noLetterFirst
      else .otherCharacters)
  else if pgIdentMaxLen < name.length then some .tooLong
  else if name ∈ pgReservedColumnWords then some .reservedWord
  else if name ∈ pgSystemColumns then some .systemColumn
  else none

/-- A name that means the same to the service and to PostgreSQL. -/
def Clean (name : Name) : Prop := (∀ c ∈ name, isNameChar c) ∧ name.length ≤ pgIdentMaxLen

instance (name : Name) : Decidable (Clean name) := inferInstanceAs (Decidable (_ ∧ _))

private theorem isLower_toLower {c : Char} (h : c.isUpper) : c.toLower.isLower := by
  have hc : c.val ≥ 'A'.val ∧ c.val ≤ 'Z'.val := by simpa [PyText.isUpper_def] using h
  have hge := UInt32.le_iff_toNat_le.mp hc.1
  have hle := UInt32.le_iff_toNat_le.mp hc.2
  simp only [PyText.isLower_def, PyText.val_toLower h, ge_iff_le, UInt32.le_iff_toNat_le, UInt32.toNat_add, Bool.and_eq_true, decide_eq_true_eq]
  simp at hge hle ⊢
  omega

private theorem isNameChar_bounds {c : Char} (h : isNameChar c) : c.isUpper = false ∧ c.toNat < 128 := by
  simp only [isNameChar, PyText.isLower_def, Char.isDigit, Bool.or_eq_true, Bool.and_eq_true, decide_eq_true_eq, beq_iff_eq,
    ge_iff_le, UInt32.le_iff_toNat_le] at h
  simp only [PyText.isUpper_def, ge_iff_le, UInt32.le_iff_toNat_le, decide_eq_false_iff_not]
  rcases h with (h | h) | rfl
  · change 97 ≤ c.toNat ∧ c.toNat ≤ 122 at h
    change ¬ (65 ≤ c.toNat ∧ c.toNat ≤ 90) ∧ _
    omega
  · change 48 ≤ c.toNat ∧ c.toNat ≤ 57 at h
    change ¬ (65 ≤ c.toNat ∧ c.toNat ≤ 90) ∧ _
    omega
  · decide

/-- A name character stands for itself everywhere. -/
private theorem isNameChar_same {c : Char} (h : isNameChar c) : (c.isAlphanum || c == '_') ∧ c.toLower = c ∧
    (PyText.asciiLowercases.lookup c).getD [c.toLower] = [c] := by
  obtain ⟨hupper, hascii⟩ := isNameChar_bounds h
  have hlower := PyText.toLower_of_not_isUpper hupper
  refine ⟨?_, hlower, ?_⟩
  · simp only [isNameChar, Bool.or_eq_true] at h
    simp only [Char.isAlphanum, PyText.isAlpha_def, Bool.or_eq_true]
    tauto
  · have hne : ∀ d ∈ PyText.asciiLowercases, c ≠ d.1 := by
      rintro d hd rfl
      have hbeyond : ∀ d ∈ PyText.asciiLowercases, 128 ≤ d.1.toNat := by decide
      exact absurd hascii (Nat.not_lt.mpr (hbeyond d hd))
    rw [List.lookup_eq_none_iff.mpr (fun d hd => by simpa using hne d hd), hlower]
    rfl

theorem clean_ident (name : Name) : Clean (ident name) := by
  refine ⟨fun c hc => ?_, List.length_take_le _ _⟩
  obtain ⟨d, hd, rfl⟩ := List.mem_map.mp (List.mem_of_mem_take hc)
  obtain ⟨e, -, rfl⟩ := List.mem_map.mp hd
  by_cases he : (e.isAlphanum || e == '_') = true
  · rw [if_pos he]
    by_cases hupper : e.isUpper
    · simp [isNameChar, isLower_toLower hupper]
    · rw [PyText.toLower_of_not_isUpper (by simpa using hupper)]
      simp only [Char.isAlphanum, PyText.isAlpha_def, hupper, Bool.false_or] at he
      exact he
  · rw [if_neg he]
    decide

theorem safeIdent_of_clean {name : Name} (h : Clean name) : safeIdent name = name := by
  refine (List.map_congr_left (fun c hc => ?_)).trans (List.map_id name)
  rw [if_pos (isNameChar_same (h.1 c hc)).1]
  rfl

theorem ident_of_clean {name : Name} (h : Clean name) : ident name = name := by
  rw [ident, safeIdent_of_clean h, fold, List.take_of_length_le (by rw [List.length_map]; exact h.2)]
  exact (List.map_congr_left (fun c hc => (isNameChar_same (h.1 c hc)).2.1)).trans (List.map_id name)

/-- A name that is read as it is written is clean. -/
theorem clean_iff {name : Name} : Clean name ↔ ident name = name :=
  ⟨ident_of_clean, fun h => h ▸ clean_ident name⟩

theorem lower_of_clean {name : Name} (h : Clean name) : PyText.lower name = name := by
  rw [PyText.lower, List.flatMap_congr (fun c hc => (isNameChar_same (h.1 c hc)).2.2), List.flatMap_singleton']

/-- A column name that is taken is read as it is written, and is no bookkeeping column. -/
theorem clean_of_no_problem {name : Name} (h : columnNameProblem name = none) : Clean name ∧ name ∉ reserved := by
  unfold columnNameProblem at h
  split at h
  · cases h
  split at h
  · cases h
  rename_i hreserved
  split at h
  · cases h
  split at h
  · cases h
  rename_i hre
  split at h
  · cases h
  rename_i hlong
  have hclean : Clean name := by
    simp only [matchesColumnNameRe, Bool.not_eq_true', Bool.not_eq_false, Bool.and_eq_true, List.all_eq_true] at hre
    exact ⟨hre.2, Nat.not_lt.mp hlong⟩
  exact ⟨hclean, lower_of_clean hclean ▸ hreserved⟩

/-- The physical name of a table, and the digest that goes into the names made from it. -/
structure Naming where
  pgName : Name
  pgName_chars : ∀ c ∈ pgName, isNameChar c
  /-- `hashlib.sha1(text).hexdigest()`. -/
  sha1 : List Char → List Char
  sha1_chars : ∀ text, ∀ c ∈ sha1 text, isNameChar c

/-- `generate_constraint_name`. -/
def generateConstraintName (naming : Naming) (columns : List Name) (kind : Name) : Name :=
  let suffix := "__".toList ++ kind
  let colsPart := ['_'].intercalate (columns.map safeIdent)
  let digest := (naming.sha1 (['\x00'].intercalate (naming.pgName :: kind :: columns))).take 8
  let readable := naming.pgName ++ ("__".toList ++ colsPart)
  let tail := '_' :: (digest ++ suffix)
  if (readable ++ tail).length ≤ pgIdentMaxLen then readable ++ tail
  else readable.take (pgIdentMaxLen - tail.length) ++ tail

def uniqueKind : Name := "uk".toList
def indexKind : Name := "idx".toList
def enumKind : Name := "enum".toList
def checkKind : Name := "check".toList
def foreignKeyKind : Name := "fkey".toList

def kinds : List Name := [uniqueKind, indexKind, enumKind, checkKind, foreignKeyKind]

private theorem forall_intercalate {P : Char → Prop} {sep : Name} (hsep : ∀ c ∈ sep, P c) {names : List Name}
    (hnames : ∀ n ∈ names, ∀ c ∈ n, P c) : ∀ c ∈ sep.intercalate names, P c := by
  induction names with
  | nil => simp
  | cons n rest ih =>
    obtain ⟨hn, hrest⟩ := List.forall_mem_cons.mp hnames
    cases rest with
    | nil => simpa using hn
    | cons m rest =>
      rw [List.intercalate_cons_cons]
      exact List.forall_mem_append.mpr ⟨List.forall_mem_append.mpr ⟨hn, hsep⟩, ih hrest⟩

theorem clean_generateConstraintName {naming : Naming} {columns : List Name} {kind : Name} (hkind : kind ∈ kinds)
    (hcolumns : ∀ c ∈ columns, Clean c) : Clean (generateConstraintName naming columns kind) := by
  have hkinds : ∀ kind ∈ kinds, (∀ c ∈ kind, isNameChar c) ∧ kind.length ≤ 5 := by decide
  obtain ⟨hkindChars, hkindLength⟩ := hkinds kind hkind
  have hunderscores : ∀ c ∈ "__".toList, isNameChar c := by decide
  have hcols : ∀ c ∈ ['_'].intercalate (columns.map safeIdent), isNameChar c :=
    forall_intercalate (by decide)
      (List.forall_mem_map.mpr (fun d hd => (safeIdent_of_clean (hcolumns d hd)).symm ▸ (hcolumns d hd).1))
  unfold generateConstraintName
  extract_lets suffix colsPart digest readable tail
  have hreadable : ∀ c ∈ readable, isNameChar c :=
    List.forall_mem_append.mpr ⟨naming.pgName_chars, List.forall_mem_append.mpr ⟨hunderscores, hcols⟩⟩
  have htail : ∀ c ∈ tail, isNameChar c :=
    List.forall_mem_cons.mpr ⟨rfl, List.forall_mem_append.mpr
      ⟨fun c hc => naming.sha1_chars _ c (List.mem_of_mem_take hc),
        List.forall_mem_append.mpr ⟨hunderscores, hkindChars⟩⟩⟩
  split
  · rename_i hlength
    exact ⟨List.forall_mem_append.mpr ⟨hreadable, htail⟩, hlength⟩
  · refine ⟨List.forall_mem_append.mpr ⟨fun c hc => hreadable c (List.mem_of_mem_take hc), htail⟩, ?_⟩
    have hdigest : digest.length ≤ 8 := List.length_take_le _ _
    have htailLength : tail.length = digest.length + (2 + kind.length) + 1 := by
      simp only [tail, suffix, List.length_cons, List.length_append]
      rfl
    have hcut := List.length_take_le (pgIdentMaxLen - tail.length) readable
    have hmax : pgIdentMaxLen = 63 := rfl
    rw [List.length_append]
    omega

/-- A generated name ends with its kind. -/
theorem generateConstraintName_suffix (naming : Naming) (columns : List Name) (kind : Name) :
    kind <:+ generateConstraintName naming columns kind := by
  unfold generateConstraintName
  dsimp only
  split
  all_goals
    refine List.IsSuffix.trans ?_ (List.suffix_append _ _)
    exact ((List.suffix_append _ _).trans (List.suffix_append _ _)).trans (List.suffix_cons _ _)

end Akb.Tables
