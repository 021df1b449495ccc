import Akb.Library.Ddl
import Akb.Library.Fallible
import Akb.Tables.Names

/-! What `alter_table` works on: the request, the registry row of a table, the table in
PostgreSQL, and the statements it writes. -/
namespace Akb.Tables
open Akb.Library Akb.Library.Ddl

abbrev UniqueKey := Key Name Unit
abbrev Index := Key Name Order

/-- The check of a column, compiled from an operator or derived from the enum values. -/
inductive Check where
  | compiled (sql : String)
  | oneOf (values : List String)
  deriving DecidableEq

structure Reference where
  table : String
  column : Name
  deriving DecidableEq

structure ColumnSpec where
  name : Name
  type : String
  required : Bool
  unique : Bool
  index : Bool
  default : Option String
  check : Option Check
  enum : List String
  references : Option Reference
  deriving DecidableEq

def ColumnSpec.isEnum (col : ColumnSpec) : Bool := col.type == "enum"

structure AlterSpec where
  name : Name
  setDefault : Option (Option String)
  dropDefault : Bool
  setCheck : Option (Option Check)
  dropCheck : Bool
  setNotNull : Bool
  dropNotNull : Bool
  setEnum : Option (List String)
  enumRenames : List (String × String)

/-- A key as a request declares it. -/
structure KeySpec (κ : Type) where
  name : Option Name
  columns : List (Name × κ)

structure Request where
  addColumns : List ColumnSpec
  alterColumns : List AlterSpec
  dropColumns : List Name
  renameColumns : List (Name × Name)
  addUniqueKeys : List (KeySpec Unit)
  dropUniqueKeys : List Name
  /-- A column of an index may come without an order. -/
  addIndexes : List (KeySpec (Option Order))
  dropIndexes : List Name

/-- What the row of a table in `vault_tables` says of its schema. -/
structure Registry where
  columns : List ColumnSpec
  uniqueKeys : List UniqueKey
  indexes : List Index

inductive AlterError where
  | badColumnNames (problems : List (Name × NameProblem))
  | badColumnSpec (name : Name)
  | emptyName
  | reservedDrop (name : Name)
  | badReferences
  | keyNameTaken (name : Name)
  | duplicateRows (name : Name)
  | referenced (columns : List Name)
  | renameMissing (old : Name)
  | renameExists (old new : Name)
  | renameTwice (new : Name)
  | alterMissing (name : Name)
  | alterConflict (name : Name)
  | badEnumRenames (name : Name)
  | emptyKey
  | reservedKeyColumn (column : Name)
  | missingKeyColumn (column : Name)
  | repeatedKeyColumn (column : Name)
  | keyNameTooLong (name : Name)
  | keyNameRepeated (name : Name)
  | refused (statement : Statement Name)
  deriving DecidableEq

/-- What is settled outside the two schemas. The checks in it only ever refuse. -/
structure Environment extends Naming where
  /-- Whether PostgreSQL takes a statement that the names allow, after the statements before it. -/
  accepts : List (Statement Name) → Statement Name → Bool
  /-- The default, the check and the enum values of a column compile. -/
  specOk : ColumnSpec → Bool
  /-- `_validate_column_references`. -/
  referencesOk : ColumnSpec → Bool
  /-- Another table refers to one of these columns. -/
  referenced : List Name → Bool
  /-- `unique_key_duplicates` finds rows. -/
  duplicates : List (Statement Name) → List Name → Bool

/-- A list of the registry row, and whether it has to be written back. -/
structure Tracked {α : Type} (initial : List α) where
  now : List α
  changed : Bool
  unchanged : changed = false → now = initial

namespace Tracked
variable {α : Type} {initial : List α}

def update (t : Tracked initial) (now : List α) (changed : Bool) (h : changed = false → now = t.now) :
    Tracked initial where
  now := now
  changed := t.changed || changed
  unchanged hc := by
    obtain ⟨h₁, h₂⟩ := Bool.or_eq_false_iff.mp hc
    rw [h h₂, t.unchanged h₁]

def append (t : Tracked initial) (a : α) : Tracked initial := t.update (t.now ++ [a]) true (fun h => nomatch h)

end Tracked

structure State (registry : Registry) where
  columns : List ColumnSpec
  uniqueKeys : Tracked registry.uniqueKeys
  indexes : Tracked registry.indexes
  table : Table Name
  issued : List (Statement Name)

def start (registry : Registry) (table : Table Name) : State registry where
  columns := registry.columns
  uniqueKeys := ⟨registry.uniqueKeys, false, fun _ => rfl⟩
  indexes := ⟨registry.indexes, false, fun _ => rfl⟩
  table := table
  issued := []

abbrev Result (registry : Registry) := Except AlterError (State registry)

/-- The key that PostgreSQL reads in a statement. -/
def unquoted {κ : Type} (k : Key Name κ) : Key Name κ := ⟨ident k.name, k.columns.map (Prod.map ident id)⟩

section Statements
variable (naming : Naming)

def generatedConstraint (kind : Name) (col : Name) : Name := ident (generateConstraintName naming [col] kind)

def createCheckConstraint (col : ColumnSpec) : Statement Name :=
  .addConstraint ⟨generatedConstraint naming checkKind col.name, .check, [ident col.name]⟩

def createEnumConstraint (col : ColumnSpec) : Statement Name :=
  .addConstraint ⟨generatedConstraint naming enumKind col.name, .check, [ident col.name]⟩

def createForeignKeyConstraint (col : ColumnSpec) : Statement Name :=
  .addConstraint ⟨generatedConstraint naming foreignKeyKind col.name, .foreignKey, [ident col.name]⟩

def ColumnSpec.hasScalarCheck (col : ColumnSpec) : Bool := col.check.isSome && !col.isEnum

/-- `add_column`. -/
def addColumnStatements (col : ColumnSpec) : List (Statement Name) :=
  .addColumn (ident col.name) ::
    ((if col.hasScalarCheck then [createCheckConstraint naming col] else []) ++
      ((if col.isEnum then [createEnumConstraint naming col] else []) ++
        if col.references.isSome then [createForeignKeyConstraint naming col] else []))

/-- `drop_column_check_constraints` looks the checks of the column up. -/
def dropColumnCheckConstraints (t : Table Name) (col : Name) : List (Statement Name) :=
  (t.constraints.filter (fun c => c.kind = .check ∧ safeIdent col ∈ c.columns)).map
    (fun c => .dropConstraint (ident c.name))

/-- The constraints of a renamed column are replaced by those of its new name. -/
def replaceConstraints (old : ColumnSpec) (oldName : Name) (updated : ColumnSpec) : List (Statement Name) :=
  (if old.isEnum then
    [.dropConstraint (generatedConstraint naming enumKind oldName), createEnumConstraint naming updated] else []) ++
  ((if old.hasScalarCheck then [createCheckConstraint naming updated] else []) ++
    if old.references.isSome then
      [.dropConstraint (generatedConstraint naming foreignKeyKind oldName), createForeignKeyConstraint naming updated]
    else [])

end Statements

section Steps
variable (env : Environment) {registry : Registry}

def issue (s : State registry) (statement : Statement Name) : Result registry :=
  if env.accepts s.issued statement then
    match s.table.exec statement with
    | some table => .ok { s with table := table, issued := s.issued ++ [statement] }
    | none => .error (.refused statement)
  else .error (.refused statement)

def issueAll (s : State registry) (statements : List (Statement Name)) : Result registry :=
  statements.foldlM (issue env) s

end Steps

end Akb.Tables
