import Akb.Tables.AlterState

/-! `alter_table`: each operation of a request changes the registry row of a table and, by
statements, the table itself. -/
namespace Akb.Tables
open Akb.Library Akb.Library.Ddl

section Steps
variable (env : Environment) {registry : Registry}

/-- The column of that name, regardless of case; of several the last. -/
def declaredColumn (columns : List ColumnSpec) (name : Name) : Option ColumnSpec :=
  columns.reverse.find? (fun c => PyText.lower c.name = PyText.lower name)

/-- `_normalize_column_spec`, as far as it changes a column whose type is canonical. -/
def normalizeColumnSpec (col : ColumnSpec) : Except AlterError ColumnSpec := do
  refuse (!env.specOk col || (col.isEnum && col.check.isSome)) (.badColumnSpec col.name)
  pure (if col.isEnum then { col with check := some (.oneOf col.enum) } else col)

def refuseBadColumnNames (names : List Name) : Except AlterError Unit :=
  let problems := names.filterMap (fun name => (columnNameProblem name).map (fun problem => (name, problem)))
  refuse (problems ≠ []) (.badColumnNames problems)

def refuseBadDrops : List Name → Except AlterError Unit
  | [] => .ok ()
  | name :: names => do
    refuse (name = []) .emptyName
    refuse (PyText.lower name ∈ reserved) (.reservedDrop name)
    refuseBadDrops names

def addUniqueKey (preflight : Bool) (s : State registry) (uk : UniqueKey) : Result registry := do
  refuse (uk.name ∈ s.uniqueKeys.now.map Key.name) (.keyNameTaken uk.name)
  refuse (preflight && env.duplicates s.issued uk.names) (.duplicateRows uk.name)
  let s ← issue env s (.addUnique (unquoted uk))
  pure { s with uniqueKeys := s.uniqueKeys.append uk }

def addIndex (s : State registry) (idx : Index) : Result registry := do
  refuse (idx.name ∈ s.indexes.now.map Key.name) (.keyNameTaken idx.name)
  let s ← issue env s (.createIndex (unquoted idx))
  pure { s with indexes := s.indexes.append idx }

def inlineUniqueKey (naming : Naming) (col : ColumnSpec) : UniqueKey :=
  ⟨generateConstraintName naming [col.name] uniqueKind, [(col.name, ())]⟩

def inlineIndex (naming : Naming) (col : ColumnSpec) : Index :=
  ⟨generateConstraintName naming [col.name] indexKind, [(col.name, .asc)]⟩

def addColumn (s : State registry) (col : ColumnSpec) : Result registry :=
  if col.name ∈ s.columns.map ColumnSpec.name then .ok s
  else do
    let s ← issueAll env s (addColumnStatements env.toNaming col)
    let s := { s with columns := s.columns ++ [col] }
    let s ← (if col.unique then addUniqueKey env false s (inlineUniqueKey env.toNaming col) else .ok s)
    (if col.index then addIndex env s (inlineIndex env.toNaming col) else .ok s)

def addColumns (columns : List ColumnSpec) (s : State registry) : Result registry := do
  refuse (columns.all env.referencesOk = false) .badReferences
  columns.foldlM (addColumn env) s

def dropColumns (names : List Name) (s : State registry) : Result registry := do
  refuse (names ≠ [] ∧ env.referenced names) (.referenced names)
  let s ← issueAll env s (names.map (fun name => .dropColumn (ident name)))
  pure { s with columns := s.columns.filter (·.name ∉ names) }

def checkRenames (columns : List ColumnSpec) : List Name → List (Name × Name) → Except AlterError Unit
  | _, [] => .ok ()
  | targets, (old, new) :: renames => do
    refuse (declaredColumn columns old = none) (.renameMissing old)
    refuse (PyText.lower new ≠ PyText.lower old ∧ declaredColumn columns new ≠ none) (.renameExists old new)
    refuse (PyText.lower new ∈ targets) (.renameTwice new)
    checkRenames columns (PyText.lower new :: targets) renames

def ColumnSpec.renamed (old new : Name) (col : ColumnSpec) : ColumnSpec :=
  if col.name = old then { col with name := new } else col

def renameColumn (s : State registry) (names : Name × Name) : Result registry := do
  let (old, new) := names
  let oldCol := s.columns.find? (·.name = old)
  let s ← issueAll env s
    (if oldCol.any ColumnSpec.hasScalarCheck then dropColumnCheckConstraints s.table old else [])
  let s ← issue env s (.renameColumn (ident old) (ident new))
  let updatedCol := (s.columns.reverse.find? (·.name = old)).map (ColumnSpec.renamed old new)
  let s := { s with columns := s.columns.map (ColumnSpec.renamed old new) }
  match oldCol, updatedCol with
  | some oldCol, some updatedCol => issueAll env s (replaceConstraints env.toNaming oldCol old updatedCol)
  | _, _ => pure s

def renameColumns (renames : List (Name × Name)) (s : State registry) : Result registry := do
  checkRenames s.columns [] renames
  refuse (renames ≠ [] ∧ env.referenced (renames.map Prod.fst)) (.referenced (renames.map Prod.fst))
  renames.foldlM (renameColumn env) s

/-- `ren.get(name.lower(), name)`. -/
def renamedColumn (renames : List (Name × Name)) (name : Name) : Name :=
  ((renames.map (Prod.map PyText.lower id)).lookup (PyText.lower name)).getD name

def Tracked.mirrorRenames {κ : Type} [DecidableEq κ] {initial : List (Key Name κ)} (renames : List (Name × Name))
    (t : Tracked initial) : Tracked initial :=
  let keys := t.now.map (Key.rename (renamedColumn renames))
  t.update keys (decide (keys ≠ t.now)) (by simp)

def Tracked.mirrorDrops {κ : Type} {initial : List (Key Name κ)} (names : List Name) (t : Tracked initial) :
    Tracked initial :=
  let kept := t.now.filter (fun k => ∀ c ∈ k.names, PyText.lower c ∉ names.map PyText.lower)
  t.update kept (decide (kept.length ≠ t.now.length))
    (fun h => List.filter_sublist.eq_of_length (not_not.mp (of_decide_eq_false h)))

/-- The keys and indexes follow the columns of the request. -/
def mirror (renames : List (Name × Name)) (drops : List Name) (s : State registry) : State registry :=
  { s with
    uniqueKeys := (s.uniqueKeys.mirrorRenames renames).mirrorDrops drops
    indexes := (s.indexes.mirrorRenames renames).mirrorDrops drops }

/-- The last element with a property gives way to another. -/
def replaceLast {α : Type} (p : α → Bool) (b : α) : List α → List α
  | [] => []
  | a :: as => if as.any p then a :: replaceLast p b as else if p a then b :: as else a :: as

/-- What an alteration makes of a column. -/
def AlterSpec.apply (spec : AlterSpec) (current : ColumnSpec) : ColumnSpec :=
  { current with
    default := if spec.dropDefault then none else spec.setDefault.getD current.default
    check := if spec.dropCheck then none else spec.setCheck.getD (if current.isEnum then none else current.check)
    required := !spec.dropNotNull && (spec.setNotNull || current.required)
    enum := spec.setEnum.getD current.enum }

def AlterSpec.changesDefault (spec : AlterSpec) : Bool := spec.setDefault.isSome || spec.dropDefault

def AlterSpec.changesCheck (spec : AlterSpec) : Bool := spec.setCheck.isSome || spec.dropCheck

def AlterSpec.changesNotNull (spec : AlterSpec) : Bool := spec.setNotNull || spec.dropNotNull

/-- The combinations that are refused, and the request for nothing. -/
def AlterSpec.conflicts (spec : AlterSpec) (current : ColumnSpec) : Bool :=
  (spec.setDefault.isSome && spec.dropDefault) || (spec.setCheck.isSome && spec.dropCheck) ||
    (current.isEnum && spec.changesCheck) || (spec.setNotNull && spec.dropNotNull) ||
    (spec.setEnum.isSome && !current.isEnum) || (!spec.enumRenames.isEmpty && spec.setEnum.isNone) ||
    !(spec.changesDefault || spec.changesCheck || spec.changesNotNull || spec.setEnum.isSome)

def AlterSpec.enumRenamesOk (spec : AlterSpec) (current next : ColumnSpec) : Bool :=
  spec.enumRenames.all (fun (old, new) => old ≠ "" && new ≠ "" && current.enum.contains old && next.enum.contains new)

def replaceCheckConstraint (naming : Naming) (t : Table Name) (col : ColumnSpec) : List (Statement Name) :=
  dropColumnCheckConstraints t col.name ++ if col.check.isSome then [createCheckConstraint naming col] else []

def alterColumn (s : State registry) (spec : AlterSpec) : Result registry := do
  let current ← found (declaredColumn s.columns spec.name) (.alterMissing spec.name)
  refuse (spec.conflicts current) (.alterConflict current.name)
  let next ← normalizeColumnSpec env (spec.apply current)
  refuse (spec.enumRenamesOk current next = false) (.badEnumRenames current.name)
  let s ← issueAll env s
    (if spec.setEnum.isSome then [.dropConstraint (generatedConstraint env.toNaming enumKind current.name)] else [])
  let s ← issueAll env s (if spec.changesDefault then [.alterColumn (ident next.name)] else [])
  let s ← issueAll env s (if spec.changesCheck then replaceCheckConstraint env.toNaming s.table next else [])
  let s ← issueAll env s (if spec.changesNotNull then [.alterColumn (ident current.name)] else [])
  let s ← issueAll env s (if spec.setEnum.isSome then [createEnumConstraint env.toNaming next] else [])
  pure { s with columns := replaceLast (fun c => PyText.lower c.name = PyText.lower spec.name) next s.columns }

def alterColumns (specs : List AlterSpec) (s : State registry) : Result registry := specs.foldlM (alterColumn env) s

def Tracked.without {κ : Type} [DecidableEq κ] {initial : List (Key Name κ)} (names : List Name) (t : Tracked initial) :
    Tracked initial :=
  let kept := t.now.filter (·.name ∉ names)
  t.update kept (decide (kept ≠ t.now)) (by simp)

def dropUniqueKey (s : State registry) (uk : UniqueKey) : Result registry := do
  refuse (uk.names.dedup.length = 1 ∧ env.referenced uk.names) (.referenced uk.names)
  issue env s (.dropConstraint (ident uk.name))

def dropUniqueKeys (names : List Name) (s : State registry) : Result registry := do
  let s ← (s.uniqueKeys.now.filter (·.name ∈ names)).foldlM (dropUniqueKey env) s
  pure { s with uniqueKeys := s.uniqueKeys.without names }

def dropIndexes (names : List Name) (s : State registry) : Result registry := do
  let s ← issueAll env s ((s.indexes.now.filter (·.name ∈ names)).map (fun idx => .dropIndex (ident idx.name)))
  pure { s with indexes := s.indexes.without names }

/-- `_check_key_column` answers with the name as it was declared. -/
def checkKeyColumn (columns : List ColumnSpec) (column : Name) : Except AlterError Name := do
  refuse (column = []) .emptyKey
  refuse (PyText.lower column ∈ reserved) (.reservedKeyColumn column)
  let col ← found (declaredColumn columns column) (.missingKeyColumn column)
  pure col.name

def resolveColumns {κ κ' : Type} (columns : List ColumnSpec) (detail : κ → κ') :
    List Name → List (Name × κ) → Except AlterError (List (Name × κ'))
  | _, [] => .ok []
  | seen, (column, said) :: rest => do
    let name ← checkKeyColumn columns column
    refuse (PyText.lower name ∈ seen) (.repeatedKeyColumn column)
    let resolved ← resolveColumns columns detail (PyText.lower name :: seen) rest
    pure ((name, detail said) :: resolved)

/-- The name a caller gave, or one made from the columns. -/
def resolveName (naming : Naming) (kind : Name) (columns : List Name) : Option Name → Except AlterError Name
  | none => .ok (generateConstraintName naming columns kind)
  | some name => do
    refuse (name = []) .emptyName
    refuse (pgIdentMaxLen < (safeIdent name).length) (.keyNameTooLong name)
    pure (safeIdent name)

/-- `_resolve_unique_keys` and `_resolve_indexes`. -/
def resolveKeys {κ κ' : Type} (naming : Naming) (kind : Name) (columns : List ColumnSpec) (detail : κ → κ') :
    List Name → List (KeySpec κ) → Except AlterError (List (Key Name κ'))
  | _, [] => .ok []
  | seen, spec :: specs => do
    refuse (spec.columns.isEmpty) .emptyKey
    let resolved ← resolveColumns columns detail [] spec.columns
    let name ← resolveName naming kind (resolved.map Prod.fst) spec.name
    refuse (name ∈ seen) (.keyNameRepeated name)
    let rest ← resolveKeys naming kind columns detail (name :: seen) specs
    pure (⟨name, resolved⟩ :: rest)

def resolveUniqueKeys (naming : Naming) (columns : List ColumnSpec) (specs : List (KeySpec Unit)) :
    Except AlterError (List UniqueKey) := resolveKeys naming uniqueKind columns id [] specs

/-- An index column is in ascending order unless it says otherwise. -/
def resolveIndexes (naming : Naming) (columns : List ColumnSpec) (specs : List (KeySpec (Option Order))) :
    Except AlterError (List Index) := resolveKeys naming indexKind columns (fun order => order.getD .asc) [] specs

def addUniqueKeys (specs : List (KeySpec Unit)) (s : State registry) : Result registry := do
  let keys ← resolveUniqueKeys env.toNaming s.columns specs
  keys.foldlM (addUniqueKey env true) s

def addIndexes (specs : List (KeySpec (Option Order))) (s : State registry) : Result registry := do
  let keys ← resolveIndexes env.toNaming s.columns specs
  keys.foldlM (addIndex env) s

/-- The row as it is written back: the keys and indexes only when one of them changed. -/
def State.written (s : State registry) : Registry :=
  if s.uniqueKeys.changed || s.indexes.changed then ⟨s.columns, s.uniqueKeys.now, s.indexes.now⟩
  else ⟨s.columns, registry.uniqueKeys, registry.indexes⟩

end Steps

/-- The names a request gives to columns, or finds them by. -/
def Request.columnNames (r : Request) : List Name :=
  r.addColumns.map ColumnSpec.name ++ r.alterColumns.map AlterSpec.name ++
    r.renameColumns.flatMap (fun (old, new) => [old, new])

/-- The row and the table after the request, in one transaction. -/
def alterTable (env : Environment) (r : Request) (registry : Registry) (table : Table Name) :
    Except AlterError (Registry × Table Name) := do
  refuseBadColumnNames r.columnNames
  let adds ← r.addColumns.mapM (normalizeColumnSpec env)
  refuseBadDrops r.dropColumns
  let s ← addColumns env adds (start registry table)
  let s ← dropColumns env r.dropColumns s
  let s ← renameColumns env r.renameColumns s
  let s ← alterColumns env r.alterColumns (mirror r.renameColumns r.dropColumns s)
  let s ← dropUniqueKeys env r.dropUniqueKeys s
  let s ← dropIndexes env r.dropIndexes s
  let s ← addUniqueKeys env r.addUniqueKeys s
  let s ← addIndexes env r.addIndexes s
  pure (s.written, s.table)

end Akb.Tables
