import Akb.RowQuery.Base

/-! The filters of a JSON query: objects of groups and conditions. -/
namespace Akb.RowQuery
open Akb.Library
open Akb.Library.Json (Value)

variable {V : Type}

/-- `str(value)`. -/
def strOf (py : Python V) : Value → Text
  | .str s => s.toList
  | v => py.str v

def isMissing : Value → Bool
  | .null => true
  | _ => false

/-- `_convert_ast_value`. -/
def convertAstValue (py : Python V) (value : Value) (typeName : Text) : Except RowError (Scalar V) :=
  match value with
  | .null => .error ⟨.invalidArgument, "Filter value cannot be null; use the is operator.".toList, []⟩
  | .str s => convertValue py s.toList typeName
  | v => if isJsonType typeName then .ok (.text (py.dumps v)) else convertValue py (py.str v) typeName

/-- The value of `cs`: the text of an object or a list, or what its text says. -/
def astContains (py : Python V) : Value → Except RowError Text
  | .dict fields => .ok (py.dumps (.dict fields))
  | .list items => .ok (py.dumps (.list items))
  | v => parseContainsValue py (strOf py v) "json".toList

/-- `_compile_ast_operator`, for every operator but `not` and those that begin with it. -/
def compileAstPlain (py : Python V) (operand : Operand V) (operator : Text) (value : Value) (params : List (Param V)) :
    Except RowError (Compiled V) :=
  if operator = "is".toList then
    compileIs operand (if isMissing value then "null".toList else PyText.lower (strOf py value)) params
  else if h : (comparisons.lookup operator).isSome then do
    let typeName := if isPattern operator then "text".toList else operand.typeName
    let rawValue := if isPattern operator then
      .str (String.ofList (PyReplace.replaceAll ['*'] ['%'] (strOf py value))) else value
    let converted ← convertAstValue py rawValue typeName
    let before := operand.sql ++ [' '] ++ (comparisons.lookup operator).get h ++ [' ']
    return bindValue before [] (.scalar converted) params
  else if operator = "in".toList then
    match value with
    | .list items => do
      let values ← items.mapM (fun item => convertAstValue py item operand.typeName)
      return bindValue (operand.sql ++ " = ANY(".toList) [')'] (.list values) params
    | _ => .error ⟨.invalidArgument, "AST in operator expects an array value.".toList, []⟩
  else if operator = "cs".toList then do
    refuse (isJsonType operand.typeName = false)
      ⟨.invalidOperator, "cs operator is only supported for JSON columns in this table API.".toList, []⟩
    let contains ← astContains py value
    return bindValue (operand.sql ++ " @> ".toList) "::jsonb".toList (.scalar (.text contains)) params
  else .error (unknownOperator operator)

def notPrefix : Text := "not.".toList

/-- A text of an object that is not empty. -/
def nonemptyText (key : String) (fields : List (String × Value)) : Option Text :=
  match fields.lookup key with
  | some (.str s) => if s = "" then none else some s.toList
  | _ => none

theorem sizeOf_lookup {key : String} {v : Value} {fields : List (String × Value)} (h : fields.lookup key = some v) :
    sizeOf v < sizeOf fields := by
  induction fields with
  | nil => cases h
  | cons f fields ih =>
    obtain ⟨name, w⟩ := f
    rw [List.lookup_cons] at h
    split at h
    · cases h
      simp only [List.cons.sizeOf_spec, Prod.mk.sizeOf_spec]
      omega
    · have hv := ih h
      simp only [List.cons.sizeOf_spec]
      omega

theorem sizeOf_val (fields : List (String × Value)) :
    sizeOf ((fields.lookup "val").getD .null) < sizeOf (Value.dict fields) := by
  cases h : fields.lookup "val" with
  | none =>
    simp only [Option.getD_none, Value.null.sizeOf_spec, Value.dict.sizeOf_spec]
    cases fields <;> simp +arith
  | some v =>
    have hv := sizeOf_lookup h
    simp only [Option.getD_some, Value.dict.sizeOf_spec]
    omega

/-- `_compile_ast_operator`. -/
def compileAstOperator (py : Python V) (operand : Operand V) (operator : Text) (value : Value)
    (params : List (Param V)) : Except RowError (Compiled V) :=
  if _h : notPrefix <+: operator then do
    let (inner, params) ← compileAstOperator py operand (operator.drop notPrefix.length) value params
    return (.neg inner, params)
  else if operator = "not".toList then
    match value with
    | .dict fields =>
      match nonemptyText "op" fields with
      | none => .error ⟨.invalidArgument, "AST not operator expects an inner operator.".toList, []⟩
      | some innerOp => do
        let (inner, params) ← compileAstOperator py operand (PyText.lower innerOp)
          ((fields.lookup "val").getD .null) params
        return (.neg inner, params)
    | _ => .error ⟨.invalidArgument, "AST not operator expects an object value.".toList, []⟩
  else compileAstPlain py operand operator value params
termination_by (sizeOf value, operator.length)
decreasing_by
  · refine Prod.Lex.right _ ?_
    have hlen := _h.length_le
    have hpos : 0 < notPrefix.length := by decide
    rw [List.length_drop]
    omega
  · exact Prod.Lex.left _ _ (sizeOf_val fields)

/-- The texts of a path array, none of them empty. -/
def pathItems : List Value → Option (List Text)
  | [] => some []
  | .str s :: items => if s = "" then none else (pathItems items).map (s.toList :: ·)
  | _ :: _ => none

def jsonbPath (fields : List (String × Value)) : Except RowError (List Text) :=
  match fields.lookup "path" with
  | some (.list (item :: items)) => found (pathItems (item :: items))
      ⟨.invalidArgument, "AST jsonb path entries must be non-empty strings.".toList, []⟩
  | _ => .error ⟨.invalidArgument, "AST jsonb operand must include a non-empty path array.".toList, []⟩

def jsonbCast (py : Python V) (fields : List (String × Value)) : Except RowError (Option Text) :=
  match (fields.lookup "cast").getD .null with
  | .null => .ok none
  | .str s => if castSql.lookup s.toList = none then .error (invalidCast (py.repr s.toList)) else .ok (some s.toList)
  | v => .error (invalidCast (py.str v))

/-- The `jsonb` operand of `_compile_ast_operand`. -/
def compileJsonbOperand (py : Python V) (columns : ColumnMeta) (fields : List (String × Value)) :
    Except RowError (Operand V) := do
  let base ← found (nonemptyText "col" fields)
    ⟨.invalidArgument, "AST jsonb operand must include a column name.".toList, []⟩
  let typeName ← found (columns.lookup base) (unknownColumn py base columns)
  refuse (isJsonType typeName = false)
    ⟨.undefinedColumn, "Column ".toList ++ py.repr base ++ " is not a JSON column.".toList, []⟩
  let path ← jsonbPath fields
  let cast ← jsonbCast py fields
  match path with
  | [item] => return ⟨castTo cast (fieldSql base), [.scalar (.text item)], cast.getD "text".toList⟩
  | items => return ⟨castTo cast (pathSql base), [.list (items.map .text)], cast.getD "text".toList⟩

/-- `_compile_ast_operand`. -/
def compileAstOperand (py : Python V) (columns : ColumnMeta) (fields : List (String × Value)) :
    Except RowError (Operand V) :=
  match fields.lookup "col" with
  | some (.str s) => compileOperand py s.toList columns
  | _ =>
    match fields.lookup "jsonb" with
    | some (.dict jsonb) => compileJsonbOperand py columns jsonb
    | _ => .error ⟨.invalidArgument, "AST condition must include col or jsonb.".toList, []⟩

/-- `_compile_ast_condition`. -/
def compileAstCondition (py : Python V) (columns : ColumnMeta) (fields : List (String × Value))
    (params : List (Param V)) :
    Except RowError (Compiled V) := do
  let operator ← found (nonemptyText "op" fields)
    ⟨.invalidArgument, "AST condition must include an operator string.".toList, []⟩
  let operand ← compileAstOperand py columns fields
  let (operand, params) := bindOperandParams operand params
  compileAstOperator py operand (PyText.lower operator) ((fields.lookup "val").getD .null) params

/-- `_compile_ast_filter`, its groups compiled by `boolGroup`. -/
def compileAstNode (py : Python V) (columns : ColumnMeta)
    (boolGroup : Joiner → Value → List (Param V) → Except RowError (Compiled V)) (node : Value)
    (params : List (Param V)) : Except RowError (Compiled V) :=
  match node with
  | .dict fields =>
    match fields.lookup "and", fields.lookup "or" with
    | some _, some _ =>
      .error ⟨.invalidArgument, "AST filter node must contain only one boolean group.".toList, []⟩
    | some value, none => boolGroup .and value params
    | none, some value => boolGroup .or value params
    | none, none => compileAstCondition py columns fields params
  | _ => .error ⟨.invalidArgument, "AST filter nodes must be objects.".toList, []⟩

/-- `_compile_ast_bool_group` at the depth that leaves `levels` more levels, its own included. -/
def compileAstBoolGroup (py : Python V) (columns : ColumnMeta) :
    Nat → Joiner → Value → List (Param V) → Except RowError (Compiled V)
  | 0, _, _, _ => .error tooDeep
  | levels + 1, joiner, value, params =>
    match value with
    | .list items => do
      let item := compileAstNode py columns (compileAstBoolGroup py columns levels)
      let (clauses, params) ← compileEach item items params
      let clauses := clauses.filter (fun c => c.text ≠ [])
      if clauses.isEmpty then .error (emptyGroup joiner) else return (.paren (.joined joiner clauses), params)
    | _ => .error ⟨.invalidArgument, "AST ".toList ++ joiner.name ++ " filter must be an array.".toList, []⟩

/-- `_compile_ast_filter` of the root of a query. -/
def compileAstFilter (py : Python V) (columns : ColumnMeta) (node : Value) (params : List (Param V)) :
    Except RowError (Compiled V) :=
  compileAstNode py columns (compileAstBoolGroup py columns maxBoolDepth) node params

end Akb.RowQuery
