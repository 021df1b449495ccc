import Akb.Library.Fallible
import Akb.Library.JsonReader
import Akb.Library.PyReplace
import Akb.Library.TopLevel
import Akb.Tables.Names

/-! What the two compilers of row filters share: operands, values, and the clauses they write. -/
namespace Akb.RowQuery
open Akb.Library
open Akb.Library.Json (Value)

abbrev Text := List Char

inductive Code where
  | invalidArgument
  | invalidCast
  | invalidFilter
  | invalidOperator
  | undefinedColumn
  | filterTooDeep
  deriving DecidableEq

/-- What `err` returns; `choices` are the casts or columns it lists. -/
structure RowError where
  code : Code
  message : Text
  choices : List Text := []
  deriving DecidableEq

/-- What the compilers take from Python's library; `V` holds the numbers, dates and identifiers. -/
structure Python (V : Type) where
  repr : Text → Text
  decimal : Text → Option V
  int : Text → Option V
  float : Text → Option V
  dateFromIso : Text → Option V
  datetimeFromIso : Text → Option V
  uuid : Text → Option V
  /-- `json.dumps(json.loads(text))`. -/
  redump : Text → Option Text
  dumps : Value → Text
  /-- `str` of what is no text. -/
  str : Value → Text

inductive Scalar (V : Type) where
  | text (s : Text)
  | bool (b : Bool)
  | other (v : V)
  deriving DecidableEq

/-- A bound parameter of the statement. -/
inductive Param (V : Type) where
  | scalar (x : Scalar V)
  | list (xs : List (Scalar V))
  deriving DecidableEq

variable {V : Type}

/-! ### Clauses -/

inductive Joiner where
  | or
  | and
  deriving DecidableEq

def Joiner.name : Joiner → Text
  | .or => ['o', 'r']
  | .and => ['a', 'n', 'd']

def Joiner.glue : Joiner → Text
  | .or => " OR ".toList
  | .and => " AND ".toList

/-- A condition as it is put together; `text` is what stands in the statement. -/
inductive Clause where
  | atom (sql : Text)
  | neg (c : Clause)
  | joined (joiner : Joiner) (cs : List Clause)
  | paren (c : Clause)

mutual
def Clause.text : Clause → Text
  | .atom sql => sql
  | .neg c => "NOT (".toList ++ c.text ++ [')']
  | .joined joiner cs => joiner.glue.intercalate (clauseTexts cs)
  | .paren c => ['('] ++ c.text ++ [')']

/-- Each clause in parentheses. -/
def clauseTexts : List Clause → List Text
  | [] => []
  | c :: cs => (['('] ++ c.text ++ [')']) :: clauseTexts cs
end

/-- The three truth values of SQL; `none` is unknown. -/
abbrev Truth := Option Bool

def Truth.conj : Truth → Truth → Truth
  | some false, _ => some false
  | _, some false => some false
  | some true, some true => some true
  | _, _ => none

def Truth.neg : Truth → Truth := Option.map not

def Truth.disj (a b : Truth) : Truth := (a.neg.conj b.neg).neg

def Joiner.join : Joiner → Truth → Truth → Truth
  | .or => Truth.disj
  | .and => Truth.conj

/-- The value of the empty group. -/
def Joiner.unit : Joiner → Truth
  | .or => some false
  | .and => some true

mutual
/-- The truth of a clause on a row, whose atoms have the truth values given. -/
def Clause.truth (atoms : Text → Truth) : Clause → Truth
  | .atom sql => atoms sql
  | .neg c => (c.truth atoms).neg
  | .joined joiner cs => clausesTruth atoms joiner cs
  | .paren c => c.truth atoms

def clausesTruth (atoms : Text → Truth) (joiner : Joiner) : List Clause → Truth
  | [] => joiner.unit
  | c :: cs => joiner.join (c.truth atoms) (clausesTruth atoms joiner cs)
end

/-- A clause with the parameters bound so far. -/
abbrev Compiled (V : Type) := Clause × List (Param V)

/-- The clauses of a list, one after the other, up to the first error. -/
def compileEach {α : Type} (compile : α → List (Param V) → Except RowError (Compiled V)) :
    List α → List (Param V) → Except RowError (List Clause × List (Param V))
  | [], params => .ok ([], params)
  | a :: rest, params => do
    let (c, params) ← compile a params
    let (cs, params) ← compileEach compile rest params
    return (c :: cs, params)

/-! ### Columns and operands -/

/-- The logical type of each column. -/
abbrev ColumnMeta := List (Text × Text)

def bookkeepingColumns : ColumnMeta :=
  [("id", "uuid"), ("created_by", "text"), ("created_at", "timestamp"), ("updated_at", "timestamp")].map
    (Prod.map String.toList String.toList)

def castSql : List (Text × Text) :=
  [("int", "integer"), ("numeric", "numeric"), ("float", "double precision"), ("bool", "boolean"), ("date", "date"),
    ("timestamp", "timestamp"), ("uuid", "uuid"), ("text", "text")].map (Prod.map String.toList String.toList)

def sortedCasts : List Text :=
  ["bool", "date", "float", "int", "numeric", "text", "timestamp", "uuid"].map String.toList

def isJsonType (typeName : Text) : Bool := typeName ∈ ["json".toList, "jsonb".toList]

/-- `meta[name] = type`. -/
def setColumn (name type : Text) (columns : ColumnMeta) : ColumnMeta :=
  (name, type) :: columns.filter (fun c => c.1 ≠ name)

/-- `_column_meta`. -/
def columnMeta (py : Python V) (columns : List Value) : ColumnMeta :=
  columns.foldl (fun known col =>
    match col.get? "name" with
    | some (.str name) =>
      if name = "" then known
      else
        let type := match (col.get? "type").getD .null with
          | .str s => if s = "" then "text".toList else s.toList
          | v => if v.truthy then py.str v else "text".toList
        setColumn name.toList (PyText.lower type) known
    | _ => known) bookkeepingColumns

structure Operand (V : Type) where
  sql : Text
  params : List (Param V)
  typeName : Text
  deriving DecidableEq

/-- `_unknown_column`, without its hint. -/
def unknownColumn (py : Python V) (name : Text) (columns : ColumnMeta) : RowError where
  code := .undefinedColumn
  message := "Column ".toList ++ py.repr name ++ " does not exist on this table.".toList
  choices := (columns.map Prod.fst).insertionSort (· ≤ ·)

inductive Arrow where
  | field
  | path
  deriving DecidableEq

def isBaseChar (c : Char) : Bool := c.isLower || c.isDigit || c == '_'

/-- The end of an operand: nothing, or a cast. -/
def matchCast : Text → Option (Option Text)
  | [] => some none
  | ':' :: ':' :: cast => if cast ≠ [] ∧ cast.all Char.isLower then some (some cast) else none
  | _ => none

def matchPath (base : Text) (arrow : Arrow) (rest : Text) : Option (Text × Option (Arrow × Text) × Option Text) :=
  let path := rest.takeWhile (· ≠ ':')
  if path = [] then none
  else (matchCast (rest.dropWhile (· ≠ ':'))).map (fun cast => (base, some (arrow, path), cast))

/-- `_JSON_PATH_RE.fullmatch`: the base, the arrow with its path, and the cast. -/
def matchJsonPath (token : Text) : Option (Text × Option (Arrow × Text) × Option Text) :=
  let base := token.takeWhile isBaseChar
  if base.head?.any Char.isLower then
    match token.dropWhile isBaseChar with
    | '-' :: '>' :: '>' :: rest => matchPath base .field rest
    | '#' :: '>' :: '>' :: rest => matchPath base .path rest
    | rest => (matchCast rest).map (fun cast => (base, none, cast))
  else none

/-- The stripped items of a text in braces, those that are not blank. -/
def bracedItems (text : Text) : List Text :=
  ((PyReplace.split [','] (text.drop 1).dropLast).map PyText.strip).filter (· ≠ [])

def inBraces (text : Text) : Bool := text.head? = some '\x7b' && text.getLast? = some '\x7d'

/-- `_parse_json_path_list`. -/
def parseJsonPathList (raw : Text) : Except RowError (List Text) :=
  let text := PyText.strip raw
  if inBraces text then .ok (bracedItems text)
  else .error ⟨.invalidFilter, "#>> JSON path must use \x7ba,b\x7d syntax.".toList, []⟩

/-- Where the number of the parameter goes in the text of an operand. -/
def placeholder : Text := "$\x7bparam\x7d".toList

/-- The text of an operand with its cast. -/
def castTo (cast : Option Text) (expr : Text) : Text :=
  match cast with
  | none => expr
  | some cast => ['('] ++ expr ++ ")::".toList ++ (castSql.lookup cast).getD []

def fieldSql (base : Text) : Text := Tables.safeIdent base ++ " ->> ".toList ++ placeholder ++ "::text".toList

def pathSql (base : Text) : Text := Tables.safeIdent base ++ " #>> ".toList ++ placeholder ++ "::text[]".toList

def invalidCast (shown : Text) : RowError where
  code := .invalidCast
  message := "Invalid JSON cast ".toList ++ shown ++ ['.']
  choices := sortedCasts

/-- `_compile_operand`. -/
def compileOperand (py : Python V) (raw : Text) (columns : ColumnMeta) : Except RowError (Operand V) := do
  let token := PyText.strip raw
  let (base, path, cast) ← found (matchJsonPath token) (unknownColumn py token columns)
  let typeName ← found (columns.lookup base) (unknownColumn py base columns)
  refuse (∃ c ∈ cast, castSql.lookup c = none)
    (invalidCast (py.repr (cast.getD [])))
  match path with
  | none =>
    refuse (cast.isSome) ⟨.invalidCast, "Casts are only supported for JSON path operands.".toList, []⟩
    return ⟨Tables.safeIdent base, [], typeName⟩
  | some (arrow, path) =>
    refuse (isJsonType typeName = false)
      ⟨.undefinedColumn, "Column ".toList ++ py.repr base ++ " is not a JSON column.".toList, []⟩
    let path := PyText.strip path
    refuse (path = []) ⟨.invalidFilter, "Invalid JSON path operand: ".toList ++ raw, []⟩
    match arrow with
    | .field => return ⟨castTo cast (fieldSql base), [.scalar (.text path)], cast.getD "text".toList⟩
    | .path =>
      let items ← parseJsonPathList path
      return ⟨castTo cast (pathSql base), [.list (items.map .text)], cast.getD "text".toList⟩

/-- `_add_param`: the parameters with the value, and its place. -/
def addParam (params : List (Param V)) (value : Param V) : List (Param V) × Text :=
  (params ++ [value], '$' :: Nat.toDigits 10 (params.length + 1))

/-- `_bind_operand_params`. -/
def bindOperandParams (operand : Operand V) (params : List (Param V)) : Operand V × List (Param V) :=
  let bound := operand.params.foldl (fun b value =>
    (PyReplace.replaceOne placeholder (addParam b.2 value).2 b.1, (addParam b.2 value).1)) (operand.sql, params)
  (⟨bound.1, [], operand.typeName⟩, bound.2)

/-! ### Values -/

def trueWords : List Text := ["true", "t", "1"].map String.toList

def falseWords : List Text := ["false", "f", "0"].map String.toList

/-- `_convert_value`. -/
def convertValue (py : Python V) (raw typeName : Text) : Except RowError (Scalar V) :=
  let converted (x : Option (Scalar V)) := found x
    ⟨.invalidArgument, "Could not convert ".toList ++ py.repr raw ++ " to ".toList ++ typeName ++ ['.'], []⟩
  if typeName ∈ ["text", "json", "jsonb"].map String.toList then .ok (.text raw)
  else if typeName ∈ ["number", "numeric"].map String.toList then converted ((py.decimal raw).map .other)
  else if typeName = "int".toList then converted ((py.int raw).map .other)
  else if typeName = "float".toList then converted ((py.float raw).map .other)
  else if typeName ∈ ["boolean", "bool"].map String.toList then
    converted (if PyText.lower raw ∈ trueWords then some (.bool true)
      else if PyText.lower raw ∈ falseWords then some (.bool false) else none)
  else if typeName = "date".toList then converted ((py.dateFromIso raw).map .other)
  else if typeName = "timestamp".toList then
    converted ((py.datetimeFromIso (PyReplace.replaceAll ['Z'] "+00:00".toList raw)).map .other)
  else if typeName = "uuid".toList then converted ((py.uuid raw).map .other)
  else .ok (.text raw)

/-- The depth of parentheses and of braces. -/
abbrev Depth := Nat × Nat

def Depth.step (d : Depth) (c : Char) : Depth :=
  if c = '(' then (d.1 + 1, d.2)
  else if c = ')' then (d.1 - 1, d.2)
  else if c = '\x7b' then (d.1, d.2 + 1)
  else if c = '\x7d' then (d.1, d.2 - 1)
  else d

def Depth.cut (d : Depth) (c : Char) : Bool := c = ',' && d = (0, 0)

/-- `_split_top_level`. -/
def splitTopLevel (value : Text) : List Text := TopLevel.pieces Depth.step Depth.cut (0, 0) value

def inParens (text : Text) : Bool := text.head? = some '(' && text.getLast? = some ')'

/-- `text[1:-1]`. -/
def inner (text : Text) : Text := (text.drop 1).dropLast

/-- `_parse_in_values`. -/
def parseInValues (py : Python V) (raw typeName : Text) : Except RowError (List (Scalar V)) := do
  let text := PyText.strip raw
  refuse (inParens text = false)
    ⟨.invalidFilter, "in operator expects parenthesized values, e.g. in.(a,b).".toList, []⟩
  (splitTopLevel (inner text)).mapM (fun item => convertValue py (PyText.strip item) typeName)

/-- `json.dumps` of a list of texts. -/
def dumpsTexts (py : Python V) (items : List Text) : Text :=
  py.dumps (.list (items.map (fun t => .str (String.ofList t))))

/-- `_parse_contains_value`. -/
def parseContainsValue (py : Python V) (raw typeName : Text) : Except RowError Text := do
  refuse (isJsonType typeName = false)
    ⟨.invalidOperator, "cs operator is only supported for JSON columns in this table API.".toList, []⟩
  let text := PyText.strip raw
  if inBraces text ∧ ':' ∉ text then return dumpsTexts py (bracedItems text)
  else found (py.redump text) ⟨.invalidFilter, "cs on JSON columns expects JSON or \x7ba,b\x7d syntax.".toList, []⟩

/-! ### Parts of a condition -/

/-- The text in front of the first dot, and the text behind it; `_split_bool_condition`. -/
def splitBoolCondition (raw : Text) : Option (Text × Text) :=
  if '.' ∈ raw then some (raw.takeWhile (· ≠ '.'), (raw.dropWhile (· ≠ '.')).tail) else none

/-- `_split_operator`. -/
def splitOperator (raw : Text) : Option (Text × Text) := (splitBoolCondition raw).map (Prod.map PyText.lower id)

/-- `_nested_group`. -/
def nestedGroup (raw : Text) : Option (Joiner × Text) :=
  if Joiner.or.name ++ ['('] <+: raw ∧ raw.getLast? = some ')' then some (.or, raw.drop Joiner.or.name.length)
  else if Joiner.and.name ++ ['('] <+: raw ∧ raw.getLast? = some ')' then some (.and, raw.drop Joiner.and.name.length)
  else none

/-- The SQL of the operators that compare with one value. -/
def comparisons : List (Text × Text) :=
  [("eq", "="), ("neq", "<>"), ("gt", ">"), ("gte", ">="), ("lt", "<"), ("lte", "<="), ("like", "LIKE"),
    ("ilike", "ILIKE")].map (Prod.map String.toList String.toList)

def isPattern (operator : Text) : Bool := operator ∈ ["like".toList, "ilike".toList]

def unknownOperator (operator : Text) : RowError :=
  ⟨.invalidOperator, "Unknown row-read operator: ".toList ++ operator, []⟩

/-- The clause of a value behind an operator. -/
def bindValue (before after : Text) (value : Param V) (params : List (Param V)) : Clause × List (Param V) :=
  (.atom (before ++ (addParam params value).2 ++ after), (addParam params value).1)

/-- The operator `is`, with its value in lower case. -/
def compileIs (operand : Operand V) (lowered : Text) (params : List (Param V)) : Except RowError (Compiled V) :=
  if lowered = "null".toList then .ok (.atom (operand.sql ++ " IS NULL".toList), params)
  else if lowered ∈ ["true", "false"].map String.toList then
    .ok (.atom (operand.sql ++ " IS ".toList ++ PyText.upper lowered), params)
  else .error ⟨.invalidFilter, "is operator only supports null, true, or false.".toList, []⟩

/-- `MAX_BOOL_DEPTH`. -/
def maxBoolDepth : Nat := 3

def tooDeep : RowError := ⟨.filterTooDeep, "Boolean filter nesting is too deep.".toList, []⟩

def emptyGroup (joiner : Joiner) : RowError :=
  ⟨.invalidFilter, "Invalid boolean filter: empty ".toList ++ joiner.name ++ " group.".toList, []⟩

end Akb.RowQuery
