import Akb.RowQuery.Base
import Akb.RowQuery.Ast

/-! The filters of a query string: `column=op.value`, `or=(...)` and `and=(...)`. -/
namespace Akb.RowQuery
open Akb.Library

variable {V : Type}

/-- `_compile_operator`, for every operator but `not`. -/
def compilePlain (py : Python V) (operand : Operand V) (operator value : Text) (params : List (Param V)) :
    Except RowError (Compiled V) :=
  if operator = "is".toList then compileIs operand (PyText.lower value) params
  else if h : (comparisons.lookup operator).isSome then do
    let typeName := if isPattern operator then "text".toList else operand.typeName
    let rawValue := if isPattern operator then PyReplace.replaceAll ['*'] ['%'] value else value
    let converted ← convertValue py rawValue typeName
    let before := operand.sql ++ [' '] ++ (comparisons.lookup operator).get h ++ [' ']
    return bindValue before [] (.scalar converted) params
  else if operator = "in".toList then do
    let values ← parseInValues py value operand.typeName
    return bindValue (operand.sql ++ " = ANY(".toList) [')'] (.list values) params
  else if operator = "cs".toList then do
    let contains ← parseContainsValue py value operand.typeName
    let cast := if isJsonType operand.typeName then "::jsonb".toList else []
    return bindValue (operand.sql ++ " @> ".toList) cast (.scalar (.text contains)) params
  else .error (unknownOperator operator)

theorem splitBoolCondition_length {raw field rest : Text} (h : splitBoolCondition raw = some (field, rest)) :
    rest.length < raw.length := by
  rw [splitBoolCondition] at h
  split at h
  · rename_i hdot
    cases h
    have hne : raw.dropWhile (· ≠ '.') ≠ [] := by
      intro hnil
      have hall := List.dropWhile_eq_nil_iff.mp hnil '.' hdot
      simp at hall
    have hlen := List.length_dropWhile_le (· ≠ '.') raw
    have hpos := List.length_pos_iff.mpr hne
    rw [List.length_tail]
    omega
  · cases h

theorem splitOperator_length {raw op rest : Text} (h : splitOperator raw = some (op, rest)) :
    rest.length < raw.length := by
  obtain ⟨⟨field, value⟩, hsplit, heq⟩ := Option.map_eq_some_iff.mp h
  cases heq
  exact splitBoolCondition_length hsplit

/-- `_compile_operator`. -/
def compileOperator (py : Python V) (operand : Operand V) (operator value : Text) (params : List (Param V)) :
    Except RowError (Compiled V) :=
  if operator = "not".toList then
    match _h : splitOperator value with
    | none => .error ⟨.invalidFilter, "Invalid not filter: expected not.op.value".toList, []⟩
    | some (innerOp, innerValue) => do
      let (inner, params) ← compileOperator py operand innerOp innerValue params
      return (.neg inner, params)
  else compilePlain py operand operator value params
termination_by value.length
decreasing_by exact splitOperator_length _h

/-- `_compile_condition`. -/
def compileCondition (py : Python V) (columns : ColumnMeta) (field rawValue : Text) (params : List (Param V)) :
    Except RowError (Compiled V) := do
  let operand ← compileOperand py field columns
  let (operand, params) := bindOperandParams operand params
  match splitOperator rawValue with
  | none => .error ⟨.invalidFilter, "Invalid filter value for ".toList ++ field ++ ": expected op.value".toList, []⟩
  | some (operator, value) => compileOperator py operand operator value params

/-- The parts of a group, without the parentheses around them and without blank ones. -/
def groupParts (value : Text) : List Text :=
  let text := PyText.strip value
  ((splitTopLevel (if inParens text then inner text else text)).map PyText.strip).filter (· ≠ [])

/-- One part of a group: a group within, compiled by `boolGroup`, or a condition. -/
def compilePart (py : Python V) (columns : ColumnMeta)
    (boolGroup : Joiner → Text → List (Param V) → Except RowError (Compiled V)) (part : Text)
    (params : List (Param V)) : Except RowError (Compiled V) :=
  match nestedGroup part with
  | some (nested, nestedValue) => boolGroup nested nestedValue params
  | none =>
    match splitBoolCondition part with
    | none => .error ⟨.invalidFilter, "Invalid boolean filter: ".toList ++ part, []⟩
    | some (field, opValue) => compileCondition py columns field opValue params

/-- `_compile_bool_group` at the depth that leaves `levels` more levels, its own included. -/
def compileBoolGroup (py : Python V) (columns : ColumnMeta) :
    Nat → Joiner → Text → List (Param V) → Except RowError (Compiled V)
  | 0, _, _, _ => .error tooDeep
  | levels + 1, joiner, value, params => do
    let part := compilePart py columns (compileBoolGroup py columns levels)
    let (clauses, params) ← compileEach part (groupParts value) params
    if clauses.isEmpty then .error (emptyGroup joiner) else return (.joined joiner clauses, params)

/-- The query parameters that are no filters, unless a column has the name. -/
def controlParams : List Text := ["select", "order", "limit", "offset"].map String.toList

/-- One query parameter of `_compile_filters`. -/
def compileParam (py : Python V) (columns : ColumnMeta) (param : Text × Text) (params : List (Param V)) :
    Except RowError (Compiled V) :=
  if param.1 = Joiner.or.name then compileBoolGroup py columns maxBoolDepth .or param.2 params
  else if param.1 = Joiner.and.name then compileBoolGroup py columns maxBoolDepth .and param.2 params
  else compileCondition py columns param.1 param.2 params

/-- `_compile_filters`. -/
def compileFilters (py : Python V) (columns : ColumnMeta) (queryParams : List (Text × Text))
    (params : List (Param V)) : Except RowError (Compiled V) := do
  let filters := queryParams.filter (fun p => ¬ (p.1 ∈ controlParams ∧ columns.lookup p.1 = none))
  let (clauses, params) ← compileEach (compileParam py columns) filters params
  return (.joined .and (clauses.filter (fun c => c.text ≠ [])), params)

end Akb.RowQuery

/-! No clause that the compilers return is empty. -/
namespace Akb.RowQuery
open Akb.Library
open Akb.Library.Json (Value)

variable {V : Type} {py : Python V} {columns : ColumnMeta} {params : List (Param V)}

theorem bindValue_text (before after : Text) (value : Param V) (params : List (Param V)) :
    (bindValue before after value params).1.text ≠ [] := by
  simp [bindValue, Clause.text, addParam]

theorem compileIs_written {operand : Operand V} {lowered : Text} {out : Compiled V}
    (h : compileIs operand lowered params = .ok out) : out.1.text ≠ [] := by
  unfold compileIs at h
  split at h
  · cases h
    simp [Clause.text]
  split at h
  · cases h
    simp [Clause.text]
  · cases h

theorem compilePlain_written {operand : Operand V} {operator value : Text} {out : Compiled V}
    (h : compilePlain py operand operator value params = .ok out) : out.1.text ≠ [] := by
  unfold compilePlain at h
  split at h
  · exact compileIs_written h
  split at h
  · obtain ⟨converted, -, hout⟩ := bind_eq_ok.mp h
    cases hout
    exact bindValue_text _ _ _ _
  split at h
  · obtain ⟨values, -, hout⟩ := bind_eq_ok.mp h
    cases hout
    exact bindValue_text _ _ _ _
  split at h
  · obtain ⟨contains, -, hout⟩ := bind_eq_ok.mp h
    cases hout
    exact bindValue_text _ _ _ _
  · cases h

theorem compileOperator_written {operand : Operand V} {operator value : Text} {out : Compiled V}
    (h : compileOperator py operand operator value params = .ok out) : out.1.text ≠ [] := by
  unfold compileOperator at h
  split at h
  · split at h
    · cases h
    · obtain ⟨inner, -, hout⟩ := bind_eq_ok.mp h
      cases hout
      simp [Clause.text]
  · exact compilePlain_written h

theorem compileCondition_written {field raw : Text} {out : Compiled V}
    (h : compileCondition py columns field raw params = .ok out) : out.1.text ≠ [] := by
  obtain ⟨operand, -, hout⟩ := bind_eq_ok.mp h
  dsimp only at hout
  split at hout
  · cases hout
  · exact compileOperator_written hout

theorem compileAstPlain_written {operand : Operand V} {operator : Text} {value : Value} {out : Compiled V}
    (h : compileAstPlain py operand operator value params = .ok out) : out.1.text ≠ [] := by
  unfold compileAstPlain at h
  split at h
  · exact compileIs_written h
  split at h
  · obtain ⟨converted, -, hout⟩ := bind_eq_ok.mp h
    cases hout
    exact bindValue_text _ _ _ _
  split at h
  · split at h
    · obtain ⟨values, -, hout⟩ := bind_eq_ok.mp h
      cases hout
      exact bindValue_text _ _ _ _
    · cases h
  split at h
  · obtain ⟨-, -, h⟩ := bind_eq_ok.mp h
    obtain ⟨contains, -, hout⟩ := bind_eq_ok.mp h
    cases hout
    exact bindValue_text _ _ _ _
  · cases h

theorem compileAstOperator_written {operand : Operand V} {operator : Text} {value : Value} {out : Compiled V}
    (h : compileAstOperator py operand operator value params = .ok out) : out.1.text ≠ [] := by
  unfold compileAstOperator at h
  split at h
  · obtain ⟨inner, -, hout⟩ := bind_eq_ok.mp h
    cases hout
    simp [Clause.text]
  split at h
  · split at h
    · split at h
      · cases h
      · obtain ⟨inner, -, hout⟩ := bind_eq_ok.mp h
        cases hout
        simp [Clause.text]
    · cases h
  · exact compileAstPlain_written h

theorem compileAstCondition_written {fields : List (String × Value)} {out : Compiled V}
    (h : compileAstCondition py columns fields params = .ok out) : out.1.text ≠ [] := by
  obtain ⟨operator, -, h⟩ := bind_eq_ok.mp h
  obtain ⟨operand, -, h⟩ := bind_eq_ok.mp h
  exact compileAstOperator_written h

theorem joined_text (joiner : Joiner) {cs : List Clause} (h : cs ≠ []) : (Clause.joined joiner cs).text ≠ [] := by
  cases cs with
  | nil => exact absurd rfl h
  | cons c cs =>
    rw [Clause.text, clauseTexts]
    cases clauseTexts cs with
    | nil => simp
    | cons d ds => simp

end Akb.RowQuery
