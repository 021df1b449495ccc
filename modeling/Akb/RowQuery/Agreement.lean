import Akb.RowQuery.Conditions
import Akb.RowQuery.QueryString

/-! The filters of a query string and of a JSON query say the same. -/
namespace Akb.RowQuery
open Akb.Library
open Akb.Library.Json (Value)

variable {V : Type} {py : Python V} {columns : ColumnMeta} {params : List (Param V)}

/-- Both readings fail with the same code, or both bind the same parameters and write clauses that
are true, false and unknown on the same rows. -/
inductive Agree : Except RowError (Compiled V) → Except RowError (Compiled V) → Prop where
  | fail {e f : RowError} : e.code = f.code → Agree (.error e) (.error f)
  | compile {c d : Clause} {params : List (Param V)} : (∀ atoms, c.truth atoms = d.truth atoms) →
      Agree (.ok (c, params)) (.ok (d, params))

/-- The code of an error. -/
def failCode {α : Type} : Except RowError α → Option Code
  | .error e => some e.code
  | .ok _ => none

theorem Agree.failCode {r s : Except RowError (Compiled V)} (h : Agree r s) : failCode r = failCode s := by
  cases h with
  | fail hcode => exact congrArg some hcode
  | compile _ => rfl

/-! ### Lists of clauses -/

/-- Two clauses, both written, with the same truth value on every row. -/
structure Same (c d : Clause) : Prop where
  truth : ∀ atoms, c.truth atoms = d.truth atoms
  left : c.text ≠ []
  right : d.text ≠ []

inductive Matches : Except RowError (Compiled V) → Except RowError (Compiled V) → Prop where
  | fail {e f : RowError} : e.code = f.code → Matches (.error e) (.error f)
  | compile {c d : Clause} {params : List (Param V)} : Same c d → Matches (.ok (c, params)) (.ok (d, params))

inductive MatchesAll :
    Except RowError (List Clause × List (Param V)) → Except RowError (List Clause × List (Param V)) → Prop where
  | fail {e f : RowError} : e.code = f.code → MatchesAll (.error e) (.error f)
  | compile {cs ds : List Clause} {params : List (Param V)} : List.Forall₂ Same cs ds →
      MatchesAll (.ok (cs, params)) (.ok (ds, params))

theorem Matches.agree {r s : Except RowError (Compiled V)} (h : Matches r s) : Agree r s := by
  cases h with
  | fail hcode => exact .fail hcode
  | compile hsame => exact .compile hsame.truth

theorem Matches.refl {r : Except RowError (Compiled V)} (h : ∀ out, r = .ok out → out.1.text ≠ []) : Matches r r := by
  cases r with
  | error e => exact .fail rfl
  | ok out =>
    obtain ⟨c, params⟩ := out
    exact .compile ⟨fun _ => rfl, h _ rfl, h _ rfl⟩

theorem compileEach_matches {α β : Type} {f : α → List (Param V) → Except RowError (Compiled V)}
    {g : β → List (Param V) → Except RowError (Compiled V)} {as : List α} {bs : List β}
    (h : List.Forall₂ (fun a b => ∀ params, Matches (f a params) (g b params)) as bs) (params : List (Param V)) :
    MatchesAll (compileEach f as params) (compileEach g bs params) := by
  induction h generalizing params with
  | nil => exact .compile .nil
  | @cons a b as bs hab _ ih =>
    have hfirst := hab params
    rw [compileEach, compileEach]
    generalize f a params = r at hfirst ⊢
    generalize g b params = s at hfirst ⊢
    cases hfirst with
    | fail hcode => exact .fail hcode
    | @compile c d params hsame =>
      have hrest := ih params
      simp only [ok_bind]
      generalize compileEach f as params = r at hrest ⊢
      generalize compileEach g bs params = s at hrest ⊢
      cases hrest with
      | fail hcode => exact .fail hcode
      | compile hrest => exact .compile (.cons hsame hrest)

theorem same_truths {cs ds : List Clause} (h : List.Forall₂ Same cs ds) (joiner : Joiner) (atoms : Text → Truth) :
    clausesTruth atoms joiner cs = clausesTruth atoms joiner ds := by
  induction h with
  | nil => rfl
  | cons hsame _ ih => rw [clausesTruth, clausesTruth, hsame.truth, ih]

theorem filter_written {cs ds : List Clause} (h : List.Forall₂ Same cs ds) :
    ds.filter (fun d => d.text ≠ []) = ds := by
  induction h with
  | nil => rfl
  | cons hsame _ ih => rw [List.filter_cons_of_pos (by simp [hsame.right]), ih]

/-! ### Groups -/

theorem group_matches {α β : Type} {f : α → List (Param V) → Except RowError (Compiled V)}
    {g : β → List (Param V) → Except RowError (Compiled V)} {as : List α} {bs : List β}
    (h : List.Forall₂ (fun a b => ∀ params, Matches (f a params) (g b params)) as bs) (joiner : Joiner)
    (params : List (Param V)) :
    Matches
      (do let (cs, params) ← compileEach f as params
          if cs.isEmpty then .error (emptyGroup joiner) else return (.joined joiner cs, params))
      (do let (ds, params) ← compileEach g bs params
          let ds := ds.filter (fun d => d.text ≠ [])
          if ds.isEmpty then .error (emptyGroup joiner) else return (.paren (.joined joiner ds), params)) := by
  have hall := compileEach_matches h params
  generalize compileEach f as params = r at hall ⊢
  generalize compileEach g bs params = s at hall ⊢
  cases hall with
  | fail hcode => exact .fail hcode
  | @compile cs ds params hsame =>
    simp only [ok_bind, filter_written hsame]
    cases hsame with
    | nil => exact .fail rfl
    | @cons c d cs ds hcd hrest =>
      refine .compile ⟨fun atoms => ?_, joined_text joiner (List.cons_ne_nil _ _), by simp [Clause.text]⟩
      rw [Clause.truth, Clause.truth, Clause.truth]
      exact same_truths (.cons hcd hrest) joiner atoms

theorem nestedGroup_group (joiner : Joiner) (items : List Tree) :
    nestedGroup (Tree.group joiner items).part = some (joiner, groupText items) := by
  cases joiner with
  | or => simp [nestedGroup, Tree.part, Joiner.name, groupText, getLast?_parens]
  | and => simp [nestedGroup, Tree.part, Joiner.name, groupText, getLast?_parens]

mutual
/-- The text of a tree stays in one piece, and nothing is stripped off it. -/
theorem tree_part : (t : Tree) → t.All Condition.Plain → Sealed t.part ∧ PyText.strip t.part = t.part ∧ t.part ≠ []
  | .condition c, h => ⟨sealed_condition h, strip_condition h, by simp [Tree.part, Condition.part]⟩
  | .group joiner items, h => by
    have henclosed := enclosed_joined fun s hs => (tree_parts items h s hs).1.enclosed
    refine ⟨?_, ?_, by simp [Tree.part]⟩
    · have hname : ∀ c ∈ joiner.name, c ∉ marks := by cases joiner <;> decide
      exact (sealed_unmarked hname).append henclosed.sealed
    · refine PyText.strip_eq_self (fun c hc => ?_) (fun c hc => ?_)
      · cases joiner <;> cases hc <;> rfl
      · rw [Tree.part, List.getLast?_append, getLast?_parens] at hc
        cases hc
        rfl

theorem tree_parts : (items : List Tree) → treesAll Condition.Plain items →
    ∀ s ∈ treeParts items, Sealed s ∧ PyText.strip s = s ∧ s ≠ []
  | [], _ => by simp [treeParts]
  | t :: items, h => List.forall_mem_cons.mpr ⟨tree_part t h.1, tree_parts items h.2⟩
end

theorem groupParts_groupText {items : List Tree} (h : treesAll Condition.Plain items) :
    groupParts (groupText items) = treeParts items := by
  have hparts := tree_parts items h
  simp only [groupParts, groupText, strip_parens, inParens_parens, if_true, inner_parens]
  by_cases hne : treeParts items = []
  · rw [hne]
    decide
  · rw [splitTopLevel_joined hne fun s hs => (hparts s hs).1,
      List.map_congr_left fun s hs => (hparts s hs).2.1, List.map_id']
    exact List.filter_eq_self.mpr fun s hs => by simpa using (hparts s hs).2.2

theorem boolGroup_matches {items : List Tree} (hplain : treesAll Condition.Plain items) (levels : Nat) (joiner : Joiner)
    (h : List.Forall₂ (fun part json => ∀ levels params, Matches
      (compilePart py columns (compileBoolGroup py columns levels) part params)
      (compileAstNode py columns (compileAstBoolGroup py columns levels) json params)) (treeParts items) (treesJson items))
    (params : List (Param V)) :
    Matches (compileBoolGroup py columns levels joiner (groupText items) params)
      (compileAstBoolGroup py columns levels joiner (.list (treesJson items)) params) := by
  cases levels with
  | zero => exact .fail rfl
  | succ levels =>
    have hmatch := group_matches (h.imp fun _ _ hpart => hpart levels) joiner params
    rw [← groupParts_groupText hplain] at hmatch
    exact hmatch

theorem compileAstNode_group (joiner : Joiner) (items : List Tree)
    (group : Joiner → Value → List (Param V) → Except RowError (Compiled V)) :
    compileAstNode py columns group (Tree.group joiner items).json params =
      group joiner (.list (treesJson items)) params := by
  cases joiner <;> rfl

mutual
theorem tree_matches : (t : Tree) → t.All Condition.Plain → t.All Condition.Readable → ∀ levels params, Matches
    (compilePart py columns (compileBoolGroup py columns levels) t.part params)
    (compileAstNode py columns (compileAstBoolGroup py columns levels) t.json params)
  | .condition c, hplain, hread, levels, params => by
    rw [Tree.part, Tree.json, ← compilePart_condition hread hplain (compileBoolGroup py columns levels)]
    refine .refl fun out hout => ?_
    rw [compilePart, nestedGroup_condition hplain, Condition.part, splitBoolCondition_dot hread.column] at hout
    exact compileCondition_written hout
  | .group joiner items, hplain, hread, levels, params => by
    rw [compilePart, nestedGroup_group, compileAstNode_group]
    exact boolGroup_matches hplain levels joiner (trees_match items hplain hread) params

theorem trees_match : (items : List Tree) → treesAll Condition.Plain items → treesAll Condition.Readable items →
    List.Forall₂ (fun part json => ∀ levels params, Matches
      (compilePart py columns (compileBoolGroup py columns levels) part params)
      (compileAstNode py columns (compileAstBoolGroup py columns levels) json params)) (treeParts items) (treesJson items)
  | [], _, _ => .nil
  | t :: items, hplain, hread => .cons (tree_matches t hplain.1 hread.1) (trees_match items hplain.2 hread.2)
end

theorem compileParam_group (joiner : Joiner) (value : Text) :
    compileParam py columns (joiner.name, value) params = compileBoolGroup py columns maxBoolDepth joiner value params := by
  cases joiner with
  | or => exact if_pos rfl
  | and =>
    have hne : Joiner.and.name ≠ Joiner.or.name := by decide
    exact (if_neg hne).trans (if_pos rfl)

/-- A single filter stands in parentheses of its own. -/
theorem compileFilters_group (joiner : Joiner) (value : Text) (params : List (Param V)) :
    compileFilters py columns [(joiner.name, value)] params = (do
      let (c, params) ← compileBoolGroup py columns maxBoolDepth joiner value params
      return (.joined .and ([c].filter (fun c => c.text ≠ [])), params)) := by
  have hcontrol : joiner.name ∉ controlParams := by cases joiner <;> decide
  have hfilter : [(joiner.name, value)].filter (fun p => ¬ (p.1 ∈ controlParams ∧ columns.lookup p.1 = none)) =
      [(joiner.name, value)] := by simp [hcontrol]
  simp only [compileFilters, hfilter, compileEach, compileParam_group]
  cases compileBoolGroup py columns maxBoolDepth joiner value params with
  | error e => rfl
  | ok out => rfl

theorem conj_true (a : Truth) : a.conj (some true) = a := by
  cases a with
  | none => rfl
  | some b => cases b <;> rfl

/-- The same tree in a query string and in a JSON query. -/
theorem filters_agree (py : Python V) (columns : ColumnMeta) (joiner : Joiner) (items : List Tree)
    (hplain : (Tree.group joiner items).All Condition.Plain)
    (hread : (Tree.group joiner items).All Condition.Readable) (params : List (Param V)) :
    Agree (compileFilters py columns [(joiner.name, groupText items)] params)
      (compileAstFilter py columns (Tree.group joiner items).json params) := by
  have hmatch : Matches (compileBoolGroup py columns maxBoolDepth joiner (groupText items) params)
      (compileAstBoolGroup py columns maxBoolDepth joiner (.list (treesJson items)) params) :=
    boolGroup_matches hplain maxBoolDepth joiner (trees_match items hplain hread) params
  rw [compileFilters_group, compileAstFilter, compileAstNode_group]
  generalize compileBoolGroup py columns maxBoolDepth joiner (groupText items) params = r at hmatch ⊢
  generalize compileAstBoolGroup py columns maxBoolDepth joiner (.list (treesJson items)) params = s at hmatch ⊢
  cases hmatch with
  | fail hcode => exact .fail hcode
  | @compile c d params hsame =>
    refine .compile fun atoms => ?_
    have hwritten : [c].filter (fun c => c.text ≠ []) = [c] := by simp [hsame.left]
    rw [hwritten, ← hsame.truth]
    exact conj_true (c.truth atoms)

/-- Conversions that keep a text, unless it is empty. -/
def textPython : Python Text :=
  let keep (s : Text) : Option Text := if s = [] then none else some s
  { repr := fun s => ['\''] ++ s ++ ['\'']
    decimal := keep
    int := keep
    float := keep
    dateFromIso := keep
    datetimeFromIso := keep
    uuid := keep
    redump := keep
    dumps := fun _ => []
    str := fun _ => [] }

def docColumns : ColumnMeta := columnMeta textPython
  [.dict [("name", .str "data"), ("type", .str "json")], .dict [("name", .str "pages"), ("type", .str "int")]]

def pagesIn : Condition := ⟨"pages".toList, 1, "IN".toList, .texts ["1".toList, "2".toList]⟩

def titleLike : Condition := ⟨"data->>title".toList, 2, "ilike".toList, .text "a*".toList⟩

theorem nested_filters_agree :
    Agree (compileFilters textPython docColumns
        [(Joiner.or.name, groupText [.condition pagesIn, .group .and [.condition titleLike]])] [])
      (compileAstFilter textPython docColumns
        (Tree.group .or [.condition pagesIn, .group .and [.condition titleLike]]).json []) := by
  refine filters_agree textPython docColumns .or [.condition pagesIn, .group .and [.condition titleLike]]
    ⟨?_, ⟨?_, trivial⟩, trivial⟩ ⟨?_, ⟨?_, trivial⟩, trivial⟩ []
  · exact ⟨⟨by decide, by decide⟩, ⟨by decide, by decide⟩, by
      rintro s hs
      rcases List.mem_pair.mp hs with rfl | rfl <;> exact ⟨by decide, by decide⟩⟩
  · exact ⟨⟨by decide, by decide⟩, ⟨by decide, by decide⟩, ⟨by decide, by decide⟩⟩
  · exact ⟨by decide, by decide, by decide, by decide, (by rintro s ⟨⟩), (by rintro ss ⟨⟩; decide)⟩
  · exact ⟨by decide, by decide, by decide, by decide, (by rintro s ⟨⟩; decide), (by rintro ss ⟨⟩)⟩

/-- A JSON query of one condition fails as the condition does. -/
theorem failCode_single (c : Condition) (params : List (Param V)) :
    failCode (compileAstFilter py columns (Tree.group .and [.condition c]).json params) =
      failCode (compileAstCondition py columns c.fields params) := by
  rw [compileAstFilter, compileAstNode_group, maxBoolDepth, compileAstBoolGroup]
  have hnode (group : Joiner → Value → List (Param V) → Except RowError (Compiled V)) :
      compileAstNode py columns group c.json params = compileAstCondition py columns c.fields params := rfl
  simp only [treesJson, Tree.json, compileEach, hnode]
  cases h : compileAstCondition py columns c.fields params with
  | error e => rfl
  | ok out =>
    have hwritten : [out.1].filter (fun c => c.text ≠ []) = [out.1] := by simp [compileAstCondition_written h]
    simp only [ok_bind, pure, Except.pure, hwritten]
    rfl

/-- The condition in a group of its own, in a query string and in a JSON query. -/
def AgreeAlone (c : Condition) : Prop :=
  Agree (compileFilters textPython docColumns [(Joiner.and.name, groupText [.condition c])] [])
    (compileAstFilter textPython docColumns (Tree.group .and [.condition c]).json [])

theorem not_agreeAlone {c : Condition} (code code' : Option Code)
    (hquery : failCode (compileFilters textPython docColumns [(Joiner.and.name, groupText [.condition c])] []) = code)
    (hast : failCode (compileAstCondition textPython docColumns c.fields []) = code') (h : code ≠ code') :
    ¬ AgreeAlone c := by
  intro hagree
  have hcodes := hagree.failCode
  rw [failCode_single, hquery, hast] at hcodes
  exact h hcodes

def dottedPath : Condition := ⟨"data->>a.b".toList, 0, "eq".toList, .text "x".toList⟩

def noPages : Condition := ⟨"pages".toList, 0, "in".toList, .texts []⟩

def dottedOperator : Condition := ⟨"pages".toList, 0, "eq.1".toList, .text "2".toList⟩

def bareNot : Condition := ⟨"pages".toList, 0, "not".toList, .text "eq.1".toList⟩

def noOperator : Condition := ⟨"pages".toList, 0, [], .text "1".toList⟩

def pages : Operand Text := ⟨"pages".toList, [], "int".toList⟩

/-- A dot in the path or in the operator, an empty list, `not` as the operator itself, and no operator. -/
theorem unreadable_conditions_disagree : [dottedPath, noPages, dottedOperator, bareNot, noOperator].Forall
    fun c => (Tree.group .and [.condition c]).All Condition.Plain ∧ ¬ AgreeAlone c := by
  have hpath : failCode (compileAstCondition textPython docColumns dottedPath.fields []) = none := by
    rw [compileAstCondition_nots (by decide) (by decide) (by decide)]
    decide
  have hempty : failCode (compileAstCondition textPython docColumns noPages.fields []) = none := by
    rw [compileAstCondition_nots (by decide) (by decide) (by decide)]
    decide
  have hdotted : failCode (compileAstCondition textPython docColumns dottedOperator.fields []) = some .invalidOperator := by
    change failCode (compileAstOperator textPython pages "eq.1".toList dottedOperator.filling.json []) = _
    unfold compileAstOperator
    rw [dif_neg (by decide), if_neg (by decide)]
    decide
  have hbare : failCode (compileAstCondition textPython docColumns bareNot.fields []) = some .invalidArgument := by
    change failCode (compileAstOperator textPython pages "not".toList (.str (String.ofList "eq.1".toList)) []) = _
    unfold compileAstOperator
    rw [dif_neg (by decide), if_pos rfl]
    rfl
  have hnone : failCode (compileAstCondition textPython docColumns noOperator.fields []) = some .invalidArgument := rfl
  refine ⟨⟨?_, ?_⟩, ⟨?_, ?_⟩, ⟨?_, ?_⟩, ⟨?_, ?_⟩, ⟨?_, ?_⟩⟩
  · exact ⟨⟨⟨by decide, by decide⟩, ⟨by decide, by decide⟩, ⟨by decide, by decide⟩⟩, trivial⟩
  · exact not_agreeAlone (some .invalidOperator) none (by decide +kernel) hpath (by decide)
  · exact ⟨⟨⟨by decide, by decide⟩, ⟨by decide, by decide⟩, by simp [noPages, Filling.All]⟩, trivial⟩
  · exact not_agreeAlone (some .invalidArgument) none (by decide +kernel) hempty (by decide)
  · exact ⟨⟨⟨by decide, by decide⟩, ⟨by decide, by decide⟩, ⟨by decide, by decide⟩⟩, trivial⟩
  · exact not_agreeAlone none (some .invalidOperator) (by decide +kernel) hdotted (by decide)
  · exact ⟨⟨⟨by decide, by decide⟩, ⟨by decide, by decide⟩, ⟨by decide, by decide⟩⟩, trivial⟩
  · exact not_agreeAlone none (some .invalidArgument) (by decide +kernel) hbare (by decide)
  · exact ⟨⟨⟨by decide, by decide⟩, ⟨by decide, by decide⟩, ⟨by decide, by decide⟩⟩, trivial⟩
  · exact not_agreeAlone (some .invalidOperator) (some .invalidArgument) (by decide +kernel) hnone (by decide)

end Akb.RowQuery
