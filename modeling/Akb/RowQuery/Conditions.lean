import Akb.RowQuery.Encoded

/-! A condition compiles to the same clause in both of its writings. -/
namespace Akb.RowQuery
open Akb.Library
open Akb.Library.Json (Value)

variable {V : Type} {py : Python V} {columns : ColumnMeta} {operand : Operand V} {params : List (Param V)}

/-! ### Prefixes -/

theorem notPrefixes_succ (n : Nat) (s : Text) : notPrefixes (n + 1) ++ s = "not".toList ++ '.' :: (notPrefixes n ++ s) := by
  simp [notPrefixes, List.replicate_succ, notPrefix]

theorem lower_notPrefixes (n : Nat) : PyText.lower (notPrefixes n) = notPrefixes n := by
  have hword : ∀ c ∈ notPrefix, (PyText.asciiLowercases.lookup c).getD [c.toLower] = [c] := by decide
  have hall : ∀ c ∈ notPrefixes n, (PyText.asciiLowercases.lookup c).getD [c.toLower] = [c] := by
    intro c hc
    obtain ⟨word, hmem, hcword⟩ := List.mem_flatten.mp hc
    rw [List.eq_of_mem_replicate hmem] at hcword
    exact hword c hcword
  rw [PyText.lower, List.flatMap_congr hall, List.flatMap_singleton']

theorem dot_of_toLower {c : Char} (h : c.toLower = '.') : c = '.' := by
  cases hc : c.isUpper with
  | false => rwa [PyText.toLower_of_not_isUpper hc] at h
  | true =>
    have hval := PyText.val_toLower hc
    have hrange : c.val ≥ 'A'.val ∧ c.val ≤ 'Z'.val := by simpa [PyText.isUpper_def] using hc
    rw [h] at hval
    have hnat := congrArg UInt32.toNat hval
    have hge := UInt32.le_iff_toNat_le.mp hrange.1
    have hle := UInt32.le_iff_toNat_le.mp hrange.2
    simp only [UInt32.toNat_add] at hnat
    simp at hge hle hnat
    omega

/-- A dot comes from a dot only. -/
theorem dot_lower {s : Text} (h : '.' ∉ s) : '.' ∉ PyText.lower s := by
  rw [PyText.lower, List.mem_flatMap]
  rintro ⟨c, hc, hdot⟩
  cases hlook : PyText.asciiLowercases.lookup c with
  | some d =>
    have hspecial : ∀ p ∈ PyText.asciiLowercases, '.' ∉ p.2 := by decide
    obtain ⟨front, back, hsplit, -⟩ := List.lookup_eq_some_iff.mp hlook
    rw [hlook] at hdot
    exact hspecial (c, d) (by simp [hsplit]) hdot
  | none =>
    rw [hlook, Option.getD_none, List.mem_singleton] at hdot
    exact h (dot_of_toLower hdot.symm ▸ hc)

/-- The clause under `n` negations. -/
def negated : Nat → Except RowError (Compiled V) → Except RowError (Compiled V)
  | 0, r => r
  | n + 1, r => do
    let (inner, params) ← negated n r
    return (.neg inner, params)

theorem compileOperator_nots (py : Python V) (operand : Operand V) (params : List (Param V)) {operator : Text}
    (hdot : '.' ∉ operator) (hbare : PyText.lower operator ≠ "not".toList) (n : Nat) (value : Text) :
    ∃ first rest, splitOperator (notPrefixes n ++ (operator ++ '.' :: value)) = some (first, rest) ∧
      compileOperator py operand first rest params =
        negated n (compilePlain py operand (PyText.lower operator) value params) := by
  induction n with
  | zero =>
    refine ⟨_, _, splitOperator_dot hdot value, ?_⟩
    rw [compileOperator, if_neg hbare]
    rfl
  | succ n ih =>
    obtain ⟨first, rest, hsplit, hcompile⟩ := ih
    rw [notPrefixes_succ]
    refine ⟨_, _, splitOperator_dot (by decide) _, ?_⟩
    have hnot : PyText.lower "not".toList = "not".toList := by decide
    rw [compileOperator, if_pos hnot]
    split
    · rename_i hnone
      rw [hsplit] at hnone
      cases hnone
    · rename_i op value hsome
      rw [hsplit] at hsome
      cases hsome
      rw [hcompile]
      rfl

theorem compileAstOperator_nots {operator : Text} (hdot : '.' ∉ operator)
    (hbare : PyText.lower operator ≠ "not".toList) (n : Nat) (value : Value) :
    compileAstOperator py operand (PyText.lower (notPrefixes n ++ operator)) value params =
      negated n (compileAstPlain py operand (PyText.lower operator) value params) := by
  rw [PyText.lower_append, lower_notPrefixes]
  induction n with
  | zero =>
    have hpre : ¬ notPrefix <+: PyText.lower operator := by
      intro hpre
      exact dot_lower hdot (hpre.subset (by decide))
    change compileAstOperator py operand (PyText.lower operator) value params = _
    unfold compileAstOperator
    rw [dif_neg hpre, if_neg hbare]
    rfl
  | succ n ih =>
    have hpre : notPrefixes (n + 1) ++ PyText.lower operator = notPrefix ++ (notPrefixes n ++ PyText.lower operator) := by
      rw [notPrefixes_succ]
      rfl
    rw [hpre]
    unfold compileAstOperator
    rw [dif_pos (List.prefix_append _ _), List.drop_left, ih]
    rfl

/-! ### Operators -/

theorem convertAstValue_text (s typeName : Text) :
    convertAstValue py (.str (String.ofList s)) typeName = convertValue py s typeName := by
  rw [convertAstValue, String.toList_ofList]

theorem contains_text (s : Text) (typeName : Text) (h : isJsonType typeName = true) :
    astContains py (.str (String.ofList s)) = parseContainsValue py s typeName := by
  have hjson : isJsonType "json".toList = true := by decide
  simp only [astContains, strOf, String.toList_ofList, parseContainsValue, h, hjson]

theorem compilePlain_text (s : Text) {operator : Text} (hin : operator ≠ "in".toList) :
    compilePlain py operand operator s params =
      compileAstPlain py operand operator (Filling.text s).json params := by
  have hstr : strOf py (.str (String.ofList s)) = s := String.toList_ofList
  unfold compilePlain compileAstPlain
  simp only [Filling.json, isMissing, hstr, Bool.false_eq_true, if_false, if_neg hin]
  by_cases his : operator = "is".toList
  · rw [if_pos his, if_pos his]
  rw [if_neg his, if_neg his]
  by_cases hcompare : (comparisons.lookup operator).isSome
  · rw [dif_pos hcompare, dif_pos hcompare]
    cases isPattern operator with
    | false => simp only [Bool.false_eq_true, if_false, convertAstValue_text]
    | true => simp only [if_true, convertAstValue_text]
  rw [dif_neg hcompare, dif_neg hcompare]
  by_cases hcs : operator = "cs".toList
  · rw [if_pos hcs, if_pos hcs]
    cases hjson : isJsonType operand.typeName with
    | false => simp only [parseContainsValue, hjson, refuse, if_true]; rfl
    | true =>
      rw [contains_text s operand.typeName hjson]
      rfl
  · rw [if_neg hcs, if_neg hcs]

/-- The items of `in`, joined in parentheses and taken apart again. -/
theorem parseInValues_joined {ss : List Text} (hne : ss ≠ []) (hplain : ∀ s ∈ ss, Plain s) (typeName : Text) :
    parseInValues py (Filling.texts ss).part typeName = ss.mapM (fun s => convertValue py s typeName) := by
  have hsplit := splitTopLevel_joined hne fun s hs => sealed_unmarked (hplain s hs).unmarked
  simp only [parseInValues, Filling.part, strip_parens, inParens_parens, inner_parens, hsplit, refuse,
    Bool.true_eq_false, if_false, ok_bind]
  exact mapM_congr fun s hs => by rw [(hplain s hs).ends]

theorem compilePlain_texts {ss : List Text} (hne : ss ≠ []) (hplain : ∀ s ∈ ss, Plain s) :
    compilePlain py operand "in".toList (Filling.texts ss).part params =
      compileAstPlain py operand "in".toList (Filling.texts ss).json params := by
  have his : "in".toList ≠ "is".toList := by decide
  have hcompare : ¬ (comparisons.lookup "in".toList).isSome := by decide
  unfold compilePlain compileAstPlain
  rw [if_neg his, if_neg his, dif_neg hcompare, dif_neg hcompare, if_pos rfl, if_pos rfl, parseInValues_joined hne hplain]
  have hitems : (ss.map (fun s => Value.str (String.ofList s))).mapM
      (fun item => convertAstValue py item operand.typeName) = ss.mapM (fun s => convertValue py s operand.typeName) := by
    rw [List.mapM_map]
    exact mapM_congr fun s _ => convertAstValue_text s operand.typeName
  simp only [Filling.json, hitems]

theorem compilePlain_filling {c : Condition} (hr : c.Readable) (hplain : c.Plain) :
    compilePlain py operand (PyText.lower c.operator) c.filling.part params =
      compileAstPlain py operand (PyText.lower c.operator) c.filling.json params := by
  cases hf : c.filling with
  | text s => exact compilePlain_text s (hr.takes s hf)
  | texts ss =>
    obtain ⟨hin, hne⟩ := hr.lists ss hf
    have hitems := hplain.2.2
    rw [hf] at hitems
    rw [hin]
    exact compilePlain_texts hne hitems

/-! ### Conditions -/

theorem operator_nonempty {c : Condition} (hnamed : c.operator ≠ [] ∨ c.nots ≠ 0) :
    String.ofList (notPrefixes c.nots ++ c.operator) ≠ "" := by
  intro hnil
  have hlist : notPrefixes c.nots ++ c.operator = [] := by
    rw [← String.toList_ofList (l := notPrefixes c.nots ++ c.operator), hnil]
    rfl
  obtain ⟨hnots, hop⟩ := List.append_eq_nil_iff.mp hlist
  rcases hnamed with h | h
  · exact h hop
  · obtain ⟨n, hn⟩ := Nat.exists_eq_succ_of_ne_zero h
    rw [hn, ← List.append_nil (notPrefixes _), notPrefixes_succ] at hnots
    cases hnots

/-- The fields of a condition in JSON. -/
def Condition.fields (c : Condition) : List (String × Value) :=
  [("col", .str (String.ofList c.column)), ("op", .str (String.ofList (notPrefixes c.nots ++ c.operator))),
    ("val", c.filling.json)]

theorem compileAstCondition_nots {c : Condition} (hnamed : c.operator ≠ [] ∨ c.nots ≠ 0) (hdot : '.' ∉ c.operator)
    (hbare : PyText.lower c.operator ≠ "not".toList) (params : List (Param V)) :
    compileAstCondition py columns c.fields params = (do
      let operand ← compileOperand py c.column columns
      negated c.nots (compileAstPlain py (bindOperandParams operand params).1 (PyText.lower c.operator) c.filling.json
        (bindOperandParams operand params).2)) := by
  have hop : nonemptyText "op" c.fields = some (notPrefixes c.nots ++ c.operator) := by
    have hlookup : c.fields.lookup "op" = some (.str (String.ofList (notPrefixes c.nots ++ c.operator))) := rfl
    rw [nonemptyText, hlookup]
    simp only [if_neg (operator_nonempty hnamed), String.toList_ofList]
  have hcol : compileAstOperand py columns c.fields = compileOperand py c.column columns := by
    have hlookup : c.fields.lookup "col" = some (.str (String.ofList c.column)) := rfl
    rw [compileAstOperand, hlookup]
    simp only [String.toList_ofList]
  have hval : (c.fields.lookup "val").getD .null = c.filling.json := rfl
  rw [compileAstCondition, hop, found, ok_bind, hcol, hval]
  simp only [compileAstOperator_nots hdot hbare]

theorem compileCondition_nots {c : Condition} (hdot : '.' ∉ c.operator)
    (hbare : PyText.lower c.operator ≠ "not".toList) (params : List (Param V)) :
    compileCondition py columns c.column c.opValue params = (do
      let operand ← compileOperand py c.column columns
      negated c.nots (compilePlain py (bindOperandParams operand params).1 (PyText.lower c.operator) c.filling.part
        (bindOperandParams operand params).2)) := by
  rw [compileCondition]
  refine congrArg _ (funext fun operand => ?_)
  obtain ⟨first, rest, hsplit, hcompile⟩ := compileOperator_nots py (bindOperandParams operand params).1
    (bindOperandParams operand params).2 hdot hbare c.nots c.filling.part
  simp only [Condition.opValue, hsplit, hcompile]

theorem compileCondition_eq {c : Condition} (hr : c.Readable) (hplain : c.Plain) (params : List (Param V)) :
    compileCondition py columns c.column c.opValue params = compileAstCondition py columns c.fields params := by
  rw [compileCondition_nots hr.operator hr.bare, compileAstCondition_nots hr.named hr.operator hr.bare]
  simp only [compilePlain_filling hr hplain]

/-- A name with a parenthesis does not begin a text with a dot in front of its first parenthesis. -/
theorem not_name_paren {name column rest : Text} (hname : '.' ∉ name) (hcolumn : '(' ∉ column) :
    ¬ name ++ ['('] <+: column ++ '.' :: rest := by
  induction column generalizing name with
  | nil =>
    cases name with
    | nil => simp
    | cons d name =>
      intro hpre
      obtain ⟨rfl, -⟩ := List.cons_prefix_cons.mp hpre
      exact hname List.mem_cons_self
  | cons c column ih =>
    cases name with
    | nil =>
      intro hpre
      obtain ⟨rfl, -⟩ := List.cons_prefix_cons.mp hpre
      exact hcolumn List.mem_cons_self
    | cons d name =>
      intro hpre
      obtain ⟨-, hpre⟩ := List.cons_prefix_cons.mp hpre
      exact ih (fun h => hname (List.mem_cons_of_mem _ h)) (fun h => hcolumn (List.mem_cons_of_mem _ h)) hpre

theorem nestedGroup_condition {c : Condition} (hplain : c.Plain) : nestedGroup c.part = none := by
  have hcolumn : '(' ∉ c.column := fun h => hplain.1.unmarked _ h (by decide)
  have hor : ¬ Joiner.or.name ++ ['('] <+: c.column ++ '.' :: c.opValue := not_name_paren (by decide) hcolumn
  have hand : ¬ Joiner.and.name ++ ['('] <+: c.column ++ '.' :: c.opValue := not_name_paren (by decide) hcolumn
  rw [nestedGroup, Condition.part, if_neg fun h => hor h.1, if_neg fun h => hand h.1]

theorem compilePart_condition {c : Condition} (hr : c.Readable) (hplain : c.Plain)
    (group : Joiner → Text → List (Param V) → Except RowError (Compiled V))
    (astGroup : Joiner → Value → List (Param V) → Except RowError (Compiled V)) (params : List (Param V)) :
    compilePart py columns group c.part params = compileAstNode py columns astGroup c.json params := by
  rw [compilePart, nestedGroup_condition hplain, Condition.part, splitBoolCondition_dot hr.column]
  exact compileCondition_eq hr hplain params

/-! ### The text of a condition -/

theorem strip_filling {f : Filling} (h : f.All Plain) : PyText.strip f.part = f.part := by
  cases f with
  | text s => exact h.ends
  | texts ss => exact strip_parens _

theorem sealed_filling {f : Filling} (h : f.All Plain) : Sealed f.part := by
  cases f with
  | text s => exact sealed_unmarked h.unmarked
  | texts ss => exact (enclosed_joined fun s hs => (sealed_unmarked (h s hs).unmarked).enclosed).sealed

theorem strip_condition {c : Condition} (hplain : c.Plain) : PyText.strip c.part = c.part := by
  obtain ⟨hcolumn, hoperator, hfilling⟩ := hplain
  have hopValue : ∀ n, PyText.strip (notPrefixes n ++ (c.operator ++ '.' :: c.filling.part)) =
      notPrefixes n ++ (c.operator ++ '.' :: c.filling.part) := by
    intro n
    induction n with
    | zero => exact strip_around hoperator.ends rfl (strip_filling hfilling)
    | succ n ih =>
      rw [notPrefixes_succ]
      exact strip_around (by decide) rfl ih
  exact strip_around hcolumn.ends rfl (hopValue c.nots)

theorem sealed_condition {c : Condition} (hplain : c.Plain) : Sealed c.part := by
  obtain ⟨hcolumn, hoperator, hfilling⟩ := hplain
  have hopValue : ∀ n, Sealed (notPrefixes n ++ (c.operator ++ '.' :: c.filling.part)) := by
    intro n
    induction n with
    | zero => exact (sealed_unmarked hoperator.unmarked).append (sealed_dot (sealed_filling hfilling))
    | succ n ih =>
      rw [notPrefixes_succ]
      exact (sealed_unmarked (by decide)).append (sealed_dot ih)
  exact (sealed_unmarked hcolumn.unmarked).append (sealed_dot (hopValue c.nots))

end Akb.RowQuery
