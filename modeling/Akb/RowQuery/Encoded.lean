import Akb.RowQuery.Ast
import Akb.RowQuery.QueryString

/-! Filter trees, the two ways to write one, and how the text of a tree comes apart. -/
namespace Akb.RowQuery
open Akb.Library
open Akb.Library.Json (Value)

/-- What a condition compares with: a text, or the texts of `in`. -/
inductive Filling where
  | text (s : Text)
  | texts (ss : List Text)
  deriving DecidableEq

structure Condition where
  column : Text
  /-- How often `not.` stands in front of the operator. -/
  nots : Nat
  operator : Text
  filling : Filling
  deriving DecidableEq

inductive Tree where
  | condition (c : Condition)
  | group (joiner : Joiner) (items : List Tree)

/-! ### As a text -/

def notPrefixes (n : Nat) : Text := (List.replicate n notPrefix).flatten

def Filling.part : Filling → Text
  | .text s => s
  | .texts ss => '(' :: ([','].intercalate ss ++ [')'])

/-- The condition behind its column. -/
def Condition.opValue (c : Condition) : Text := notPrefixes c.nots ++ (c.operator ++ '.' :: c.filling.part)

def Condition.part (c : Condition) : Text := c.column ++ '.' :: c.opValue

mutual
def Tree.part : Tree → Text
  | .condition c => c.part
  | .group joiner items => joiner.name ++ ('(' :: ([','].intercalate (treeParts items) ++ [')']))

def treeParts : List Tree → List Text
  | [] => []
  | t :: items => t.part :: treeParts items
end

/-- The items of a group, in parentheses and with commas between them. -/
def groupText (items : List Tree) : Text := '(' :: ([','].intercalate (treeParts items) ++ [')'])

/-! ### As JSON -/

def Joiner.key : Joiner → String
  | .or => "or"
  | .and => "and"

def Filling.json : Filling → Value
  | .text s => .str (String.ofList s)
  | .texts ss => .list (ss.map (fun s => .str (String.ofList s)))

def Condition.json (c : Condition) : Value :=
  .dict [("col", .str (String.ofList c.column)), ("op", .str (String.ofList (notPrefixes c.nots ++ c.operator))),
    ("val", c.filling.json)]

mutual
def Tree.json : Tree → Value
  | .condition c => c.json
  | .group joiner items => .dict [(joiner.key, .list (treesJson items))]

def treesJson : List Tree → List Value
  | [] => []
  | t :: items => t.json :: treesJson items
end

/-! ### The trees that are written so -/

def marks : List Char := [',', '(', ')', '\x7b', '\x7d', '"', '\'']

/-- No comma, parenthesis, brace or quote, and no blank at either end. -/
structure Plain (s : Text) : Prop where
  unmarked : ∀ c ∈ s, c ∉ marks
  ends : PyText.strip s = s

def Filling.All (p : Text → Prop) : Filling → Prop
  | .text s => p s
  | .texts ss => ∀ s ∈ ss, p s

def Condition.Plain (c : Condition) : Prop :=
  RowQuery.Plain c.column ∧ RowQuery.Plain c.operator ∧ c.filling.All RowQuery.Plain

mutual
/-- Every condition of the tree satisfies `p`. -/
def Tree.All (p : Condition → Prop) : Tree → Prop
  | .condition c => p c
  | .group _ items => treesAll p items

def treesAll (p : Condition → Prop) : List Tree → Prop
  | [] => True
  | t :: items => t.All p ∧ treesAll p items
end

/-- A condition that both readings take apart in the same places. -/
structure Condition.Readable (c : Condition) : Prop where
  column : '.' ∉ c.column
  operator : '.' ∉ c.operator
  named : c.operator ≠ [] ∨ c.nots ≠ 0
  bare : PyText.lower c.operator ≠ "not".toList
  /-- `in` and no other operator takes a list, and not an empty one. -/
  takes : ∀ s, c.filling = .text s → PyText.lower c.operator ≠ "in".toList
  lists : ∀ ss, c.filling = .texts ss → PyText.lower c.operator = "in".toList ∧ ss ≠ []

/-! ### How a text comes apart -/

/-- The text is passed over at any depth of parentheses. -/
def Sealed (s : Text) : Prop := ∀ d, TopLevel.Leads Depth.step Depth.cut (d, 0) s (d, 0)

/-- The text is passed over within parentheses. -/
def Enclosed (s : Text) : Prop := ∀ d, TopLevel.Leads Depth.step Depth.cut (d + 1, 0) s (d + 1, 0)

theorem sealed_unmarked {s : Text} (h : ∀ c ∈ s, c ∉ marks) : Sealed s := by
  intro d
  refine TopLevel.leads_still fun c hc => ?_
  have hmarks := h c hc
  simp only [marks, List.mem_cons, List.not_mem_nil, or_false, not_or] at hmarks
  obtain ⟨hcomma, hopen, hclose, hbrace, hend, -, -⟩ := hmarks
  constructor
  · simp [Depth.step, hopen, hclose, hbrace, hend]
  · simp [Depth.cut, hcomma]

theorem Sealed.append {s t : Text} (hs : Sealed s) (ht : Sealed t) : Sealed (s ++ t) := fun d => (hs d).append (ht d)

theorem sealed_dot {s : Text} (hs : Sealed s) : Sealed ('.' :: s) := fun d => .cons rfl (hs d)

theorem Sealed.enclosed {s : Text} (h : Sealed s) : Enclosed s := fun d => h (d + 1)

theorem enclosed_joined {ss : List Text} (h : ∀ s ∈ ss, Enclosed s) : Enclosed ([','].intercalate ss) :=
  fun d => TopLevel.leads_joined rfl rfl fun s hs => h s hs d

theorem Enclosed.sealed {s : Text} (h : Enclosed s) : Sealed ('(' :: (s ++ [')'])) :=
  fun d => .cons rfl ((h d).append (.cons rfl rfl))

/-- Joined texts come apart at the commas between them. -/
theorem splitTopLevel_joined {ss : List Text} (hne : ss ≠ []) (h : ∀ s ∈ ss, Sealed s) :
    splitTopLevel ([','].intercalate ss) = ss :=
  TopLevel.pieces_joined rfl rfl hne fun s hs => h s hs 0

/-! ### A text in parentheses -/

theorem getLast?_parens (s : Text) : ('(' :: (s ++ [')'])).getLast? = some ')' := by
  rw [← List.cons_append, List.getLast?_concat]

theorem inParens_parens (s : Text) : inParens ('(' :: (s ++ [')'])) = true := by
  rw [inParens, getLast?_parens]
  rfl

theorem inner_parens (s : Text) : inner ('(' :: (s ++ [')'])) = s := List.dropLast_concat

theorem strip_parens (s : Text) : PyText.strip ('(' :: (s ++ [')'])) = '(' :: (s ++ [')']) := by
  refine PyText.strip_eq_self (fun c hc => ?_) (fun c hc => ?_)
  · cases hc
    rfl
  · rw [getLast?_parens] at hc
    cases hc
    rfl

/-- Stripped texts on both sides of a mark leave nothing to strip. -/
theorem strip_around {a b : Text} {m : Char} (ha : PyText.strip a = a) (hm : PyText.isSpace m = false)
    (hb : PyText.strip b = b) : PyText.strip (a ++ m :: b) = a ++ m :: b := by
  refine PyText.strip_eq_self (fun c hc => ?_) (fun c hc => ?_)
  · cases a with
    | nil =>
      cases hc
      exact hm
    | cons d a => exact PyText.head_of_strip ha c hc
  · rw [List.getLast?_append, List.getLast?_cons, Option.some_or, Option.mem_some_iff] at hc
    cases hlast : b.getLast? with
    | none =>
      rw [hlast] at hc
      exact hc ▸ hm
    | some d =>
      rw [hlast] at hc
      exact hc ▸ PyText.last_of_strip hb d hlast

/-! ### The dots of a condition -/

theorem splitBoolCondition_dot {a : Text} (ha : '.' ∉ a) (b : Text) :
    splitBoolCondition (a ++ '.' :: b) = some (a, b) := by
  have htake : (a ++ '.' :: b).takeWhile (· ≠ '.') = a := by
    rw [List.takeWhile_append_of_pos fun c hc => by simpa using ne_of_mem_of_not_mem hc ha]
    simp
  have hdrop : (a ++ '.' :: b).dropWhile (· ≠ '.') = '.' :: b := by
    rw [List.dropWhile_append_of_pos fun c hc => by simpa using ne_of_mem_of_not_mem hc ha]
    simp
  rw [splitBoolCondition, if_pos (by simp), htake, hdrop, List.tail_cons]

theorem splitOperator_dot {a : Text} (ha : '.' ∉ a) (b : Text) :
    splitOperator (a ++ '.' :: b) = some (PyText.lower a, b) := by
  rw [splitOperator, splitBoolCondition_dot ha]
  rfl

end Akb.RowQuery
