import Akb.Sql.PgLexer

/-! The statements of PostgreSQL, as far as they decide which of their parts change rows:
a main statement under a list of common table expressions, each of them a statement again. -/
namespace Akb.Sql.Pg

/-- A `SELECT` with an `INTO` clause fills a table, so it is a verb of its own. -/
inductive Verb where
  | select
  | selectInto
  | values
  | table
  | insert
  | update
  | delete
  | merge
  deriving DecidableEq

def Verb.keyword : Verb → List Char
  | .select => "select".toList
  | .selectInto => "select".toList
  | .values => "values".toList
  | .table => "table".toList
  | .insert => "insert".toList
  | .update => "update".toList
  | .delete => "delete".toList
  | .merge => "merge".toList

/-- PostgreSQL 16 takes these under a name. -/
def Verb.inCte : Verb → Bool
  | .select | .values | .table | .insert | .update | .delete => true
  | .selectInto | .merge => false

/-- These may stand in parentheses. -/
def Verb.selects : Verb → Bool
  | .select | .selectInto | .values | .table => true
  | .insert | .update | .delete | .merge => false

def Verb.modifies : Verb → Bool
  | .select | .values | .table => false
  | .selectInto | .insert | .update | .delete | .merge => true

inductive Query where
  | node (ctes : List Query) (verb : Verb) (clauses : List Item)

def Query.ctes : Query → List Query
  | .node ctes _ _ => ctes

def Query.verb : Query → Verb
  | .node _ verb _ => verb

mutual
/-- Some part of the statement changes rows. -/
def Query.modifying : Query → Bool
  | .node ctes verb _ => verb.modifies || anyModifying ctes

def anyModifying : List Query → Bool
  | [] => false
  | q :: qs => q.modifying || anyModifying qs
end

mutual
/-- The rows a statement changes when each of its parts that modify changes as many as
`affected` says. All of them run, and to completion, whatever the main statement reads. -/
def Query.rowsChanged (affected : Query → Nat) : Query → Nat
  | .node ctes verb clauses =>
    (if verb.modifies then affected (.node ctes verb clauses) else 0) + allRowsChanged affected ctes

def allRowsChanged (affected : Query → Nat) : List Query → Nat
  | [] => 0
  | q :: qs => q.rowsChanged affected + allRowsChanged affected qs
end

mutual
theorem Query.rowsChanged_of_not_modifying (affected : Query → Nat) :
    ∀ q : Query, q.modifying = false → q.rowsChanged affected = 0
  | .node ctes verb clauses, h => by
    simp only [Query.modifying, Bool.or_eq_false_iff] at h
    rw [Query.rowsChanged, h.1, allRowsChanged_of_not_modifying affected ctes h.2]
    rfl

theorem allRowsChanged_of_not_modifying (affected : Query → Nat) :
    ∀ qs : List Query, anyModifying qs = false → allRowsChanged affected qs = 0
  | [], _ => rfl
  | q :: qs, h => by
    simp only [anyModifying, Bool.or_eq_false_iff] at h
    rw [allRowsChanged, q.rowsChanged_of_not_modifying affected h.1,
      allRowsChanged_of_not_modifying affected qs h.2]
end

mutual
theorem Query.rowsChanged_of_modifying : ∀ q : Query, q.modifying → 0 < q.rowsChanged (fun _ => 1)
  | .node ctes verb clauses, h => by
    simp only [Query.modifying, Bool.or_eq_true] at h
    rw [Query.rowsChanged]
    rcases h with h | h
    · rw [if_pos h]
      omega
    · have := allRowsChanged_of_modifying ctes h
      omega

theorem allRowsChanged_of_modifying : ∀ qs : List Query, anyModifying qs → 0 < allRowsChanged (fun _ => 1) qs
  | q :: qs, h => by
    simp only [anyModifying, Bool.or_eq_true] at h
    rw [allRowsChanged]
    rcases h with h | h
    · have := q.rowsChanged_of_modifying h
      omega
    · have := allRowsChanged_of_modifying qs h
      omega
end

/-- A statement changes no row, whatever its parts find, exactly when none of them modifies. -/
theorem Query.rowsChanged_eq_zero_iff (q : Query) :
    (∀ affected, q.rowsChanged affected = 0) ↔ q.modifying = false := by
  constructor
  · intro h
    by_contra hq
    have hpos := q.rowsChanged_of_modifying (by simpa using hq)
    have hzero := h (fun _ => 1)
    omega
  · exact fun h affected => q.rowsChanged_of_not_modifying affected h

/-- Keywords are read without regard to case. -/
def IsKeyword (word keyword : List Char) : Prop := word.map Char.toLower = keyword

instance (word keyword : List Char) : Decidable (IsKeyword word keyword) := inferInstanceAs (Decidable (_ = _))

/-- Parentheses that match, and no separator among them. -/
def balanced : Nat → List Item → Bool
  | depth, [] => depth == 0
  | _, .separator :: _ => false
  | depth, .char '(' :: items => balanced (depth + 1) items
  | 0, .char ')' :: _ => false
  | depth + 1, .char ')' :: items => balanced depth items
  | depth, _ :: items => balanced depth items

/-- What follows is a label or the name of a column, even where it is a keyword. -/
def Item.beforeLabel : Item → Bool
  | .char c => c == '.'
  | .word text => text.map Char.toLower == "as".toList
  | _ => false

/-- An `INTO` outside all parentheses; the item before the rest is told. -/
def hasInto : Nat → Item → List Item → Bool
  | _, _, [] => false
  | depth, _, .char '(' :: items => hasInto (depth + 1) (.char '(') items
  | depth, _, .char ')' :: items => hasInto (depth - 1) (.char ')') items
  | depth, before, .word text :: items =>
    (depth == 0 && !before.beforeLabel && text.map Char.toLower == "into".toList) ||
      hasInto depth (.word text) items
  | depth, _, item :: items => hasInto depth item items

def Verb.Heads (verb : Verb) (word : List Char) (clauses : List Item) : Prop :=
  IsKeyword word verb.keyword ∧ balanced 0 clauses ∧
    match verb with
    | .select => hasInto 0 (.word word) clauses = false
    | .selectInto => hasInto 0 (.word word) clauses = true
    | _ => True

/-- The item is this keyword. -/
def Item.Is (item : Item) (keyword : String) : Prop := ∃ text, item = .word text ∧ IsKeyword text keyword.toList

/-- Names with commas between them. -/
inductive Names : List Item → Prop
  | last {name : Item} (h : name.name?.isSome) : Names [name]
  | next {name : Item} {rest : List Item} (h : name.name?.isSome) (hrest : Names rest) :
      Names (name :: .char ',' :: rest)

/-- The columns of a common table expression. -/
inductive Columns : List Item → Prop
  | none : Columns []
  | listed {names : List Item} (h : Names names) : Columns (.char '(' :: (names ++ [.char ')']))

/-- `MATERIALIZED` or `NOT MATERIALIZED`, or neither. -/
inductive Materialization : List Item → Prop
  | none : Materialization []
  | positive {keyword : Item} (h : keyword.Is "materialized") : Materialization [keyword]
  | negative {no keyword : Item} (hno : no.Is "not") (h : keyword.Is "materialized") : Materialization [no, keyword]

/-- `SEARCH DEPTH FIRST BY names SET name`. -/
inductive Search : List Item → Prop
  | none : Search []
  | search {search order first by' set name : Item} {names : List Item} (hsearch : search.Is "search")
      (horder : order.Is "depth" ∨ order.Is "breadth") (hfirst : first.Is "first") (hby : by'.Is "by")
      (hnames : Names names) (hset : set.Is "set") (hname : name.name?.isSome) :
      Search (search :: order :: first :: by' :: (names ++ [set, name]))

/-- `TO value DEFAULT value`. -/
inductive CycleMark : List Item → Prop
  | none : CycleMark []
  | mark {to' default : Item} {value value' : List Item} (hto : to'.Is "to") (hdefault : default.Is "default")
      (hvalue : value ≠ [] ∧ ∀ item ∈ value, ¬ item.Is "default")
      (hvalue' : value' ≠ [] ∧ ∀ item ∈ value', ¬ item.Is "using") :
      CycleMark (to' :: (value ++ default :: value'))

/-- `CYCLE names SET name mark USING name`. -/
inductive Cycle : List Item → Prop
  | none : Cycle []
  | cycle {cycle set name using' path : Item} {names mark : List Item} (hcycle : cycle.Is "cycle")
      (hnames : Names names) (hset : set.Is "set") (hname : name.name?.isSome) (hmark : CycleMark mark)
      (husing : using'.Is "using") (hpath : path.name?.isSome) :
      Cycle (cycle :: (names ++ set :: name :: (mark ++ [using', path])))

mutual
/-- The items of a statement. What the clauses of a part say is not looked into: below
the top-level list PostgreSQL refuses every statement that changes rows. -/
inductive Parses : List Item → Query → Prop
  | bare {verb : Verb} {word : List Char} {clauses : List Item} (h : verb.Heads word clauses) :
      Parses (.word word :: clauses) (.node [] verb clauses)
  | under {ctes : List Query} {verb : Verb} {start : List Char} {recursive items main clauses : List Item}
      (hstart : IsKeyword start "with".toList)
      (hrecursive : recursive = [] ∨ ∃ keyword, recursive = [keyword] ∧ keyword.Is "recursive")
      (hctes : ParsesCtes items ctes) (h : Parses main (.node [] verb clauses)) :
      Parses (.word start :: (recursive ++ (items ++ main))) (.node ctes verb clauses)
  | parens {q : Query} {body tail : List Item} (h : Parses body q) (hselects : q.verb.selects)
      (htail : balanced 0 tail) : Parses (.char '(' :: (body ++ .char ')' :: tail)) q

inductive ParsesCtes : List Item → List Query → Prop
  | last {items : List Item} {q : Query} (h : ParsesCte items q) : ParsesCtes items [q]
  | next {items rest : List Item} {q : Query} {qs : List Query} (h : ParsesCte items q)
      (hrest : ParsesCtes rest qs) :
      ParsesCtes (items ++ .char ',' :: rest) (q :: qs)

/-- `name (columns) AS MATERIALIZED (statement) search cycle`. -/
inductive ParsesCte : List Item → Query → Prop
  | cte {name as : Item} {q : Query} {columns materialization body search cycle : List Item}
      (hname : name.name?.isSome) (hcolumns : Columns columns) (has : as.Is "as")
      (hmaterialization : Materialization materialization) (h : Parses body q) (hverb : q.verb.inCte)
      (hnested : anyModifying q.ctes = false) (hsearch : Search search) (hcycle : Cycle cycle) :
      ParsesCte (name :: (columns ++ as ::
        (materialization ++ .char '(' :: (body ++ .char ')' :: (search ++ cycle))))) q
end

/-- The tokens of a text. -/
inductive Tokens : Mode → List Char → List Item → Prop
  | done {m : Mode} : Tokens m [] []
  | blank {m : Mode} {item : Item} {token rest : List Char} {items : List Item} (h : Reads m item token rest)
      (hblank : ¬ item.IsToken) (hrest : Tokens (m.next item) rest items) : Tokens m (token ++ rest) items
  | token {m : Mode} {item : Item} {token rest : List Char} {items : List Item} (h : Reads m item token rest)
      (htoken : item.IsToken) (hrest : Tokens (m.next item) rest items) : Tokens m (token ++ rest) (item :: items)

/-- Blanks and comments come before the first token. -/
theorem Tokens.first {m : Mode} {text : List Char} {item : Item} {items : List Item}
    (h : Tokens m text (item :: items)) : ∃ m' token rest,
      Lexes (fun item _ => ¬ item.IsToken) m text m' (token ++ rest) ∧ Reads m' item token rest := by
  generalize hall : item :: items = all at h
  induction h with
  | done => cases hall
  | blank h hblank _ ih =>
    obtain ⟨m', token, rest, hlex, hread⟩ := ih hall
    exact ⟨m', token, rest, .step h hblank hlex, hread⟩
  | token h _ _ _ =>
    cases hall
    exact ⟨_, _, _, .done, h⟩

/-- A text that PostgreSQL executes as one statement; separators may end it. -/
def IsStatement (text : List Char) (q : Query) : Prop :=
  ∃ items n, Tokens .plain text (items ++ List.replicate n .separator) ∧ Parses items q

/-- Whether the first keyword of a statement is `SELECT` or `WITH`. -/
def Query.startsAsRead : Query → Bool
  | .node ctes verb _ => !ctes.isEmpty || verb.keyword == "select".toList

/-- A statement begins with one of the keywords, or with a parenthesis. -/
theorem Parses.head {items : List Item} {q : Query} (h : Parses items q) :
    (∃ word rest, items = .word word :: rest ∧
      ((q.startsAsRead ∧ (IsKeyword word "select".toList ∨ IsKeyword word "with".toList)) ∨
        (q.startsAsRead = false ∧ IsKeyword word q.verb.keyword))) ∨ ∃ rest, items = .char '(' :: rest := by
  cases h with
  | @bare verb word clauses h =>
    refine Or.inl ⟨word, clauses, rfl, ?_⟩
    by_cases hv : verb.keyword = "select".toList
    · exact Or.inl ⟨by simp [Query.startsAsRead, hv], Or.inl (h.1.trans hv)⟩
    · refine Or.inr ⟨?_, h.1⟩
      simp only [Query.startsAsRead, List.isEmpty_nil, Bool.not_true, Bool.false_or, beq_eq_false_iff_ne]
      exact hv
  | @under ctes verb start recursive items main clauses hstart _ hctes _ =>
    refine Or.inl ⟨start, _, rfl, Or.inl ⟨?_, Or.inr hstart⟩⟩
    cases hctes <;> rfl
  | parens => exact Or.inr ⟨_, rfl⟩

end Akb.Sql.Pg
