import Akb.Library.Scan

/-! The lexical rules of PostgreSQL 16, with standard conforming strings on, as far as
they decide where a token ends. -/
namespace Akb.Sql.Pg
open Akb.Library

def isSpace (c : Char) : Bool := [' ', '\t', '\n', '\r', '\x0b', '\x0c'].contains c

def isNewline (c : Char) : Bool := c == '\n' || c == '\r'

/-- Every character beyond ASCII may begin an identifier. -/
def isIdentStart (c : Char) : Bool := c.isAlpha || c == '_' || decide (128 ≤ c.toNat)

def isTagPart (c : Char) : Bool := isIdentStart c || c.isDigit

def isIdentCont (c : Char) : Bool := isTagPart c || c == '$'

/-- The name of a dollar quote, possibly empty. -/
def IsTagName : List Char → Prop
  | [] => True
  | c :: name => isIdentStart c ∧ ∀ d ∈ name, isTagPart d

/-- A block comment after its opening, to its own close: comments nest. -/
inductive CommentBody : List Char → Prop
  | close : CommentBody ['*', '/']
  | nest {inner rest : List Char} (hinner : CommentBody inner) (hrest : CommentBody rest) :
      CommentBody ('/' :: '*' :: (inner ++ rest))
  | char {c : Char} {rest : List Char} (hclose : ¬ ['*', '/'] <+: c :: rest) (hopen : ¬ ['/', '*'] <+: c :: rest)
      (h : CommentBody rest) : CommentBody (c :: rest)

/-- The body of an escape string, without its closing quote. -/
inductive EscapeBody : List Char → Prop
  | nil : EscapeBody []
  | escape {c : Char} {body : List Char} (h : EscapeBody body) : EscapeBody ('\\' :: c :: body)
  | pair {body : List Char} (h : EscapeBody body) : EscapeBody ('\'' :: '\'' :: body)
  | char {c : Char} {body : List Char} (hc : c ≠ '\\' ∧ c ≠ '\'') (h : EscapeBody body) : EscapeBody (c :: body)

inductive Item where
  | space (c : Char)
  | lineComment
  | blockComment (body : List Char)
  | string
  | escapeString (body : List Char)
  | dollarString (name : List Char)
  | word (text : List Char)
  | quotedIdent (body : List Char)
  | unicodeIdent
  | number
  | separator
  | char (c : Char)
  deriving DecidableEq

def Item.IsToken : Item → Prop
  | .space _ => False
  | .lineComment => False
  | .blockComment _ => False
  | _ => True

/-- One doubled quote of a quoted identifier stands for one quote. -/
def unpair : List Char → List Char
  | '"' :: '"' :: s => '"' :: unpair s
  | c :: s => c :: unpair s
  | [] => []

/-- Words are folded to lower case, quoted identifiers are not. -/
def Item.name? : Item → Option (List Char)
  | .word text => some (text.map Char.toLower)
  | .quotedIdent body => some (unpair body)
  | _ => none

/-- What may stand before the quote of a string that has no backslash escapes. A
doubled quote in a bit string begins another string, here read as one with it. -/
def stringPrefixes : List (List Char) :=
  [[], ['b'], ['B'], ['x'], ['X'], ['n'], ['N'], ['u', '&'], ['U', '&']]

/-- A word that opens a string instead, as `e'` and `u&"` do. -/
def opensQuote (text rest : List Char) : Prop :=
  (text.map Char.toLower ∈ [['e'], ['b'], ['x'], ['n']] ∧ rest.head? = some '\'') ∨
    (text.map Char.toLower = ['u'] ∧ (['&', '\''] <+: rest ∨ ['&', '"'] <+: rest))

instance (text rest : List Char) : Decidable (opensQuote text rest) :=
  inferInstanceAs (Decidable ((_ ∧ _) ∨ (_ ∧ (_ ∨ _))))

/-- Whether a string quote now would continue an escape string: after blanks and line
comments with a line break among them. -/
inductive Mode where
  | plain
  | escape (newline : Bool)
  deriving DecidableEq

def Mode.next : Mode → Item → Mode
  | .escape newline, .space c => .escape (newline || isNewline c)
  | .escape newline, .lineComment => .escape newline
  | _, .escapeString _ => .escape false
  | _, _ => .plain

/-- In a mode, the lexer takes an item off the front of a text. -/
inductive Reads : Mode → Item → List Char → List Char → Prop
  | space {m : Mode} {c : Char} {rest : List Char} (hc : isSpace c) : Reads m (.space c) [c] rest
  | lineComment {m : Mode} {body rest : List Char} (hbody : ∀ c ∈ body, isNewline c = false)
      (hrest : ∀ c, rest.head? = some c → isNewline c) : Reads m .lineComment ('-' :: '-' :: body) rest
  | blockComment {m : Mode} {body rest : List Char} (h : CommentBody body) :
      Reads m (.blockComment body) ('/' :: '*' :: body) rest
  | string {m : Mode} {pre body rest : List Char} (hm : pre = [] → m ≠ .escape true) (hpre : pre ∈ stringPrefixes)
      (hbody : Scan.Paired '\'' body) (hrest : rest.head? ≠ some '\'') :
      Reads m .string (pre ++ '\'' :: (body ++ ['\''])) rest
  | escapeString {m : Mode} {e : Char} {body rest : List Char} (he : e = 'e' ∨ e = 'E') (hbody : EscapeBody body)
      (hrest : rest.head? ≠ some '\'') : Reads m (.escapeString body) (e :: '\'' :: (body ++ ['\''])) rest
  | continued {body rest : List Char} (hbody : EscapeBody body) (hrest : rest.head? ≠ some '\'') :
      Reads (.escape true) (.escapeString body) ('\'' :: (body ++ ['\''])) rest
  | dollarString {m : Mode} {name body rest : List Char} (hname : IsTagName name)
      (hbody : Scan.after ('$' :: (name ++ ['$'])) (body ++ '$' :: (name ++ ['$'])) = some []) :
      Reads m (.dollarString name) ('$' :: (name ++ '$' :: (body ++ '$' :: (name ++ ['$'])))) rest
  | word {m : Mode} {c : Char} {text rest : List Char} (hc : isIdentStart c) (htext : ∀ d ∈ text, isIdentCont d)
      (hrest : ∀ d, rest.head? = some d → isIdentCont d = false) (hopen : ¬ opensQuote (c :: text) rest) :
      Reads m (.word (c :: text)) (c :: text) rest
  | quotedIdent {m : Mode} {body rest : List Char} (hbody : Scan.Paired '"' body) (hne : body ≠ [])
      (hrest : rest.head? ≠ some '"') : Reads m (.quotedIdent body) ('"' :: (body ++ ['"'])) rest
  | unicodeIdent {m : Mode} {u : Char} {body rest : List Char} (hu : u = 'u' ∨ u = 'U')
      (hbody : Scan.Paired '"' body) (hne : body ≠ []) (hrest : rest.head? ≠ some '"') :
      Reads m .unicodeIdent (u :: '&' :: '"' :: (body ++ ['"'])) rest
  | number {m : Mode} {c : Char} {text rest : List Char} (hc : c.isDigit) (htext : ∀ d ∈ text, isTagPart d)
      (hrest : ∀ d, rest.head? = some d → isTagPart d = false) : Reads m .number (c :: text) rest
  | separator {m : Mode} {rest : List Char} : Reads m .separator [';'] rest
  | char {m : Mode} {c : Char} {rest : List Char} (hspace : isSpace c = false) (hident : isTagPart c = false)
      (hquote : c ∉ ['\'', '"', ';']) (hline : ¬ ['-', '-'] <+: c :: rest) (hblock : ¬ ['/', '*'] <+: c :: rest)
      (hdollar : c = '$' → ¬ ∃ name body, IsTagName name ∧ rest = name ++ '$' :: body) : Reads m (.char c) [c] rest

/-- The lexer takes whole items off a text, from one mode to another, and each of them
is one that may be taken in front of what follows it. -/
inductive Lexes (P : Item → List Char → Prop) : Mode → List Char → Mode → List Char → Prop
  | done {m : Mode} {s : List Char} : Lexes P m s m s
  | step {m m' : Mode} {item : Item} {token rest s : List Char} (h : Reads m item token rest) (hitem : P item rest)
      (hrest : Lexes P (m.next item) rest m' s) : Lexes P m (token ++ rest) m' s

theorem Lexes.suffix {P : Item → List Char → Prop} {m m' : Mode} {text s : List Char} (h : Lexes P m text m' s) :
    s <:+ text := by
  induction h with
  | done => exact List.suffix_rfl
  | step _ _ _ ih => exact ih.trans (List.suffix_append _ _)

theorem Lexes.trans {P : Item → List Char → Prop} {m m' m'' : Mode} {a b c : List Char} (h : Lexes P m a m' b)
    (h' : Lexes P m' b m'' c) : Lexes P m a m'' c := by
  induction h with
  | done => exact h'
  | step hread hitem _ ih => exact .step hread hitem (ih h')

theorem Lexes.mono {P Q : Item → List Char → Prop} (hPQ : ∀ item rest, P item rest → Q item rest) {m m' : Mode}
    {text s : List Char} (h : Lexes P m text m' s) : Lexes Q m text m' s := by
  induction h with
  | done => exact .done
  | step h hitem _ ih => exact .step h (hPQ _ _ hitem) ih

/-- A word, when the characters of it and after it say so. -/
theorem reads_word {m : Mode} {text rest : List Char} (htext : text.head?.any isIdentStart && text.all isIdentCont)
    (hrest : rest.head?.all (fun d => !isIdentCont d)) (hopen : ¬ opensQuote text rest) :
    Reads m (.word text) text rest := by
  cases text with
  | nil => simp at htext
  | cons c text =>
    simp only [List.head?_cons, Option.any_some, List.all_cons, Bool.and_eq_true, List.all_eq_true] at htext
    refine .word htext.1 htext.2.2 (fun d hd => ?_) hopen
    simpa [hd] using hrest

end Akb.Sql.Pg
