import Akb.Library.Scan
import Akb.Library.PyText

/-! The tokenizer of `table_data_repo` and the guards that walk with it. -/
namespace Akb.Sql
open Akb.Library

/-- The groups of `_SQL_TOKEN_RE`, and the dollar quote that is scanned first. -/
inductive TokenKind where
  | dollarQuote
  | str
  | qid
  | lineComment
  | blockComment
  | num
  | ident
  | ws
  | sym
  deriving DecidableEq

structure Token where
  kind : TokenKind
  text : List Char
  deriving DecidableEq

def isIdentStart (c : Char) : Bool := c.isAlpha || c == '_'

def isIdentPart (c : Char) : Bool := c.isAlpha || c == '_' || c.isDigit

/-- `\$([A-Za-z_][A-Za-z0-9_]*)?\$` at the start of a text: the name, and what follows. -/
def dollarTag : List Char → Option (List Char × List Char)
  | '$' :: s =>
    let name := if s.head?.any isIdentStart then s.takeWhile isIdentPart else []
    match s.drop name.length with
    | '$' :: body => some (name, body)
    | _ => none
  | _ => none

def delimiterOf (name : List Char) : List Char := '$' :: (name ++ ['$'])

/-- `_scan_dollar_quote`: what follows the closing tag. -/
def scanDollarQuote (s : List Char) : Option (List Char) :=
  (dollarTag s).bind (fun (name, body) => Scan.after (delimiterOf name) body)

def matchStr : List Char → Option (List Char)
  | '\'' :: s => Scan.closeQuote '\'' s
  | _ => none

/-- `"(?:[^"]|"")+"` takes at least one character, or one doubled quote. -/
def matchQid : List Char → Option (List Char)
  | '"' :: '"' :: '"' :: s => Scan.closeQuote '"' s
  | '"' :: '"' :: _ => none
  | '"' :: s => Scan.closeQuote '"' s
  | _ => none

def matchLineComment : List Char → Option (List Char)
  | '-' :: '-' :: s => some (s.dropWhile (fun c => c ≠ '\n'))
  | _ => none

def matchBlockComment : List Char → Option (List Char)
  | '/' :: '*' :: s => Scan.after ['*', '/'] s
  | _ => none

def matchNum : List Char → Option (List Char)
  | c :: s =>
    if c.isDigit then
      match s.dropWhile Char.isDigit with
      | '.' :: d :: r => if d.isDigit then some (r.dropWhile Char.isDigit) else some ('.' :: d :: r)
      | r => some r
    else none
  | [] => none

def matchIdent : List Char → Option (List Char)
  | c :: s => if isIdentStart c then some (s.dropWhile isIdentPart) else none
  | [] => none

def matchWs : List Char → Option (List Char)
  | c :: s => if PyText.isSpace c then some (s.dropWhile PyText.isSpace) else none
  | [] => none

/-- The alternatives in the order in which they are tried. -/
def alternatives : List (TokenKind × (List Char → Option (List Char))) :=
  [(.dollarQuote, scanDollarQuote), (.str, matchStr), (.qid, matchQid), (.lineComment, matchLineComment),
    (.blockComment, matchBlockComment), (.num, matchNum), (.ident, matchIdent), (.ws, matchWs), (.sym, List.tail?)]

/-- The next token and what follows it. -/
def nextToken (s : List Char) : Option (Token × List Char) :=
  alternatives.findSome? (fun (kind, find) => (find s).map (fun r => (⟨kind, s.take (s.length - r.length)⟩, r)))

def walk : Nat → List Char → List (Token × List Char)
  | 0, _ => []
  | fuel + 1, s =>
    match nextToken s with
    | none => []
    | some (token, rest) => (token, rest) :: walk fuel rest

/-- Each token takes a character at least, so the length of the text is fuel enough. -/
def tokens (s : List Char) : List (Token × List Char) := walk s.length s

def Token.isSym (t : Token) (c : Char) : Bool := t.kind == .sym && t.text == [c]

def countStatementSeparators (sql : List Char) : Nat := (tokens sql).countP (fun t => t.1.isSym ';')

/-- `str.replace('""', '"')`. -/
def undouble : List Char → List Char
  | '"' :: '"' :: s => '"' :: undouble s
  | c :: s => c :: undouble s
  | [] => []

/-- `str.lower` as far as the names compared with it go: beyond ASCII only the Kelvin
sign has an ASCII letter for its lower case, a k, which none of the names has. -/
def lower (text : List Char) : List Char := text.map Char.toLower

def tokenIdentifierName (t : Token) : Option (List Char) :=
  match t.kind with
  | .ident => some (lower t.text)
  | .qid => some (lower (undouble (t.text.drop 1).dropLast))
  | _ => none

def nextSignificantTokenIsOpenParen : List (Token × List Char) → Bool
  | [] => false
  | (t, _) :: ts =>
    match t.kind with
    | .ws | .lineComment | .blockComment => nextSignificantTokenIsOpenParen ts
    | _ => t.isSym '('

def callsSetConfig : List (Token × List Char) → Bool
  | [] => false
  | (t, _) :: ts =>
    (tokenIdentifierName t == some "set_config".toList && nextSignificantTokenIsOpenParen ts) || callsSetConfig ts

def containsSetConfigCall (sql : List Char) : Bool := callsSetConfig (tokens sql)

def containsUnicodeEscapedIdentifier (sql : List Char) : Bool :=
  (tokens sql).any (fun (t, rest) => t.kind == .ident && lower t.text == ['u'] && rest.take 2 == ['&', '"'])

def containsPgSettingsIdentifier (sql : List Char) : Bool :=
  (tokens sql).any (fun t => tokenIdentifierName t.1 == some "pg_settings".toList)

/-- `rewritten.rstrip(";").strip()`. -/
def sqlCheck (sql : List Char) : List Char := PyText.strip (sql.reverse.dropWhile (fun c => c == ';')).reverse

/-! How the tokenizer walks: which alternative takes which text, and what a guard that
walks over it makes of it. -/
theorem ascii_of_isIdentPart {c : Char} (h : isIdentPart c) : c.toNat < 128 := by
  simp only [isIdentPart, PyText.isAlpha_def, PyText.isUpper_def, PyText.isLower_def, Char.isDigit, Bool.or_eq_true, Bool.and_eq_true,
    decide_eq_true_eq, beq_iff_eq, ge_iff_le, UInt32.le_iff_toNat_le] at h
  rcases h with ((⟨_, h⟩ | ⟨_, h⟩) | rfl) | ⟨_, h⟩
  · exact lt_of_le_of_lt h (by decide)
  · exact lt_of_le_of_lt h (by decide)
  · decide
  · exact lt_of_le_of_lt h (by decide)

theorem isIdentPart_of_isIdentStart {c : Char} (h : isIdentStart c) : isIdentPart c := by
  simp only [isIdentStart, isIdentPart, Bool.or_eq_true] at h ⊢
  exact Or.inl h

theorem isIdentPart_of_isDigit {c : Char} (h : c.isDigit) : isIdentPart c := by
  simp only [isIdentPart, h, Bool.or_true]

/-- The characters that begin a token of another kind than a symbol. -/
def special : List Char := ['$', '\'', '"', '-', '/']

private theorem ascii_spec : ∀ n < 128,
    (PyText.isSpace (Char.ofNat n) → Char.ofNat n ∉ special ∧ isIdentPart (Char.ofNat n) = false) ∧
    (isIdentPart (Char.ofNat n) → Char.ofNat n ∉ special) ∧
    ((Char.ofNat n).isDigit → isIdentStart (Char.ofNat n) = false) := by decide

theorem isSpace_spec {c : Char} (h : PyText.isSpace c) : c ∉ special ∧ isIdentPart c = false := by
  by_cases hc : c.toNat < 128
  · have hs := (ascii_spec c.toNat hc).1
    rw [Char.ofNat_toNat] at hs
    exact hs h
  · refine ⟨fun hm => hc ?_, Bool.eq_false_iff.mpr (fun hp => hc (ascii_of_isIdentPart hp))⟩
    have hascii : ∀ d ∈ special, d.toNat < 128 := by decide
    exact hascii c hm

theorem isIdentPart_spec {c : Char} (h : isIdentPart c) : c ∉ special := by
  have hs := (ascii_spec c.toNat (ascii_of_isIdentPart h)).2.1
  rw [Char.ofNat_toNat] at hs
  exact hs h

theorem isIdentStart_of_isDigit {c : Char} (h : c.isDigit) : isIdentStart c = false := by
  have hs := (ascii_spec c.toNat (ascii_of_isIdentPart (isIdentPart_of_isDigit h))).2.2
  rw [Char.ofNat_toNat] at hs
  exact hs h

theorem isSpace_of_isIdentPart {c : Char} (h : isIdentPart c) : PyText.isSpace c = false :=
  Bool.eq_false_iff.mpr (fun hs => by simp [(isSpace_spec hs).2] at h)

/-! ### Each alternative looks at the first character -/

section Alternatives
variable {c : Char} {s : List Char}

theorem scanDollarQuote_of_ne (h : c ≠ '$') : scanDollarQuote (c :: s) = none := by
  unfold scanDollarQuote dollarTag
  split
  · simp_all
  · rfl

theorem matchStr_of_ne (h : c ≠ '\'') : matchStr (c :: s) = none := by
  unfold matchStr
  split
  · simp_all
  · rfl

theorem matchQid_of_ne (h : c ≠ '"') : matchQid (c :: s) = none := by
  unfold matchQid
  split <;> simp_all

theorem matchLineComment_of_not (h : ¬ ['-', '-'] <+: c :: s) : matchLineComment (c :: s) = none := by
  unfold matchLineComment
  split
  · simp_all
  · rfl

theorem matchBlockComment_of_not (h : ¬ ['/', '*'] <+: c :: s) : matchBlockComment (c :: s) = none := by
  unfold matchBlockComment
  split
  · simp_all
  · rfl

/-- No alternative before the numbers takes a character outside the special ones. -/
theorem nextToken_of_not_special (h : c ∉ special) : nextToken (c :: s) =
    [(TokenKind.num, matchNum), (.ident, matchIdent), (.ws, matchWs), (.sym, List.tail?)].findSome?
      (fun (kind, find) =>
        (find (c :: s)).map (fun r => (⟨kind, (c :: s).take ((c :: s).length - r.length)⟩, r))) := by
  simp only [special, List.mem_cons, List.not_mem_nil, or_false, not_or] at h
  obtain ⟨hd, hq, hi, hm, hs⟩ := h
  have hline : ¬ ['-', '-'] <+: c :: s := by simp [Ne.symm hm]
  have hblock : ¬ ['/', '*'] <+: c :: s := by simp [Ne.symm hs]
  simp only [nextToken, alternatives, List.findSome?_cons, scanDollarQuote_of_ne hd, matchStr_of_ne hq, matchQid_of_ne hi,
    matchLineComment_of_not hline, matchBlockComment_of_not hblock, Option.map_none]

end Alternatives

theorem take_token (token rest : List Char) :
    (token ++ rest).take ((token ++ rest).length - rest.length) = token := by
  rw [List.length_append, Nat.add_sub_cancel, List.take_left']
  rfl

theorem nextToken_num {c : Char} {s r : List Char} (hc : c.isDigit) (hr : matchNum (c :: s) = some r) :
    ∃ text, nextToken (c :: s) = some (⟨.num, text⟩, r) := by
  rw [nextToken_of_not_special (isIdentPart_spec (isIdentPart_of_isDigit hc))]
  simp only [List.findSome?_cons, hr, Option.map_some]
  exact ⟨_, rfl⟩

theorem nextToken_ident {c : Char} {s : List Char} (hc : isIdentStart c) :
    nextToken (c :: s) = some (⟨.ident, c :: s.takeWhile isIdentPart⟩, s.dropWhile isIdentPart) := by
  have hdigit : c.isDigit = false :=
    Bool.eq_false_iff.mpr (fun hd => by simp [isIdentStart_of_isDigit hd] at hc)
  have hnum : matchNum (c :: s) = none := by simp [matchNum, hdigit]
  have hsplit : c :: s = (c :: s.takeWhile isIdentPart) ++ s.dropWhile isIdentPart := by
    rw [List.cons_append, List.takeWhile_append_dropWhile]
  rw [nextToken_of_not_special (isIdentPart_spec (isIdentPart_of_isIdentStart hc))]
  simp only [List.findSome?_cons, hnum, matchIdent, hc, if_true, Option.map_none, Option.map_some]
  rw [hsplit, take_token]

theorem nextToken_ws {c : Char} {s : List Char} (hc : PyText.isSpace c) :
    ∃ text, nextToken (c :: s) = some (⟨.ws, text⟩, s.dropWhile PyText.isSpace) := by
  obtain ⟨hspecial, hpart⟩ := isSpace_spec hc
  have hdigit : c.isDigit = false := Bool.eq_false_iff.mpr (fun hd => by simp [isIdentPart_of_isDigit hd] at hpart)
  have hstart : isIdentStart c = false :=
    Bool.eq_false_iff.mpr (fun hd => by simp [isIdentPart_of_isIdentStart hd] at hpart)
  rw [nextToken_of_not_special hspecial]
  simp only [List.findSome?_cons, matchNum, matchIdent, matchWs, hdigit, hstart, hc, Bool.false_eq_true, if_false,
    if_true, Option.map_none, Option.map_some]
  exact ⟨_, rfl⟩

/-- A character that begins nothing longer is a symbol of its own. -/
theorem nextToken_sym {c : Char} {s : List Char} (hdollar : scanDollarQuote (c :: s) = none)
    (hquote : c ∉ ['\'', '"']) (hline : ¬ ['-', '-'] <+: c :: s) (hblock : ¬ ['/', '*'] <+: c :: s)
    (hpart : isIdentPart c = false) (hspace : PyText.isSpace c = false) :
    nextToken (c :: s) = some (⟨.sym, [c]⟩, s) := by
  have hdigit : c.isDigit = false := Bool.eq_false_iff.mpr (fun hd => by simp [isIdentPart_of_isDigit hd] at hpart)
  have hstart : isIdentStart c = false :=
    Bool.eq_false_iff.mpr (fun hd => by simp [isIdentPart_of_isIdentStart hd] at hpart)
  simp only [List.mem_cons, List.not_mem_nil, or_false, not_or] at hquote
  simp only [nextToken, alternatives, List.findSome?_cons, hdollar, matchStr_of_ne hquote.1, matchQid_of_ne hquote.2,
    matchLineComment_of_not hline, matchBlockComment_of_not hblock, matchNum, matchIdent, matchWs, hdigit, hstart, hspace,
    Bool.false_eq_true, if_false, Option.map_none, Option.map_some, List.tail?]
  rw [show c :: s = [c] ++ s from rfl, take_token]

/-! ### The rest of a text is shorter, so the walk does not depend on its fuel -/

private theorem length_dropWhile_le (p : Char → Bool) (s : List Char) : (s.dropWhile p).length ≤ s.length :=
  (List.dropWhile_suffix p).length_le

theorem tokens_nil : tokens [] = [] := rfl

end Akb.Sql
