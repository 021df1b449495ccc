import Akb.Sql.ExecuteSql
import Akb.Sql.Statement

/-! What the first keyword of a text says about the rows its statement changes: the guards
take a text that begins with `SELECT` or `WITH` for a read. -/
namespace Akb.Sql
open Akb.Library

theorem pgIsSpace_isSpace {c : Char} (h : Pg.isSpace c) : PyText.isSpace c := by
  simp only [Pg.isSpace, List.contains_eq_mem, decide_eq_true_eq, List.mem_cons, List.not_mem_nil, or_false] at h
  rcases h with rfl | rfl | rfl | rfl | rfl | rfl <;> decide

/-- When no comment begins a text, only blanks stand before its first token. -/
theorem dropWhile_of_lexes {m m' : Pg.Mode} {text s : List Char}
    (h : Pg.Lexes (fun item _ => ¬ item.IsToken) m text m' s)
    (hhead : ∀ c, (text.dropWhile PyText.isSpace).head? = some c → c ∉ ['-', '/', '(']) :
    text.dropWhile PyText.isSpace = s.dropWhile PyText.isSpace := by
  induction h with
  | done => rfl
  | step hread hitem _ ih =>
    cases hread with
    | space hc =>
      rw [List.cons_append, List.nil_append, List.dropWhile_cons_of_pos (pgIsSpace_isSpace hc)] at hhead ⊢
      exact ih hhead
    | lineComment => exact absurd (by decide) (hhead '-' rfl)
    | blockComment => exact absurd (by decide) (hhead '/' rfl)
    | _ => exact absurd trivial hitem

theorem upper_cons {c : Char} (hc : PyText.asciiUppercases.lookup c = none) (s : List Char) :
    PyText.upper (c :: s) = c.toUpper :: PyText.upper s := by
  rw [PyText.upper, List.flatMap_cons, hc]
  rfl

theorem startsWith_iff {text : List Char} {keywords : List String} : startsWith text keywords ↔
    ∃ keyword ∈ keywords, keyword.toList <+: PyText.upper (PyText.strip text) := by
  simp [startsWith]

/-- The first character of a text, blanks left out, is the first of one of the keywords. -/
theorem head_of_startsWith {text : List Char} {keywords : List String} {c : Char} {s : List Char}
    (h : startsWith text keywords) (hne : "" ∉ keywords) (htext : text.dropWhile PyText.isSpace = c :: s)
    (hc : PyText.asciiUppercases.lookup c = none) :
    ∃ keyword ∈ keywords, keyword.toList <+: PyText.upper (PyText.strip text) ∧
      keyword.toList.head? = some c.toUpper := by
  obtain ⟨keyword, hmem, hprefix⟩ := startsWith_iff.mp h
  refine ⟨keyword, hmem, hprefix, ?_⟩
  have hlong := hprefix.trans (PyText.upper_prefix (PyText.strip_prefix text))
  rw [htext, upper_cons hc] at hlong
  cases hkeyword : keyword.toList with
  | nil => exact absurd (String.toList_eq_nil_iff.mp hkeyword ▸ hmem) hne
  | cons d rest =>
    rw [hkeyword, List.cons_prefix_cons] at hlong
    rw [List.head?_cons, hlong.1]

/-- An accepted text begins with a letter. -/
theorem no_symbol_of_startsWith {text : List Char} (h : startsWith text allowedFirstKeywords) :
    ∀ c, (text.dropWhile PyText.isSpace).head? = some c → c ∉ ['-', '/', '('] := by
  intro c hc
  obtain ⟨s, hs⟩ := List.head?_eq_some_iff.mp hc
  have hletter : ∀ keyword ∈ allowedFirstKeywords, keyword.toList.head?.all Char.isAlpha := by decide
  have hsymbols : ∀ c ∈ ['-', '/', '('],
      PyText.asciiUppercases.lookup c = none ∧ c.toUpper.isAlpha = false := by decide
  intro hsymbol
  obtain ⟨keyword, hmem, -, hhead⟩ := head_of_startsWith h (by decide) hs (hsymbols c hsymbol).1
  have halpha := hletter keyword hmem
  rw [hhead, Option.all_some, (hsymbols c hsymbol).2] at halpha
  cases halpha

/-- The letters that begin a keyword. -/
def keywordLetters : List Char := ['s', 'w', 'v', 't', 'i', 'u', 'd', 'm']

/-- A letter in either case is upper-cased alone. -/
theorem keywordLetter {c l : Char} (h : c.toLower = l) (hl : l ∈ keywordLetters) :
    PyText.asciiUppercases.lookup c = none ∧ c.toUpper = l.toUpper ∧ PyText.isSpace c = false := by
  have hupper : c = l ∨ c = l.toUpper := by
    by_cases hc : c.isUpper
    · have hle : c.toNat ≤ 90 := by
        have hbounds : c.val ≥ 'A'.val ∧ c.val ≤ 'Z'.val := by simpa [PyText.isUpper_def] using hc
        exact UInt32.le_iff_toNat_le.mp hbounds.2
      have hl' : ∀ l ∈ keywordLetters, l.toUpper.toNat + 32 = l.toNat := by decide
      have hplus := hl' l hl
      have hval := congrArg UInt32.toNat (PyText.val_toLower hc)
      refine Or.inr (Char.toNat_inj.mp ?_)
      subst h
      simp only [Char.toNat, UInt32.toNat_add] at hplus hle hval ⊢
      simp at hplus hle hval ⊢
      omega
    · exact Or.inl (PyText.toLower_of_not_isUpper (by simpa using hc) ▸ h)
  have hall : ∀ l ∈ keywordLetters, ∀ c ∈ [l, l.toUpper], PyText.asciiUppercases.lookup c = none ∧
      c.toUpper = l.toUpper ∧ PyText.isSpace c = false := by decide
  exact hall l hl c (by simpa using hupper)

theorem keyword_letter {q : Pg.Query} {word : List Char}
    (h : (q.startsAsRead ∧ (Pg.IsKeyword word "select".toList ∨ Pg.IsKeyword word "with".toList)) ∨
      (q.startsAsRead = false ∧ Pg.IsKeyword word q.verb.keyword)) :
    ∃ l ∈ keywordLetters, word.head?.map Char.toLower = some l ∧ (l ∈ ['s', 'w'] ↔ q.startsAsRead) := by
  have hfirst : ∀ {keyword : List Char} {l : Char}, Pg.IsKeyword word keyword → keyword.head? = some l →
      word.head?.map Char.toLower = some l := by
    intro keyword l hword hl
    rw [← List.head?_map, hword, hl]
  rcases h with ⟨hread, hword | hword⟩ | ⟨hread, hword⟩
  · exact ⟨'s', by decide, hfirst hword rfl, by simp [hread]⟩
  · exact ⟨'w', by decide, hfirst hword rfl, by simp [hread]⟩
  · obtain ⟨ctes, verb, clauses⟩ := q
    have hselect : verb.keyword ≠ "select".toList := by
      simp only [Pg.Query.startsAsRead, Bool.or_eq_false_iff, beq_eq_false_iff_ne] at hread
      exact hread.2
    have hletter : ∃ l ∈ keywordLetters, verb.keyword.head? = some l ∧ l ∉ ['s', 'w'] := by
      cases verb with
      | select | selectInto => exact absurd rfl hselect
      | _ => exact ⟨_, by decide, rfl, by decide⟩
    obtain ⟨l, hl, hhead, hnot⟩ := hletter
    exact ⟨l, hl, hfirst hword hhead, by simp [hread, hnot]⟩

/-- On an accepted text the guards see the first keyword of the statement. -/
theorem startsWith_readKeywords {text : List Char} {q : Pg.Query} (h : startsWith text allowedFirstKeywords)
    (hq : Pg.IsStatement text q) : startsWith text readKeywords ↔ q.startsAsRead := by
  obtain ⟨items, n, htokens, hparses⟩ := hq
  rcases hparses.head with ⟨word, rest, rfl, hhead⟩ | ⟨rest, rfl⟩
  case inr =>
    obtain ⟨m, token, s, hlex, hparen⟩ := htokens.first
    have hdrop := dropWhile_of_lexes hlex (no_symbol_of_startsWith h)
    cases hparen with
    | char => exact absurd (by decide) (no_symbol_of_startsWith h '(' (by rw [hdrop]; rfl))
  obtain ⟨l, hl, hletter, hread⟩ := keyword_letter hhead
  obtain ⟨m, token, s, hlex, hword⟩ := htokens.first
  have hdrop := dropWhile_of_lexes hlex (no_symbol_of_startsWith h)
  cases hword with
  | @word _ c text' =>
    obtain ⟨hlookup, hupper, hspace⟩ := keywordLetter (Option.some.inj hletter) hl
    rw [List.cons_append, List.dropWhile_cons_of_neg (by simp [hspace])] at hdrop
    have hkeywords : ∀ keyword ∈ allowedFirstKeywords, ∀ l ∈ keywordLetters,
        keyword.toList.head? = some l.toUpper → (keyword ∈ readKeywords ↔ l ∈ ['s', 'w']) := by decide
    rw [← hread]
    constructor
    · intro hstarts
      obtain ⟨keyword, hmem, -, hfirst⟩ := head_of_startsWith hstarts (by decide) hdrop hlookup
      have hallowed : ∀ keyword ∈ readKeywords, keyword ∈ allowedFirstKeywords := by decide
      exact (hkeywords keyword (hallowed keyword hmem) l hl (hupper ▸ hfirst)).mp hmem
    · intro hl'
      obtain ⟨keyword, hmem, hprefix, hfirst⟩ := head_of_startsWith h (by decide) hdrop hlookup
      exact startsWith_iff.mpr ⟨keyword, (hkeywords keyword hmem l hl (hupper ▸ hfirst)).mpr hl', hprefix⟩

theorem startsWith_of_checkText {text : List Char} (h : checkText text = .ok ()) :
    startsWith text allowedFirstKeywords := by
  unfold checkText at h
  split at h
  · cases h
  · split at h
    · cases h
    · rename_i hkeyword
      simpa using hkeyword

/-- A vault the caller may not write to keeps its rows under every accepted text exactly
when no statement that begins with `SELECT` or `WITH` has a part that modifies: a text
that begins so is prepared, and PostgreSQL prepares one statement only. -/
theorem read_only_vaults {c : Catalog} {caller : Caller} {vaultNames : List String} {rewritten : List Char}
    {v : VaultRow} (hcheck : checkText rewritten = .ok ()) (hv : v ∈ referenced c vaultNames)
    (hreadonly : ReadOnlyFor c caller v) :
    (Passes c caller vaultNames rewritten →
        ∀ q, Pg.IsStatement rewritten q → ∀ affected, q.rowsChanged affected = 0) ↔
      ∀ q, Pg.IsStatement rewritten q → q.startsAsRead → q.modifying = false := by
  have hpasses : Passes c caller vaultNames rewritten ↔ startsWith rewritten readKeywords := by
    rw [passes_iff hcheck, or_iff_left (fun h => h v hv hreadonly)]
  have hkeyword := startsWith_of_checkText hcheck
  rw [hpasses]
  constructor
  · intro h q hq hread
    exact q.rowsChanged_eq_zero_iff.mp (h ((startsWith_readKeywords hkeyword hq).mpr hread) q hq)
  · intro h hstarts q hq
    exact q.rowsChanged_eq_zero_iff.mpr (h q hq ((startsWith_readKeywords hkeyword hq).mp hstarts))

section Deleting

def salesArchived : Catalog := ⟨[⟨1, "sales", .archived⟩], [], []⟩

def salesReader : Caller := ⟨"u1", none, false, false⟩

/-- `WITH d AS (DELETE FROM vt_sales__orders) SELECT 1`. -/
def deletingText : List Char := "WITH".toList ++ ([' '] ++ ("d".toList ++ ([' '] ++ ("AS".toList ++ ([' '] ++
  (['('] ++ ("DELETE".toList ++ ([' '] ++ ("FROM".toList ++ ([' '] ++ ("vt_sales__orders".toList ++
    ([')'] ++ ([' '] ++ ("SELECT".toList ++ ([' '] ++ ("1".toList ++ []))))))))))))))))

def deletion : Pg.Query := .node [] .delete [.word "FROM".toList, .word "vt_sales__orders".toList]

private theorem tokens_word {word text : List Char} {items : List Pg.Item}
    (hword : word.head?.any Pg.isIdentStart && word.all Pg.isIdentCont) (h : Pg.Tokens .plain text items) :
    Pg.Tokens .plain (word ++ ([' '] ++ text)) (.word word :: items) :=
  .token (Pg.reads_word hword rfl (by simp [Pg.opensQuote])) trivial (.blank (.space (by decide)) id h)

private theorem tokens_paren {c : Char} {text : List Char} {items : List Pg.Item} (hc : c = '(' ∨ c = ')')
    (h : Pg.Tokens .plain text items) : Pg.Tokens .plain ([c] ++ text) (.char c :: items) := by
  rcases hc with rfl | rfl <;>
    exact .token (.char (by decide) (by decide) (by decide) (by simp) (by simp) (by simp)) trivial h

def deletionItems : List Pg.Item := [.word "DELETE".toList, .word "FROM".toList, .word "vt_sales__orders".toList]

def cteItems : List Pg.Item :=
  .word "d".toList :: ([] ++ .word "AS".toList :: ([] ++ .char '(' :: (deletionItems ++ .char ')' :: ([] ++ []))))

def deletingItems : List Pg.Item :=
  .word "WITH".toList :: ([] ++ (cteItems ++ [.word "SELECT".toList, .number]))

private theorem tokens_deletingText : Pg.Tokens .plain deletingText (deletingItems ++ []) := by
  refine tokens_word (by decide) (tokens_word (by decide) (tokens_word (by decide) ?_))
  refine tokens_paren (Or.inl rfl) (tokens_word (by decide +kernel) (tokens_word (by decide) ?_))
  refine .token (Pg.reads_word (by decide +kernel) (by decide +kernel) (by simp [Pg.opensQuote])) trivial ?_
  refine tokens_paren (Or.inr rfl) (.blank (.space (by decide)) id (tokens_word (by decide +kernel) ?_))
  exact .token (.number (by decide) (by decide) (by decide)) trivial .done

private theorem isStatement_deletingText : Pg.IsStatement deletingText (.node [deletion] .select [.number]) := by
  have hdelete : Pg.Parses deletionItems deletion := .bare ⟨by decide, by decide, trivial⟩
  have hselect : Pg.Parses [.word "SELECT".toList, .number] (.node [] .select [.number]) :=
    .bare ⟨by decide, by decide, by decide +kernel⟩
  have hcte : Pg.ParsesCte cteItems deletion :=
    .cte rfl .none ⟨_, rfl, by decide +kernel⟩ .none hdelete rfl rfl .none .none
  exact ⟨deletingItems, 0, tokens_deletingText, .under (by decide +kernel) (Or.inl rfl) (.last hcte) hselect⟩

private theorem checkText_deletingText : checkText deletingText = .ok () := by decide +kernel

private theorem passes_deletingText : Passes salesArchived salesReader ["sales"] deletingText :=
  (passes_iff checkText_deletingText).mpr (Or.inl (by decide +kernel))

/-- The deletion under `WITH` is a part that modifies. -/
theorem read_only_vaults_deletion :
    ¬ ∀ q, Pg.IsStatement deletingText q → q.startsAsRead → q.modifying = false := by
  have hiff := read_only_vaults (v := ⟨1, "sales", .archived⟩) checkText_deletingText
    (by decide : _ ∈ referenced salesArchived ["sales"]) (Or.inl rfl : ReadOnlyFor salesArchived salesReader _)
  intro h
  exact Nat.one_ne_zero (hiff.mpr h passes_deletingText _ isStatement_deletingText (fun _ => 1))

/-- The text passes the guards of an archived vault and deletes from its table. -/
theorem archived_vault_deleted_from : ReadOnlyFor salesArchived salesReader ⟨1, "sales", .archived⟩ ∧
    referenced salesArchived ["sales"] = [⟨1, "sales", .archived⟩] ∧ checkText deletingText = .ok () ∧
    Passes salesArchived salesReader ["sales"] deletingText ∧
    ∃ q, Pg.IsStatement deletingText q ∧ q.rowsChanged (fun _ => 1) = 1 :=
  ⟨Or.inl rfl, by decide, checkText_deletingText, passes_deletingText, _, isStatement_deletingText, rfl⟩

end Deleting

end Akb.Sql
