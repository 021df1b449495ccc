import Akb.Sql.Walk
import Mathlib.Order.Lattice

/-! What a guard makes of the texts that can stand in front of others. -/
namespace Akb.Sql
open Akb.Library

/-- A value of texts that blanks and comments leave alone. -/
structure Blank {α : Type*} (T : List Char → α) : Prop where
  blank : ∀ {s rest t}, nextToken s = some (t, rest) → t.kind = .ws ∨ t.kind = .lineComment ∨ t.kind = .blockComment →
    T s = T rest

/-- A value of texts that grows with each token, and only with the tokens a guard looks at. -/
structure Effect {α : Type*} [Preorder α] (T : List Char → α) : Prop extends Blank T where
  mono : ∀ {s rest t}, nextToken s = some (t, rest) → T rest ≤ T s
  skip : ∀ {s rest t}, nextToken s = some (t, rest) → t.kind = .num ∨ (t.kind = .sym ∧ t.text ≠ [';']) → T s = T rest

section Blanks
variable {α : Type*} {T : List Char → α} (hT : Blank T)
include hT

theorem Blank.space {c : Char} {s : List Char} (hc : PyText.isSpace c) : T (c :: s) = T s := by
  obtain ⟨_, hnext⟩ := nextToken_ws (s := s) hc
  rw [hT.blank hnext (Or.inl rfl)]
  cases s with
  | nil => rfl
  | cons d s =>
    by_cases hd : PyText.isSpace d
    · obtain ⟨_, hnext'⟩ := nextToken_ws (s := s) hd
      rw [hT.blank hnext' (Or.inl rfl), List.dropWhile_cons, if_pos hd]
    · rw [List.dropWhile_cons, if_neg hd]

theorem Blank.spaces {lead s : List Char} (h : ∀ c ∈ lead, PyText.isSpace c) : T (lead ++ s) = T s := by
  induction lead with
  | nil => rfl
  | cons c lead ih =>
    rw [List.cons_append, hT.space (h c List.mem_cons_self), ih (fun d hd => h d (List.mem_cons_of_mem c hd))]

/-- A line comment goes on to the line feed, over whatever blanks stand before it. -/
theorem Blank.lineComment {body rest : List Char} (hbody : ∀ c ∈ body, c ≠ '\n')
    (hline : ∀ c ∈ rest.takeWhile (fun c => c ≠ '\n'), PyText.isSpace c) :
    T ('-' :: '-' :: (body ++ rest)) = T rest := by
  have hdrop : (body ++ rest).dropWhile (fun c => c ≠ '\n') = rest.dropWhile (fun c => c ≠ '\n') :=
    List.dropWhile_append_of_pos (fun c hc => by simpa using hbody c hc)
  have hnext : ∃ text, nextToken ('-' :: '-' :: (body ++ rest)) =
      some (⟨.lineComment, text⟩, rest.dropWhile (fun c => c ≠ '\n')) := by
    simp only [nextToken, alternatives, List.findSome?_cons, scanDollarQuote_of_ne (show '-' ≠ '$' by decide),
      matchStr_of_ne (show '-' ≠ '\'' by decide), matchQid_of_ne (show '-' ≠ '"' by decide), matchLineComment,
      Option.map_none, Option.map_some, hdrop]
    exact ⟨_, rfl⟩
  obtain ⟨_, hnext⟩ := hnext
  rw [hT.blank hnext (Or.inr (Or.inl rfl)), ← hT.spaces hline, List.takeWhile_append_dropWhile]

theorem Blank.blockComment {body rest : List Char} (hbody : Scan.after ['*', '/'] body = some []) :
    T ('/' :: '*' :: (body ++ rest)) = T rest := by
  have hafter : Scan.after ['*', '/'] (body ++ rest) = some rest := Scan.after_append hbody rest
  have hnext : ∃ text, nextToken ('/' :: '*' :: (body ++ rest)) = some (⟨.blockComment, text⟩, rest) := by
    simp only [nextToken, alternatives, List.findSome?_cons, scanDollarQuote_of_ne (show '/' ≠ '$' by decide),
      matchStr_of_ne (show '/' ≠ '\'' by decide), matchQid_of_ne (show '/' ≠ '"' by decide),
      matchLineComment_of_not (show ¬ ['-', '-'] <+: '/' :: '*' :: (body ++ rest) by simp), matchBlockComment, hafter,
      Option.map_none, Option.map_some]
    exact ⟨_, rfl⟩
  obtain ⟨_, hnext⟩ := hnext
  exact hT.blank hnext (Or.inr (Or.inr rfl))

end Blanks

section Effects
variable {α : Type*} [Preorder α] {T : List Char → α} (hT : Effect T)
include hT

theorem Effect.symbol {c : Char} {s : List Char} (hdollar : scanDollarQuote (c :: s) = none)
    (hquote : c ∉ ['\'', '"', ';']) (hline : ¬ ['-', '-'] <+: c :: s) (hblock : ¬ ['/', '*'] <+: c :: s)
    (hpart : isIdentPart c = false) : T (c :: s) = T s := by
  simp only [List.mem_cons, List.not_mem_nil, or_false, not_or] at hquote
  by_cases hspace : PyText.isSpace c
  · exact hT.toBlank.space hspace
  · refine hT.skip (nextToken_sym hdollar ?_ hline hblock hpart (Bool.eq_false_iff.mpr hspace)) (Or.inr ⟨rfl, ?_⟩)
    · simp [hquote.1, hquote.2.1]
    · simp [hquote.2.2]

/-- Digits in front of a text are part of some number, whichever number that is. -/
theorem Effect.digit {c : Char} {s : List Char} (hc : c.isDigit) : T (c :: s) = T s := by
  induction hn : s.length using Nat.strong_induction_on generalizing c s with
  | h n ih =>
    have hdrop (r : List Char) (hr : r.length < n) : T (r.dropWhile Char.isDigit) = T r := by
      induction r with
      | nil => rfl
      | cons d r ihr =>
        by_cases hd : d.isDigit
        · rw [List.dropWhile_cons, if_pos hd, ihr (Nat.lt_of_succ_lt hr)]
          exact (ih r.length (Nat.lt_of_succ_lt hr) hd rfl).symm
        · rw [List.dropWhile_cons, if_neg hd]
    have hstep {r : List Char} (hr : matchNum (c :: s) = some r) : T (c :: s) = T r := by
      obtain ⟨_, hnext⟩ := nextToken_num hc hr
      exact hT.skip hnext (Or.inl rfl)
    cases s with
    | nil => exact hstep (by simp [matchNum, hc])
    | cons e s =>
      by_cases he : e.isDigit
      · obtain ⟨r, hr⟩ : ∃ r, matchNum (e :: s) = some r := by
          simp only [matchNum, he, if_true]
          split
          · split <;> exact ⟨_, rfl⟩
          · exact ⟨_, rfl⟩
        have hr' : matchNum (c :: e :: s) = some r := by
          rw [← hr, matchNum, matchNum, List.dropWhile_cons, if_pos he, hc, he]
        obtain ⟨_, hnext⟩ := nextToken_num he hr
        rw [hstep hr', hT.skip hnext (Or.inl rfl)]
      · have hstop : (e :: s).dropWhile Char.isDigit = e :: s := by rw [List.dropWhile_cons, if_neg he]
        by_cases hfraction : ∃ d r, e :: s = '.' :: d :: r ∧ d.isDigit
        · obtain ⟨d, r, heq, hd⟩ := hfraction
          obtain ⟨rfl, rfl⟩ := List.cons.inj heq
          simp only [List.length_cons] at hn
          have hpoint : T ('.' :: d :: r) = T (d :: r) :=
            hT.symbol (scanDollarQuote_of_ne (by decide)) (by decide) (by simp) (by simp) (by decide)
          rw [hstep (r := r.dropWhile Char.isDigit) (by simp only [matchNum, hc, if_true, hstop, hd]), hpoint,
            hdrop r (by omega), ih r.length (by omega) hd rfl]
        · refine hstep ?_
          rw [matchNum, if_pos hc, hstop]
          split
          · rename_i d r heq
            rw [if_neg (fun hd => hfraction ⟨d, r, heq, hd⟩), heq]
          · rfl

/-- A run of word characters, as long as no dollar in it opens a quote. -/
theorem Effect.word {text rest : List Char} (htext : ∀ c ∈ text, c ∉ ['\'', '"', ';', '-', '/'])
    (hrest : ∀ c, rest.head? = some c → isIdentPart c = false)
    (hdollar : ∀ before after, text = before ++ '$' :: after → scanDollarQuote ('$' :: (after ++ rest)) = none) :
    T rest ≤ T (text ++ rest) := by
  induction hn : text.length using Nat.strong_induction_on generalizing text with
  | h n ih =>
    subst hn
    cases text with
    | nil => exact le_rfl
    | cons c text =>
      have hsub (tail : List Char) (hs : tail <:+ text) : T rest ≤ T (tail ++ rest) := by
        obtain ⟨front, rfl⟩ := hs
        refine ih tail.length ?_ (fun d hd => htext d (by simp [hd])) (fun before after he => ?_) rfl
        · simp only [List.length_cons, List.length_append]
          omega
        · exact hdollar (c :: front ++ before) after (by simp [he])
      by_cases hstart : isIdentStart c
      · have hident := nextToken_ident (s := text ++ rest) hstart
        have hstop : rest.dropWhile isIdentPart = rest := Scan.dropWhile_eq_self hrest
        rw [List.dropWhile_append, hstop] at hident
        split at hident
        · exact hT.mono hident
        · exact (hsub _ (List.dropWhile_suffix _)).trans (hT.mono hident)
      · by_cases hdigit : c.isDigit
        · rw [List.cons_append, hT.digit hdigit]
          exact hsub text (List.suffix_refl text)
        · have hc := htext c List.mem_cons_self
          simp only [List.mem_cons, List.not_mem_nil, or_false, not_or] at hc
          obtain ⟨hq, hi, hs, hm, hsl⟩ := hc
          have hnone : scanDollarQuote (c :: (text ++ rest)) = none := by
            by_cases hd : c = '$'
            · subst hd
              exact hdollar [] text rfl
            · exact scanDollarQuote_of_ne hd
          have hpart : isIdentPart c = false := by
            simp only [isIdentStart, Bool.or_eq_true, not_or, Bool.not_eq_true] at hstart
            simp only [Bool.not_eq_true] at hdigit
            simp [isIdentPart, hstart.1, hstart.2, hdigit]
          rw [List.cons_append, hT.symbol hnone (by simp [hq, hi, hs]) (by simp [Ne.symm hm]) (by simp [Ne.symm hsl])
            hpart]
          exact hsub text (List.suffix_refl text)

theorem Effect.str {body rest : List Char} (hbody : Scan.Paired '\'' body) (hrest : rest.head? ≠ some '\'') :
    T rest ≤ T ('\'' :: (body ++ '\'' :: rest)) := by
  have hmatch : matchStr ('\'' :: (body ++ '\'' :: rest)) = some rest := Scan.closeQuote_paired hbody hrest
  have hnext : ∃ text, nextToken ('\'' :: (body ++ '\'' :: rest)) = some (⟨.str, text⟩, rest) := by
    simp only [nextToken, alternatives, List.findSome?_cons, scanDollarQuote_of_ne (show '\'' ≠ '$' by decide), hmatch,
      Option.map_none, Option.map_some]
    exact ⟨_, rfl⟩
  obtain ⟨_, hnext⟩ := hnext
  exact hT.mono hnext

theorem Effect.dollarQuote {s rest : List Char} (h : scanDollarQuote s = some rest) : T rest ≤ T s := by
  have hnext : ∃ text, nextToken s = some (⟨.dollarQuote, text⟩, rest) := by
    simp only [nextToken, alternatives, List.findSome?_cons, h, Option.map_some]
    exact ⟨_, rfl⟩
  obtain ⟨_, hnext⟩ := hnext
  exact hT.mono hnext

end Effects

end Akb.Sql
