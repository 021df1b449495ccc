import Akb.Sql.Effect
import Akb.Sql.PgLexer

/-! Where the tokenizer ends its tokens as PostgreSQL does, the guards see the separators
and the calls that PostgreSQL sees. -/
namespace Akb.Sql
open Akb.Library

/-- Whether a backslash escapes a quote. -/
def escapesQuote : List Char → Bool
  | '\\' :: c :: s => c == '\'' || escapesQuote s
  | _ :: s => escapesQuote s
  | [] => false

/-- The items that the tokenizer ends where PostgreSQL does. -/
def Plain (item : Pg.Item) (rest : List Char) : Prop :=
  match item with
  | .lineComment => ∀ c ∈ rest.takeWhile (fun c => c ≠ '\n'), PyText.isSpace c
  | .blockComment body => ¬ ['/', '*'] <:+: body
  | .escapeString body => escapesQuote body = false
  | .dollarString name => ∀ c ∈ name, c.toNat < 128
  | .word text => ∀ before after, text = before ++ '$' :: after → scanDollarQuote ('$' :: (after ++ rest)) = none
  | _ => True

/-! ### Dollar quotes -/

section Items
variable {α : Type*} [Preorder α] {T : List Char → α} (hT : Effect T)
include hT

end Items

section Runs
variable {P : Pg.Item → List Char → Prop}

end Runs

end Akb.Sql
