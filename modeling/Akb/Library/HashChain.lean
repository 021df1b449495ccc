import Mathlib.Data.List.Basic
import Mathlib.Data.List.Induction

/-! Chains of digests: each item is hashed together with the digest before it. -/
namespace Akb.Library
variable {Digest Item Input : Type}

/-- A hash, how the digest before an item is put to it, and the digest that a chain begins with. -/
structure HashChain (Digest Item Input : Type) where
  hash : Input → Digest
  join : Digest → Item → Input
  root : Digest

namespace HashChain

/-- The digest at the end of a chain. -/
def head (c : HashChain Digest Item Input) (items : List Item) : Digest :=
  items.foldl (fun d x => c.hash (c.join d x)) c.root

/-- What is hashed along a chain. -/
def Hashed (c : HashChain Digest Item Input) (items : List Item) (input : Input) : Prop :=
  ∃ before x, before ++ [x] <+: items ∧ input = c.join (c.head before) x

/-- Two inputs hashed along the chains have one digest, or one of them has the digest that chains begin with. -/
def Collide (c : HashChain Digest Item Input) (xs ys : List Item) : Prop :=
  (∃ i j, c.Hashed xs i ∧ c.Hashed ys j ∧ i ≠ j ∧ c.hash i = c.hash j) ∨
    ∃ i, (c.Hashed xs i ∨ c.Hashed ys i) ∧ c.hash i = c.root

variable {c : HashChain Digest Item Input} {xs ys more : List Item} {i : Input}

@[simp] theorem head_nil : c.head [] = c.root := rfl

@[simp] theorem head_concat (xs : List Item) (x : Item) : c.head (xs ++ [x]) = c.hash (c.join (c.head xs) x) := by
  rw [head, List.foldl_append]
  rfl

theorem hashed_concat (xs : List Item) (x : Item) : c.Hashed (xs ++ [x]) (c.join (c.head xs) x) :=
  ⟨xs, x, List.prefix_refl _, rfl⟩

theorem Hashed.append (h : c.Hashed xs i) : c.Hashed (xs ++ more) i := by
  obtain ⟨before, x, hbefore, rfl⟩ := h
  exact ⟨before, x, hbefore.trans (List.prefix_append _ _), rfl⟩

theorem Collide.append (h : c.Collide xs ys) (more more' : List Item) : c.Collide (xs ++ more) (ys ++ more') := by
  rcases h with ⟨i, j, hi, hj, hne, heq⟩ | ⟨i, hi, heq⟩
  · exact .inl ⟨i, j, hi.append, hj.append, hne, heq⟩
  · exact .inr ⟨i, hi.imp Hashed.append Hashed.append, heq⟩

/-- Chains with one head have the same items, where no two inputs are hashed to one digest. -/
theorem items_of_head {Cut : Digest → Prop} (hroot : Cut c.root) (hhash : ∀ i, Cut (c.hash i))
    (hjoin : ∀ d e x y, Cut d → Cut e → c.join d x = c.join e y → d = e ∧ x = y) (xs ys : List Item)
    (h : c.head xs = c.head ys) : xs = ys ∨ c.Collide xs ys := by
  have hcut (l : List Item) : Cut (c.head l) := by
    rcases List.eq_nil_or_concat l with rfl | ⟨l, x, rfl⟩
    · exact hroot
    · rw [List.concat_eq_append, head_concat]
      exact hhash _
  induction xs using List.reverseRecOn generalizing ys with
  | nil =>
    rcases List.eq_nil_or_concat ys with rfl | ⟨ys, y, rfl⟩
    · exact .inl rfl
    · rw [List.concat_eq_append, head_nil, head_concat] at h
      exact .inr (.inr ⟨_, .inr (by rw [List.concat_eq_append]; exact hashed_concat ys y), h.symm⟩)
  | append_singleton xs x ih =>
    rcases List.eq_nil_or_concat ys with rfl | ⟨ys, y, rfl⟩
    · rw [head_nil, head_concat] at h
      exact .inr (.inr ⟨_, .inl (hashed_concat xs x), h⟩)
    · rw [List.concat_eq_append, head_concat, head_concat] at h
      rw [List.concat_eq_append]
      by_cases hinput : c.join (c.head xs) x = c.join (c.head ys) y
      · obtain ⟨hhead, rfl⟩ := hjoin _ _ _ _ (hcut xs) (hcut ys) hinput
        rcases ih ys hhead with rfl | hcollide
        · exact .inl rfl
        · exact .inr (hcollide.append _ _)
      · exact .inr (.inl ⟨_, _, hashed_concat xs x, hashed_concat ys y, hinput, h⟩)

end HashChain
end Akb.Library
