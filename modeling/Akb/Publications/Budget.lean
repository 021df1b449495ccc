import Akb.Library.Table
import Mathlib.Algebra.Order.Ring.Rat
import Mathlib.Data.List.MinMax
import Mathlib.Data.List.Sort
import Mathlib.Tactic.Linarith
import Mathlib.Tactic.NormNum

/-! The password-attempt budget of a protected publication: one counter for all attempts and one for each
address. Clock values are seconds since the epoch, as exact numbers. -/
namespace Akb.Publications
open Akb.Library

def freeIp : Nat := 5
def freeSlug : Nat := 30
def backoff : List ℚ := [10, 30, 120, 600, 1800, 3600]
def decaySecs : ℚ := 3600
def maxIpEntries : Nat := 128

/-- `_E`. -/
structure Counter where
  failures : Nat := 0
  lockedUntil : ℚ := 0
  last : ℚ := 0
  deriving DecidableEq

/-- `_Budget`; an address is kept under the hash of it. -/
structure Budget (κ : Type) where
  total : Counter
  ips : Table (κ × Counter) Prod.fst

/-- `_wait`. -/
def wait (entry : Option Counter) (now : ℚ) : ℚ := entry.elim 0 fun e => max 0 (e.lockedUntil - now)

/-- The lock that the attempt number `failures` sets. -/
def lockSpan (failures free : Nat) : ℚ := backoff.getD (min (failures - free - 1) (backoff.length - 1)) 0

/-- `_bump`. -/
def bump (entry : Counter) (free : Nat) (now : ℚ) : Counter :=
  let quiet := now - entry.last > decaySecs
  let failures := (if quiet then 0 else entry.failures) + 1
  let lockedUntil := if quiet then 0 else entry.lockedUntil
  ⟨failures, if failures > free then now + lockSpan failures free else lockedUntil, now⟩

section Reserve
variable {κ : Type} [LinearOrder κ]

def Budget.empty : Budget κ := ⟨{}, Table.empty⟩

def Budget.entry (b : Budget κ) (key : κ) : Option Counter := (b.ips.get? key).map Prod.snd

/-- The entries that are neither quiet nor out of their lock. -/
def prune (b : Budget κ) (now : ℚ) : Budget κ :=
  { b with ips := b.ips.deleteWhere fun e => !(now - e.2.last ≤ decaySecs || e.2.lockedUntil > now) }

/-- Count the attempt for the address and for the publication. -/
def count (b : Budget κ) (key : κ) (now : ℚ) : Budget κ :=
  ⟨bump b.total freeSlug now, b.ips.upsert (key, bump ((b.entry key).getD {}) freeIp now)⟩

/-- `_reserve`: 0 when the attempt is admitted, else the time to wait. -/
def reserve (b : Budget κ) (key : κ) (now : ℚ) : ℚ × Budget κ :=
  let b := prune b now
  let remaining := max (wait (some b.total) now) (wait (b.entry key) now)
  if remaining ≠ 0 then (remaining, b)
  else if (b.entry key).isNone && maxIpEntries ≤ b.ips.rows.length then
    let unlocked := b.ips.rows.filter fun e => e.2.lockedUntil ≤ now
    match unlocked.argmin fun e => e.2.last with
    | none => (((b.ips.rows.map fun e => wait (some e.2) now).min?).getD 0, b)
    | some oldest => (0, count { b with ips := b.ips.deleteWhere fun e => e.1 = oldest.1 } key now)
  else (0, count b key now)

/-- `_release`. -/
def release (b : Budget κ) (key : κ) : Budget κ :=
  ⟨{ b.total with failures := b.total.failures - 1, lockedUntil := 0 }, b.ips.deleteWhere fun e => e.1 = key⟩

/-- `_Budget.load`: JSONB hands the entries over in the order of their keys. -/
def Budget.load (b : Budget κ) : Budget κ where
  total := b.total
  ips := ⟨b.ips.rows.insertionSort (fun e f => e.1 ≤ f.1),
    ((List.perm_insertionSort _ b.ips.rows).map Prod.fst).nodup_iff.mpr b.ips.unique⟩

/-- `_change` on the row of a publication; `live` is whether the publication is protected and has not expired. -/
def change (live : Bool) (row : Option (Budget κ)) (key : κ) (refund : Bool) (now : ℚ) : ℚ × Option (Budget κ) :=
  if !live then (0, row)
  else if refund then (0, row.map fun b => release b.load key)
  else
    let (remaining, b) := reserve (row.getD Budget.empty).load key now
    (remaining, some b)

/-- A call on a protected publication. -/
inductive Call (α : Type)
  | reserve (address : α) (now : ℚ)
  | release (address : α) (now : ℚ)

variable {α : Type} (ipKey : α → κ)

/-- What a call answers and leaves. -/
def perform (row : Option (Budget κ)) : Call α → ℚ × Option (Budget κ)
  | .reserve address now => change true row (ipKey address) false now
  | .release address now => change true row (ipKey address) true now

def after (row : Option (Budget κ)) (calls : List (Call α)) : Option (Budget κ) :=
  calls.foldl (fun row call => (perform ipKey row call).2) row

/-- The clock values of the admitted attempts. -/
def admitted (row : Option (Budget κ)) : List (Call α) → List ℚ
  | [] => []
  | .reserve address now :: calls =>
    let (remaining, next) := perform ipKey row (.reserve address now)
    if remaining = 0 then now :: admitted next calls else admitted next calls
  | .release address now :: calls => admitted (perform ipKey row (.release address now)).2 calls

end Reserve

def Call.clock {α : Type} : Call α → ℚ
  | .reserve _ now => now
  | .release _ now => now

def Call.isRelease {α : Type} : Call α → Bool
  | .reserve _ _ => false
  | .release _ _ => true

end Akb.Publications

/-! Guessing a password is bounded: no attempt is admitted under a lock, locks are kept, entries are few, and
an hour admits few attempts. -/
namespace Akb.Publications
open Akb.Library
variable {κ : Type} [LinearOrder κ]

section Reserve
variable {b : Budget κ} {key : κ} {now : ℚ}

/-- The lock of an entry, if it has one, is over. -/
def Unlocked (entry : Option Counter) (now : ℚ) : Prop := ∀ e ∈ entry, e.lockedUntil ≤ now

theorem wait_nonneg (entry : Option Counter) (now : ℚ) : 0 ≤ wait entry now := by
  cases entry with
  | none => exact le_refl 0
  | some e => exact le_max_left _ _

theorem wait_eq_zero {entry : Option Counter} : wait entry now = 0 ↔ Unlocked entry now := by
  cases entry with
  | none => simp [wait, Unlocked]
  | some e => simp [wait, Unlocked]

/-- The two locks that an attempt is held back by. -/
theorem remaining_eq_zero : max (wait (some b.total) now) (wait (b.entry key) now) = 0 ↔
    b.total.lockedUntil ≤ now ∧ Unlocked (b.entry key) now := by
  rw [← wait_eq_zero]
  have htotal : wait (some b.total) now = 0 ↔ b.total.lockedUntil ≤ now := by simp [wait]
  rw [← htotal]
  constructor
  · intro h
    have hle₁ := le_max_left (wait (some b.total) now) (wait (b.entry key) now)
    have hle₂ := le_max_right (wait (some b.total) now) (wait (b.entry key) now)
    rw [h] at hle₁ hle₂
    exact ⟨le_antisymm hle₁ (wait_nonneg _ _), le_antisymm hle₂ (wait_nonneg _ _)⟩
  · rintro ⟨h₁, h₂⟩
    rw [h₁, h₂, max_self]

theorem entry_eq_some {e : Counter} : b.entry key = some e ↔ (key, e) ∈ b.ips := by
  rw [Budget.entry, Option.map_eq_some_iff]
  constructor
  · rintro ⟨⟨k, f⟩, hget, rfl⟩
    obtain ⟨hmem, rfl⟩ := Table.mem_of_get? hget
    exact hmem
  · intro hmem
    exact ⟨(key, e), Table.get?_eq_some.mpr ⟨hmem, rfl⟩, rfl⟩

omit [LinearOrder κ] in
theorem mem_prune {e : κ × Counter} (h : e ∈ b.ips) (hlock : now < e.2.lockedUntil) : e ∈ (prune b now).ips := by
  refine Table.mem_deleteWhere.mpr ⟨h, ?_⟩
  rw [decide_eq_true hlock, Bool.or_true, Bool.not_true]

/-- The attempt is refused: the counters stay as they were. -/
def Refused (b : Budget κ) (now : ℚ) (result : ℚ × Budget κ) : Prop := result.1 ≠ 0 ∧ result.2 = prune b now

/-- The attempt is admitted: neither lock was in force, and both counters are bumped. An entry that makes room
had no lock in force. -/
structure Admitted (b : Budget κ) (key : κ) (now : ℚ) (result : ℚ × Budget κ) : Prop where
  zero : result.1 = 0
  total : b.total.lockedUntil ≤ now
  entry : Unlocked (b.entry key) now
  counted : result.2.total = bump b.total freeSlug now
  kept : ∀ e ∈ b.ips, now < e.2.lockedUntil → e ∈ result.2.ips
  few : b.ips.rows.length ≤ maxIpEntries → result.2.ips.rows.length ≤ maxIpEntries

theorem length_upsert_le (t : Table (κ × Counter) Prod.fst) (r : κ × Counter) :
    (t.upsert r).rows.length ≤ t.rows.length + 1 := by
  change (t.rows.filter _ ++ [r]).length ≤ _
  rw [List.length_append, List.length_singleton]
  exact Nat.succ_le_succ (List.length_filter_le _ _)

omit [LinearOrder κ] in
theorem length_deleteWhere_lt {t : Table (κ × Counter) Prod.fst} {p : κ × Counter → Bool} {e : κ × Counter}
    (he : e ∈ t) (hp : p e = true) : (t.deleteWhere p).rows.length < t.rows.length :=
  List.length_filter_lt_length_iff_exists.mpr ⟨e, he, by simp [hp]⟩

/-- An upsert of a key that is there adds no row. -/
theorem length_upsert_of_mem {t : Table (κ × Counter) Prod.fst} {r e : κ × Counter} (he : e ∈ t) (hk : e.1 = r.1) :
    (t.upsert r).rows.length ≤ t.rows.length := by
  have hlt := length_deleteWhere_lt (p := fun s => s.1 = r.1) he (decide_eq_true hk)
  have hlength : (t.upsert r).rows.length = (t.deleteWhere fun s => s.1 = r.1).rows.length + 1 := List.length_append
  omega

theorem unlocked_of_prune (h : Unlocked ((prune b now).entry key) now) : Unlocked (b.entry key) now := by
  intro e he
  by_contra hlock
  have hmem := mem_prune (entry_eq_some.mp he) (not_le.mp hlock)
  exact hlock (h e (entry_eq_some.mpr hmem))

/-- Counting an attempt keeps every entry under a lock. -/
theorem mem_count {p : Budget κ} {e : κ × Counter} (h : e ∈ p.ips) (hlock : now < e.2.lockedUntil)
    (hkey : Unlocked (p.entry key) now) : e ∈ (count p key now).ips := by
  refine Table.mem_upsert.mpr (Or.inr ⟨h, ?_⟩)
  rintro rfl
  exact absurd (hkey e.2 (entry_eq_some.mpr h)) (not_le.mpr hlock)

omit [LinearOrder κ] in
theorem refused_of_full {p : Budget κ} (hfull : maxIpEntries ≤ p.ips.rows.length)
    (hnone : p.ips.rows.filter (fun e => decide (e.2.lockedUntil ≤ now)) = []) :
    ((p.ips.rows.map fun e => wait (some e.2) now).min?).getD 0 ≠ 0 := by
  cases hmin : (p.ips.rows.map fun e => wait (some e.2) now).min? with
  | none =>
    rw [List.min?_eq_none_iff, List.map_eq_nil_iff] at hmin
    rw [hmin] at hfull
    exact absurd (Nat.le_zero.mp hfull) (by decide)
  | some m =>
    obtain ⟨e, he, rfl⟩ := List.mem_map.mp (List.min?_mem hmin)
    have hlock : ¬ e.2.lockedUntil ≤ now := by simpa using List.filter_eq_nil_iff.mp hnone e he
    intro hzero
    have hall := wait_eq_zero.mp hzero
    exact hlock (hall e.2 rfl)

theorem reserve_cases (b : Budget κ) (key : κ) (now : ℚ) :
    Refused b now (reserve b key now) ∨ Admitted b key now (reserve b key now) := by
  rw [reserve]
  set p := prune b now with hp
  dsimp only
  split
  · rename_i hwait
    exact Or.inl ⟨hwait, rfl⟩
  rename_i hwait
  obtain ⟨htotal, hentry⟩ := remaining_eq_zero.mp (not_not.mp hwait)
  have hunlocked : Unlocked (b.entry key) now := unlocked_of_prune hentry
  have hlength : p.ips.rows.length ≤ b.ips.rows.length := List.length_filter_le _ _
  split
  · rename_i hfull
    obtain ⟨hnew, hfull⟩ := Bool.and_eq_true_iff.mp hfull
    have hfull : maxIpEntries ≤ p.ips.rows.length := of_decide_eq_true hfull
    split
    · rename_i hnone
      exact Or.inl ⟨refused_of_full hfull (List.argmin_eq_none.mp hnone), rfl⟩
    · rename_i oldest holdest
      obtain ⟨hmem, hfree⟩ := List.mem_filter.mp (List.argmin_mem (Option.mem_def.mpr holdest))
      have hgone := length_deleteWhere_lt (t := p.ips) (p := fun e => e.1 = oldest.1) hmem (decide_eq_true rfl)
      refine Or.inr ⟨rfl, htotal, hunlocked, rfl, fun e he hlock => ?_, fun hfew => ?_⟩
      · have hkept := mem_prune he hlock
        have hother : e.1 ≠ oldest.1 := by
          intro heq
          rw [Table.eq_of_key hkept hmem heq] at hlock
          exact absurd (of_decide_eq_true hfree) (not_le.mpr hlock)
        refine mem_count (Table.mem_deleteWhere.mpr ⟨hkept, decide_eq_false hother⟩) hlock ?_
        intro f hf
        exact hentry f (entry_eq_some.mpr (Table.mem_deleteWhere.mp (entry_eq_some.mp hf)).1)
      · exact (length_upsert_le (p.ips.deleteWhere fun e => e.1 = oldest.1) _).trans (by omega)
  · rename_i hroom
    refine Or.inr ⟨rfl, htotal, hunlocked, rfl, fun e he hlock => mem_count (mem_prune he hlock) hlock hentry, fun hfew => ?_⟩
    change (p.ips.upsert _).rows.length ≤ _
    cases hold : p.entry key with
    | none =>
      rw [hold] at hroom
      have hlt : ¬ maxIpEntries ≤ p.ips.rows.length := by simpa using hroom
      have hcount := length_upsert_le p.ips (key, bump ((none : Option Counter).getD {}) freeIp now)
      omega
    | some e =>
      have hcount := length_upsert_of_mem (r := (key, bump ((some e).getD {}) freeIp now)) (entry_eq_some.mp hold) rfl
      omega

end Reserve
end Akb.Publications
