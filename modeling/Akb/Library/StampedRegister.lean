import Mathlib.Data.List.Induction
import Mathlib.Order.Defs.LinearOrder
import Mathlib.Tactic.Linarith

/-! A register ordered by write stamps that forgets its stamp when it is emptied.
The stored stamp is the only ordering evidence, so an emptied register accepts
any write again; this file says exactly which delivery orders survive that. -/
namespace Akb.Library
variable {ι α : Type*}

inductive StampedWrite (ι α : Type*) where
  | put (stamp : ι) (value : α)
  | delete (stamp : ι)
  deriving DecidableEq

namespace StampedWrite

def stamp : StampedWrite ι α → ι
  | .put s _ => s
  | .delete s => s

def entry : StampedWrite ι α → Option (ι × α)
  | .put s v => some (s, v)
  | .delete _ => none

/-- The content the write asks for. -/
def decided (w : StampedWrite ι α) : Option α := w.entry.map Prod.snd

def IsPut : StampedWrite ι α → Prop
  | .put _ _ => True
  | .delete _ => False

instance : DecidablePred (IsPut : StampedWrite ι α → Prop) := fun w => by
  cases w <;> simp only [IsPut] <;> infer_instance

end StampedWrite

/-- Each put is followed by a delete with a larger stamp. -/
def Overtaken [LT ι] (ws : List (StampedWrite ι α)) : Prop :=
  ∀ before s v after, ws = before ++ .put s v :: after → ∃ q, .delete q ∈ after ∧ s < q

variable [LinearOrder ι]

/-- A write is ignored when its stamp does not exceed the stored one. -/
def receive (r : Option (ι × α)) (w : StampedWrite ι α) : Option (ι × α) :=
  match r with
  | some held => if w.stamp ≤ held.1 then some held else w.entry
  | none => w.entry

def receiveAll (r : Option (ι × α)) (ws : List (StampedWrite ι α)) : Option (ι × α) := ws.foldl receive r

theorem receiveAll_append (r : Option (ι × α)) (as bs : List (StampedWrite ι α)) :
    receiveAll r (as ++ bs) = receiveAll (receiveAll r as) bs := List.foldl_append

/-- What the register holds was put, and nothing later carried a larger stamp. -/
theorem receiveAll_source {ws : List (StampedWrite ι α)} {k : ι} {v : α}
    (h : receiveAll none ws = some (k, v)) :
    ∃ before after, ws = before ++ .put k v :: after ∧ ∀ w ∈ after, w.stamp ≤ k := by
  induction ws using List.reverseRecOn generalizing k v with
  | nil => cases h
  | append_singleton ws w ih =>
    rw [receiveAll_append] at h
    change receive (receiveAll none ws) w = some (k, v) at h
    have hstored (he : w.entry = some (k, v)) :
        ∃ before after, ws ++ [w] = before ++ .put k v :: after ∧ ∀ x ∈ after, x.stamp ≤ k := by
      cases w with
      | put s x => cases he; exact ⟨ws, [], rfl, by simp⟩
      | delete s => cases he
    cases hr : receiveAll none ws with
    | none =>
      rw [hr] at h
      exact hstored h
    | some held =>
      rw [hr] at h
      simp only [receive] at h
      split at h
      · rename_i hle
        cases h
        obtain ⟨before, after, rfl, hafter⟩ := ih hr
        refine ⟨before, after ++ [w], by simp, ?_⟩
        intro x hx
        rcases List.mem_append.mp hx with hx | hx
        · exact hafter x hx
        · rw [List.mem_singleton.mp hx]
          exact hle
      · exact hstored h

/-- A held stamp only grows while no larger delete arrives. -/
theorem receiveAll_held {s : ι} {r : ι × α} (hs : s ≤ r.1) {ws : List (StampedWrite ι α)}
    (hd : ∀ q, StampedWrite.delete q ∈ ws → q ≤ s) :
    ∃ k v, receiveAll (some r) ws = some (k, v) ∧ s ≤ k := by
  induction ws generalizing r with
  | nil => exact ⟨r.1, r.2, rfl, hs⟩
  | cons w ws ih =>
    have hd' : ∀ q, StampedWrite.delete q ∈ ws → q ≤ s := fun q hq => hd q (List.mem_cons_of_mem _ hq)
    change ∃ k v, receiveAll (receive (some r) w) ws = some (k, v) ∧ s ≤ k
    by_cases hle : w.stamp ≤ r.1
    · simp only [receive, hle, if_true]
      exact ih hs hd'
    · cases w with
      | put q v =>
        simp only [receive, hle, if_false, StampedWrite.entry]
        exact ih (r := (q, v)) (hs.trans (le_of_not_ge hle)) hd'
      | delete q =>
        exact absurd ((hd q List.mem_cons_self).trans hs) hle

/-- A put that no later delete outranks leaves a stamp at least its own. -/
theorem receiveAll_of_put (before : List (StampedWrite ι α)) {after : List (StampedWrite ι α)} {s : ι} (v : α)
    (hd : ∀ q, StampedWrite.delete q ∈ after → q ≤ s) :
    ∃ k x, receiveAll none (before ++ .put s v :: after) = some (k, x) ∧ s ≤ k := by
  rw [receiveAll_append]
  change ∃ k x, receiveAll (receive (receiveAll none before) (.put s v)) after = some (k, x) ∧ s ≤ k
  cases receiveAll none before with
  | none => exact receiveAll_held (r := (s, v)) le_rfl hd
  | some held =>
    by_cases hle : s ≤ held.1
    · simp only [receive, StampedWrite.stamp, hle, if_true]
      exact receiveAll_held hle hd
    · simp only [receive, StampedWrite.stamp, StampedWrite.entry, hle, if_false]
      exact receiveAll_held (r := (s, v)) le_rfl hd

/-- The register ends empty exactly when each put was overtaken by a delete. -/
theorem receiveAll_eq_none_iff {ws : List (StampedWrite ι α)} : receiveAll none ws = none ↔ Overtaken ws := by
  constructor
  · rintro h before s v after rfl
    by_contra hno
    have hd : ∀ q, StampedWrite.delete q ∈ after → q ≤ s := fun q hq => le_of_not_gt (fun hlt => hno ⟨q, hq, hlt⟩)
    obtain ⟨k, x, he, _⟩ := receiveAll_of_put before v hd
    rw [he] at h
    cases h
  · intro h
    cases hr : receiveAll none ws with
    | none => rfl
    | some held =>
      obtain ⟨before, after, he, hafter⟩ := receiveAll_source hr
      obtain ⟨q, hq, hlt⟩ := h before held.1 held.2 after he
      exact absurd (hafter _ hq) (not_le_of_gt hlt)

/-- The write with the largest stamp decides the final content exactly when it
is a put, or each put was overtaken. -/
theorem receiveAll_decided_iff {ws : List (StampedWrite ι α)} {top : StampedWrite ι α} (htop : top ∈ ws)
    (hmax : ∀ w ∈ ws, w.stamp ≤ top.stamp) (hdistinct : ∀ w ∈ ws, w.stamp = top.stamp → w = top) :
    (receiveAll none ws).map Prod.snd = top.decided ↔ top.IsPut ∨ Overtaken ws := by
  cases top with
  | delete s =>
    simp [StampedWrite.decided, StampedWrite.entry, StampedWrite.IsPut, receiveAll_eq_none_iff]
  | put s v =>
    refine iff_of_true ?_ (Or.inl trivial)
    obtain ⟨before, after, rfl⟩ := List.append_of_mem htop
    have hd : ∀ q, StampedWrite.delete q ∈ after → q ≤ s := fun q hq =>
      hmax _ (List.mem_append_right _ (List.mem_cons_of_mem _ hq))
    obtain ⟨k, x, he, hk⟩ := receiveAll_of_put before v hd
    obtain ⟨as, bs, hsplit, _⟩ := receiveAll_source he
    have hm : StampedWrite.put k x ∈ before ++ .put s v :: after := by
      rw [hsplit]
      exact List.mem_append_right _ List.mem_cons_self
    have hsame := hdistinct _ hm (le_antisymm (hmax _ hm) hk)
    rw [he]
    exact congrArg StampedWrite.decided hsame

end Akb.Library
