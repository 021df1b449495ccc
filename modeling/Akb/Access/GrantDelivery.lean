import Akb.Access.EffectiveRole
import Akb.Library.StampedRegister

/-! Revision-stamped grant messages for one source key, delivered late, out of
order and more than once. The stored contribution behaves as a stamped register
that forgets its stamp on removal. -/
namespace Akb.Access
open Akb.Library
variable {Vault User : Type} [DecidableEq Vault] [DecidableEq User]

/-- What an automated grantor sends and may resend. -/
inductive GrantMessage (User : Type) where
  | apply (role : ContributionRole) (grantedBy : Option User) (revision : Revision)
  | remove (revision : Revision)
  deriving DecidableEq

namespace GrantMessage

def revision : GrantMessage User → Revision
  | .apply _ _ r => r
  | .remove r => r

/-- The role a message decides, none for a removal. -/
def decided : GrantMessage User → Option ContributionRole
  | .apply role _ _ => some role
  | .remove _ => none

def call (vault : Vault) (user : User) (key : SourceKey) : GrantMessage User → Call Vault User
  | .apply role grantedBy revision => .apply vault user role.role.name key.text grantedBy (some revision.value)
  | .remove revision => .remove vault user key.text (some revision.value)

def write : GrantMessage User → StampedWrite Int ContributionRole
  | .apply role _ revision => .put revision.value role
  | .remove revision => .delete revision.value

omit [DecidableEq User] in
theorem write_stamp (m : GrantMessage User) : m.write.stamp = m.revision.value := by
  cases m <;> rfl

omit [DecidableEq User] in
theorem write_decided (m : GrantMessage User) : m.write.decided = m.decided := by
  cases m <;> rfl

end GrantMessage

/-- Each delivery runs in its own transaction, with its own scan order. -/
def deliverAll (t : Tables Vault User) (vault : Vault) (user : User) (key : SourceKey)
    (deliveries : List (ScanOrder Vault User × GrantMessage User)) : Tables Vault User :=
  performAll t (deliveries.map (fun d => (d.1, d.2.call vault user key)))

def storedContribution (t : Tables Vault User) (vault : Vault) (user : User) (key : SourceKey) :
    Option (Contribution Vault User) :=
  t.contributions.get? (vault, user, key)

/-- The part of a stored contribution that decides what a message does to it. -/
def basis (t : Tables Vault User) (vault : Vault) (user : User) (key : SourceKey) :
    Option (Int × ContributionRole) :=
  (storedContribution t vault user key).map (fun c => (c.revision.value, c.role))

def storedRole (t : Tables Vault User) (vault : Vault) (user : User) (key : SourceKey) :
    Option ContributionRole :=
  (storedContribution t vault user key).map Contribution.role

theorem contributionRole_name (r : ContributionRole) : contributionRole r.role.name = .ok r := by
  obtain ⟨role, listed⟩ := r
  cases role with
  | owner => simp [contributionRoles] at listed
  | reader => rfl
  | writer => rfl
  | admin => rfl

theorem validateSourceKey_text (key : SourceKey) : validateSourceKey key.text = .ok key := by
  unfold validateSourceKey
  split
  · rename_i message hm
    rw [key.valid] at hm
    cases hm
  · rfl

theorem Revision.encode_value (r : Revision) : Revision.encode r.value = .ok r := by
  simp only [Revision.encode, r.fits, dif_pos, and_self]

theorem storeContribution_contributions (scan : ScanOrder Vault User) (t : Tables Vault User)
    (c : Contribution Vault User) :
    (storeContribution scan t c).2.contributions = t.contributions.upsert c :=
  (materialize_spec scan { t with contributions := t.contributions.upsert c } c.vaultId c.userId).1

theorem dropContributions_contributions (scan : ScanOrder Vault User) (t : Tables Vault User)
    (vault : Vault) (user : User) (selected : Contribution Vault User → Bool) :
    (dropContributions scan t vault user selected).2.contributions = t.contributions.deleteWhere selected :=
  (materialize_spec scan { t with contributions := t.contributions.deleteWhere selected } vault user).1

theorem basis_storeContribution (scan : ScanOrder Vault User) (t : Tables Vault User) (vault : Vault)
    (user : User) (key : SourceKey) (role : ContributionRole) (grantedBy : Option User) (revision : Revision) :
    basis (storeContribution scan t ⟨vault, user, key, role, grantedBy, revision⟩).2 vault user key =
      some (revision.value, role) := by
  have hg := Table.get?_upsert_self t.contributions ⟨vault, user, key, role, grantedBy, revision⟩
  rw [basis, storedContribution, storeContribution_contributions]
  exact congrArg (Option.map _) hg

/-- One delivery acts on the stored basis as one write acts on a stamped register. -/
theorem basis_perform (t : Tables Vault User) (vault : Vault) (user : User) (key : SourceKey)
    (scan : ScanOrder Vault User) (m : GrantMessage User) :
    basis (perform t (scan, m.call vault user key)) vault user key = receive (basis t vault user key) m.write := by
  cases m with
  | apply role grantedBy revision =>
    simp only [perform, GrantMessage.call, Call.run, applyContribution, contributionRole_name,
      validateSourceKey_text, Except.bind, bind, pure, Except.pure]
    cases hg : t.contributions.get? (vault, user, key) with
    | none =>
      simp only [Revision.encode_value, basis_storeContribution]
      simp [basis, storedContribution, hg, receive, GrantMessage.write, StampedWrite.entry]
    | some stored =>
      by_cases hle : revision.value ≤ stored.revision.value
      · simp [basis, storedContribution, hg, hle, receive, GrantMessage.write, StampedWrite.stamp]
      · simp only [hle, if_false, Revision.encode_value, basis_storeContribution]
        simp [basis, storedContribution, hg, hle, receive, GrantMessage.write, StampedWrite.stamp,
          StampedWrite.entry]
  | remove revision =>
    simp only [perform, GrantMessage.call, Call.run, removeContribution, validateSourceKey_text, Except.bind, bind,
      pure, Except.pure]
    cases hg : t.contributions.get? (vault, user, key) with
    | none => simp [basis, storedContribution, hg, receive, GrantMessage.write, StampedWrite.entry]
    | some stored =>
      by_cases hle : revision.value ≤ stored.revision.value
      · simp [basis, storedContribution, hg, hle, receive, GrantMessage.write, StampedWrite.stamp]
      · have hk : stored.key = (vault, user, key) := (Table.mem_of_get? hg).2
        simp only [Option.any_some, hle, decide_false, Bool.false_eq_true, if_false]
        simp [basis, storedContribution, dropContributions_contributions, Table.get?_deleteWhere, hg, hk, hle,
          receive, GrantMessage.write, StampedWrite.stamp, StampedWrite.entry]

theorem basis_deliverAll (t : Tables Vault User) (vault : Vault) (user : User) (key : SourceKey)
    (deliveries : List (ScanOrder Vault User × GrantMessage User)) :
    basis (deliverAll t vault user key deliveries) vault user key =
      receiveAll (basis t vault user key) (deliveries.map (fun d => d.2.write)) := by
  induction deliveries generalizing t with
  | nil => rfl
  | cons d deliveries ih =>
    change basis (deliverAll (perform t (d.1, d.2.call vault user key)) vault user key deliveries) vault user key = _
    rw [ih, basis_perform]
    rfl

/-- Each delivered application is followed by a delivered removal of a higher revision. -/
def EachApplyRemovedLater (delivered : List (GrantMessage User)) : Prop :=
  ∀ before role grantedBy r after, delivered = before ++ .apply role grantedBy r :: after →
    ∃ q, .remove q ∈ after ∧ r.value < q.value

omit [DecidableEq User] in
theorem eachApplyRemovedLater_cons {m : GrantMessage User} {rest : List (GrantMessage User)}
    (hm : ∀ role grantedBy r, m = .apply role grantedBy r → ∃ q, .remove q ∈ rest ∧ r.value < q.value)
    (h : EachApplyRemovedLater rest) : EachApplyRemovedLater (m :: rest) := by
  intro before role grantedBy r after he
  rcases List.cons_eq_append_iff.mp he with ⟨rfl, hcons⟩ | ⟨before', rfl, hrest⟩
  · cases hcons
    exact hm role grantedBy r rfl
  · exact h before' role grantedBy r after hrest

omit [DecidableEq User] in
theorem remove_mem_of_write {delivered : List (GrantMessage User)} {q : Int}
    (h : StampedWrite.delete q ∈ delivered.map GrantMessage.write) :
    ∃ r : Revision, GrantMessage.remove r ∈ delivered ∧ r.value = q := by
  obtain ⟨m, hm, he⟩ := List.mem_map.mp h
  cases m with
  | apply role grantedBy r => cases he
  | remove r => exact ⟨r, hm, StampedWrite.delete.inj he⟩

omit [DecidableEq User] in
theorem overtaken_iff (delivered : List (GrantMessage User)) :
    Overtaken (delivered.map GrantMessage.write) ↔ EachApplyRemovedLater delivered := by
  constructor
  · rintro h before role grantedBy r after rfl
    obtain ⟨q, hq, hlt⟩ := h (before.map GrantMessage.write) r.value role (after.map GrantMessage.write) (by
      rw [List.map_append]
      rfl)
    obtain ⟨q', hq', he⟩ := remove_mem_of_write hq
    exact ⟨q', hq', he ▸ hlt⟩
  · intro h before s v after he
    obtain ⟨as, bs, rfl, has, hbs⟩ := List.map_eq_append_iff.mp he
    obtain ⟨m, cs, rfl, hm, hcs⟩ := List.map_eq_cons_iff.mp hbs
    cases m with
    | remove r => cases hm
    | apply role grantedBy r =>
      obtain ⟨q, hq, hlt⟩ := h as role grantedBy r cs rfl
      cases hm
      exact ⟨q.value, hcs ▸ List.mem_map_of_mem hq, hlt⟩

/-- Messages of distinct revisions are delivered at least once each, in any order
and with any duplication, to a key that has no contribution yet. The message of
the highest revision decides the stored role exactly when it is an application,
or when each delivered application is followed by a removal that outranks it. -/
theorem highest_revision_decides_iff (t : Tables Vault User) (vault : Vault) (user : User) (key : SourceKey)
    (hnew : storedContribution t vault user key = none)
    (messages : List (GrantMessage User)) (hdistinct : (messages.map GrantMessage.revision).Nodup)
    (deliveries : List (ScanOrder Vault User × GrantMessage User))
    (hdelivered : ∀ m, m ∈ deliveries.map Prod.snd ↔ m ∈ messages)
    (top : GrantMessage User) (htop : top ∈ messages)
    (hmax : ∀ m ∈ messages, m.revision.value ≤ top.revision.value) :
    storedRole (deliverAll t vault user key deliveries) vault user key = top.decided ↔
      top.decided.isSome ∨ EachApplyRemovedLater (deliveries.map Prod.snd) := by
  have hwrites : deliveries.map (fun d => d.2.write) = (deliveries.map Prod.snd).map GrantMessage.write := by
    rw [List.map_map]
    rfl
  have hrole : storedRole (deliverAll t vault user key deliveries) vault user key =
      (receiveAll none (deliveries.map (fun d => d.2.write))).map Prod.snd := by
    have hb := basis_deliverAll t vault user key deliveries
    rw [show basis t vault user key = none by rw [basis, hnew]; rfl] at hb
    rw [← hb, basis, Option.map_map]
    rfl
  have hmem (w : StampedWrite Int ContributionRole) (hw : w ∈ deliveries.map (fun d => d.2.write)) :
      ∃ m ∈ messages, m.write = w := by
    rw [hwrites] at hw
    obtain ⟨m, hm, rfl⟩ := List.mem_map.mp hw
    exact ⟨m, (hdelivered m).mp hm, rfl⟩
  have htopw : top.write ∈ deliveries.map (fun d => d.2.write) := by
    rw [hwrites]
    exact List.mem_map_of_mem ((hdelivered top).mpr htop)
  have hput : top.write.IsPut ↔ top.decided.isSome := by
    cases top <;> simp [GrantMessage.write, GrantMessage.decided, StampedWrite.IsPut]
  rw [hrole, ← top.write_decided, receiveAll_decided_iff htopw, hput, hwrites, overtaken_iff, top.write_decided]
  · intro w hw
    obtain ⟨m, hm, rfl⟩ := hmem w hw
    rw [m.write_stamp, top.write_stamp]
    exact hmax m hm
  · intro w hw hs
    obtain ⟨m, hm, rfl⟩ := hmem w hw
    rw [m.write_stamp, top.write_stamp] at hs
    have hrev : m.revision = top.revision := by
      cases hmr : m.revision
      cases htr : top.revision
      simpa [hmr, htr] using hs
    rw [List.inj_on_of_nodup_map hdistinct hm htop hrev]

/-- An application resent once, and the removal that outranks it. -/
def directKey : SourceKey := ⟨directSourceKey, by decide⟩

def granted : GrantMessage Nat := .apply ⟨.writer, writer_listed⟩ none ⟨1, by decide⟩

def revoked : GrantMessage Nat := .remove ⟨2, by decide⟩

theorem highest_revision_decides_in_order :
    storedRole (deliverAll (.empty : Tables Nat Nat) 1 2 directKey
      [(.stored, granted), (.stored, granted), (.stored, revoked)]) 1 2 directKey = none := by
  have hrevoked {m : GrantMessage Nat} {rest : List (GrantMessage Nat)} (hm : m = granted) (hr : revoked ∈ rest) :
      ∀ role grantedBy r, m = .apply role grantedBy r → ∃ q, .remove q ∈ rest ∧ r.value < q.value := by
    intro role grantedBy r he
    rw [hm] at he
    cases he
    exact ⟨⟨2, by decide⟩, hr, by decide⟩
  have hlater : EachApplyRemovedLater [granted, granted, revoked] :=
    eachApplyRemovedLater_cons (hrevoked rfl (by simp)) (eachApplyRemovedLater_cons (hrevoked rfl (by simp))
      (eachApplyRemovedLater_cons (fun _ _ _ he => by cases he) (fun before _ _ _ _ he => by cases before <;> cases he)))
  exact (highest_revision_decides_iff .empty 1 2 directKey rfl [granted, revoked] (by decide)
    [(.stored, granted), (.stored, granted), (.stored, revoked)] (by simp) revoked (by simp) (by decide)).mpr
    (Or.inr hlater)

/-- A late duplicate of the older application grants again what the newer removal took away. -/
theorem late_duplicate_restores_access :
    ¬ ∀ (t : Tables Nat Nat) (vault user : Nat) (key : SourceKey) (messages : List (GrantMessage Nat))
      (deliveries : List (ScanOrder Nat Nat × GrantMessage Nat)) (top : GrantMessage Nat),
      storedContribution t vault user key = none → (messages.map GrantMessage.revision).Nodup →
      (∀ m, m ∈ deliveries.map Prod.snd ↔ m ∈ messages) → top ∈ messages →
      (∀ m ∈ messages, m.revision.value ≤ top.revision.value) →
      storedRole (deliverAll t vault user key deliveries) vault user key = top.decided := by
  intro h
  have hbad := h .empty 1 2 directKey [granted, revoked] [(.stored, granted), (.stored, revoked), (.stored, granted)]
    revoked rfl (by decide) (by simp; tauto) (by simp) (by decide)
  exact absurd hbad (by decide)

end Akb.Access
