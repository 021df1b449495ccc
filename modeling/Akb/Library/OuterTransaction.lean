import Mathlib.Logic.Basic

/-! A transaction within which some statements commit on connections of their own. A failure rolls the
transaction back and leaves what the others committed. -/
namespace Akb.Library.OuterTransaction

/-- What the open transaction sees, what a rollback leaves, and the statements performed so far. -/
structure Tx (σ : Type*) where
  work : σ
  kept : σ
  count : Nat

/-- An exception with the state that it leaves. -/
structure Raised (ε σ : Type*) where
  error : ε
  kept : σ

abbrev Action (ε σ : Type*) := Tx σ → Except (Raised ε σ) (Tx σ)

variable {ε σ α : Type*}

/-- A statement of the transaction; `fault` fails the statement of that number. -/
def statement (fault : Nat → Option ε) (f : σ → Except ε σ) : Action ε σ := fun t =>
  match fault t.count with
  | some e => .error ⟨e, t.kept⟩
  | none =>
    match f t.work with
    | .error e => .error ⟨e, t.kept⟩
    | .ok s => .ok { t with work := s, count := t.count + 1 }

/-- A write that commits on its own connection; the transaction sees it too. -/
def ownCommit (fault : Nat → Option ε) (f : σ → σ) : Action ε σ := fun t =>
  match fault t.count with
  | some e => .error ⟨e, t.kept⟩
  | none => .ok ⟨f t.work, f t.kept, t.count + 1⟩

def andThen (f g : Action ε σ) : Action ε σ := fun t =>
  match f t with
  | .error r => .error r
  | .ok t => g t

def each (f : α → Action ε σ) : List α → Action ε σ
  | [] => .ok
  | a :: as => andThen (f a) (each f as)

/-- Run a transaction from a committed state. -/
def transaction (body : Action ε σ) (s : σ) : Except (Raised ε σ) σ :=
  match body ⟨s, s, 0⟩ with
  | .error r => .error r
  | .ok t => .ok t.work

/-- The committed state is the same whether the action fails or goes on. -/
def Keeps (f : Action ε σ) : Prop :=
  ∀ t, (∀ r, f t = .error r → r.kept = t.kept) ∧ ∀ t', f t = .ok t' → t'.kept = t.kept

theorem keeps_statement (fault : Nat → Option ε) (f : σ → Except ε σ) : Keeps (statement fault f) := by
  intro t
  rw [statement]
  split
  · exact ⟨fun r h => by cases h; rfl, fun t' h => by cases h⟩
  · split
    · exact ⟨fun r h => by cases h; rfl, fun t' h => by cases h⟩
    · exact ⟨fun r h => (by cases h), fun t' h => by cases h; rfl⟩

theorem andThen_ok {f g : Action ε σ} {t t' : Tx σ} (h : andThen f g t = .ok t') : ∃ u, f t = .ok u ∧ g u = .ok t' := by
  rw [andThen] at h
  split at h
  · cases h
  · exact ⟨_, ‹_›, h⟩

theorem andThen_error {f g : Action ε σ} {t : Tx σ} {r : Raised ε σ} (h : andThen f g t = .error r) :
    f t = .error r ∨ ∃ u, f t = .ok u ∧ g u = .error r := by
  rw [andThen] at h
  split at h
  · cases h
    exact Or.inl ‹_›
  · exact Or.inr ⟨_, ‹_›, h⟩

theorem keeps_andThen {f g : Action ε σ} (hf : Keeps f) (hg : Keeps g) : Keeps (andThen f g) := by
  intro t
  constructor
  · intro r h
    rcases andThen_error h with h | ⟨u, hu, h⟩
    · exact (hf t).1 r h
    · rw [(hg u).1 r h, (hf t).2 u hu]
  · intro t' h
    obtain ⟨u, hu, h⟩ := andThen_ok h
    rw [(hg u).2 t' h, (hf t).2 u hu]

theorem keeps_each {f : α → Action ε σ} {as : List α} (h : ∀ a ∈ as, Keeps (f a)) : Keeps (each f as) := by
  induction as with
  | nil => exact fun t => ⟨fun r hr => (by cases hr), fun t' ht => by cases ht; rfl⟩
  | cons a as ih => exact keeps_andThen (h a List.mem_cons_self) (ih fun b hb => h b (List.mem_cons_of_mem a hb))

theorem statement_ok {fault : Nat → Option ε} {f : σ → Except ε σ} {t t' : Tx σ} (h : statement fault f t = .ok t') :
    fault t.count = none ∧ f t.work = .ok t'.work ∧ t'.kept = t.kept ∧ t'.count = t.count + 1 := by
  rw [statement] at h
  split at h
  · cases h
  · rename_i hfault
    split at h
    · cases h
    · rename_i s hs
      cases h
      exact ⟨hfault, hs, rfl, rfl⟩

theorem statement_error {fault : Nat → Option ε} {f : σ → Except ε σ} {t : Tx σ} {r : Raised ε σ}
    (h : statement fault f t = .error r) : (fault t.count).isSome ∨ f t.work = .error r.error := by
  rw [statement] at h
  split at h
  · rename_i e hfault
    rw [hfault]
    exact Or.inl rfl
  · split at h
    · rename_i e he
      cases h
      exact Or.inr he
    · cases h

theorem ownCommit_ok {fault : Nat → Option ε} {f : σ → σ} {t t' : Tx σ} (h : ownCommit fault f t = .ok t') :
    fault t.count = none ∧ t' = ⟨f t.work, f t.kept, t.count + 1⟩ := by
  rw [ownCommit] at h
  split at h
  · cases h
  · cases h
    exact ⟨‹_›, rfl⟩

theorem ownCommit_error {fault : Nat → Option ε} {f : σ → σ} {t : Tx σ} {r : Raised ε σ}
    (h : ownCommit fault f t = .error r) : (fault t.count).isSome ∧ r.kept = t.kept := by
  rw [ownCommit] at h
  split at h
  · rename_i e hfault
    cases h
    rw [hfault]
    exact ⟨rfl, rfl⟩
  · cases h

/-- What the committed state satisfies survives an action, failed or not. -/
def Preserves (P : σ → Prop) (f : Action ε σ) : Prop :=
  ∀ t, P t.kept → (∀ r, f t = .error r → P r.kept) ∧ ∀ t', f t = .ok t' → P t'.kept

theorem Keeps.preserves {f : Action ε σ} (h : Keeps f) (P : σ → Prop) : Preserves P f := fun t ht =>
  ⟨fun r hr => (h t).1 r hr ▸ ht, fun t' ht' => (h t).2 t' ht' ▸ ht⟩

theorem preserves_ownCommit {P : σ → Prop} (fault : Nat → Option ε) {f : σ → σ} (h : ∀ s, P s → P (f s)) :
    Preserves P (ownCommit fault f) := by
  intro t ht
  constructor
  · intro r hr
    rw [(ownCommit_error hr).2]
    exact ht
  · intro t' ht'
    rw [(ownCommit_ok ht').2]
    exact h _ ht

theorem preserves_andThen {P : σ → Prop} {f g : Action ε σ} (hf : Preserves P f) (hg : Preserves P g) :
    Preserves P (andThen f g) := by
  intro t ht
  constructor
  · intro r h
    rcases andThen_error h with h | ⟨u, hu, h⟩
    · exact (hf t ht).1 r h
    · exact (hg u ((hf t ht).2 u hu)).1 r h
  · intro t' h
    obtain ⟨u, hu, h⟩ := andThen_ok h
    exact (hg u ((hf t ht).2 u hu)).2 t' h

theorem preserves_each {P : σ → Prop} {f : α → Action ε σ} {as : List α} (h : ∀ a ∈ as, Preserves P (f a)) :
    Preserves P (each f as) := by
  induction as with
  | nil => exact fun t ht => ⟨fun r hr => (by cases hr), fun t' ht' => by cases ht'; exact ht⟩
  | cons a as ih => exact preserves_andThen (h a List.mem_cons_self) (ih fun b hb => h b (List.mem_cons_of_mem a hb))

/-- An invariant of both states: of what the transaction sees, and of what a failure leaves. -/
def Upholds (P : σ → Prop) (f : Action ε σ) : Prop :=
  ∀ t, P t.work → P t.kept → (∀ r, f t = .error r → P r.kept) ∧ ∀ t', f t = .ok t' → P t'.work ∧ P t'.kept

theorem upholds_statement {P : σ → Prop} (fault : Nat → Option ε) {f : σ → Except ε σ}
    (h : ∀ s s', P s → f s = .ok s' → P s') : Upholds P (statement fault f) := by
  intro t hw hk
  refine ⟨((keeps_statement fault f).preserves P t hk).1, fun t' ht' => ⟨?_, ((keeps_statement fault f).preserves P t hk).2 t' ht'⟩⟩
  exact h _ _ hw (statement_ok ht').2.1

theorem upholds_ownCommit {P : σ → Prop} (fault : Nat → Option ε) {f : σ → σ} (h : ∀ s, P s → P (f s)) :
    Upholds P (ownCommit fault f) := by
  intro t hw hk
  refine ⟨(preserves_ownCommit fault h t hk).1, fun t' ht' => ⟨?_, (preserves_ownCommit fault h t hk).2 t' ht'⟩⟩
  rw [(ownCommit_ok ht').2]
  exact h _ hw

theorem upholds_andThen {P : σ → Prop} {f g : Action ε σ} (hf : Upholds P f) (hg : Upholds P g) : Upholds P (andThen f g) := by
  intro t hw hk
  constructor
  · intro r h
    rcases andThen_error h with h | ⟨u, hu, h⟩
    · exact (hf t hw hk).1 r h
    · obtain ⟨hw', hk'⟩ := (hf t hw hk).2 u hu
      exact (hg u hw' hk').1 r h
  · intro t' h
    obtain ⟨u, hu, h⟩ := andThen_ok h
    obtain ⟨hw', hk'⟩ := (hf t hw hk).2 u hu
    exact (hg u hw' hk').2 t' h

theorem upholds_each {P : σ → Prop} {f : α → Action ε σ} {as : List α} (h : ∀ a ∈ as, Upholds P (f a)) :
    Upholds P (each f as) := by
  induction as with
  | nil => exact fun t hw hk => ⟨fun r hr => (by cases hr), fun t' ht' => by cases ht'; exact ⟨hw, hk⟩⟩
  | cons a as ih => exact upholds_andThen (h a List.mem_cons_self) (ih fun b hb => h b (List.mem_cons_of_mem a hb))

/-- A failed series of statements: one of its numbers is at fault, or one of its writes is refused. -/
theorem each_statement_error {fault : Nat → Option ε} {f : α → σ → Except ε σ} {P : σ → Prop} {as : List α}
    (hP : ∀ a ∈ as, ∀ s s', P s → f a s = .ok s' → P s') {t : Tx σ} {r : Raised ε σ} (ht : P t.work)
    (h : each (fun a => statement fault (f a)) as t = .error r) :
    (∃ n, n < t.count + as.length ∧ (fault n).isSome) ∨ ∃ a ∈ as, ∃ s, P s ∧ f a s = .error r.error := by
  induction as generalizing t with
  | nil => cases h
  | cons a as ih =>
    rw [List.length_cons]
    rcases andThen_error h with h | ⟨u, hu, h⟩
    · rcases statement_error h with hf | hf
      · exact Or.inl ⟨t.count, by omega, hf⟩
      · exact Or.inr ⟨a, List.mem_cons_self, _, ht, hf⟩
    · obtain ⟨-, hok, -, hcount⟩ := statement_ok hu
      rcases ih (fun b hb => hP b (List.mem_cons_of_mem a hb)) (hP a List.mem_cons_self _ _ ht hok) h with ⟨n, hn, hf⟩ | ⟨b, hb, hs⟩
      · exact Or.inl ⟨n, by omega, hf⟩
      · exact Or.inr ⟨b, List.mem_cons_of_mem a hb, hs⟩

theorem each_statement_ok {fault : Nat → Option ε} {f : α → σ → Except ε σ} {as : List α} {t t' : Tx σ}
    (h : each (fun a => statement fault (f a)) as t = .ok t') :
    t'.kept = t.kept ∧ t'.count = t.count + as.length ∧ ∀ n, t.count ≤ n → n < t.count + as.length → fault n = none := by
  induction as generalizing t with
  | nil =>
    cases h
    exact ⟨rfl, rfl, fun n h1 h2 => absurd h2 (by simpa using h1)⟩
  | cons a as ih =>
    obtain ⟨u, hu, h⟩ := andThen_ok h
    obtain ⟨hfault, -, hkept, hcount⟩ := statement_ok hu
    obtain ⟨hk, hc, hn⟩ := ih h
    rw [List.length_cons]
    refine ⟨hk.trans hkept, by omega, fun n h1 h2 => ?_⟩
    rcases Nat.eq_or_lt_of_le h1 with rfl | h1
    · exact hfault
    · exact hn n (by omega) (by omega)

/-- A series keeps an invariant of what the transaction sees and moves it along a preorder, and what an
item establishes lasts if it lasts along the preorder. -/
theorem each_work {f : α → Action ε σ} {as : List α} {I : σ → Prop} {R : σ → σ → Prop} {Q : α → σ → Prop}
    (hrefl : ∀ s, R s s) (htrans : ∀ s s' s'', R s s' → R s' s'' → R s s'') (hQ : ∀ a s s', R s s' → Q a s → Q a s')
    (hstep : ∀ a ∈ as, ∀ t t', I t.work → f a t = .ok t' → I t'.work ∧ R t.work t'.work ∧ Q a t'.work)
    {t t' : Tx σ} (ht : I t.work) (h : each f as t = .ok t') :
    I t'.work ∧ R t.work t'.work ∧ ∀ a ∈ as, Q a t'.work := by
  induction as generalizing t with
  | nil =>
    cases h
    exact ⟨ht, hrefl _, fun a ha => (by cases ha)⟩
  | cons a as ih =>
    obtain ⟨u, hu, h⟩ := andThen_ok h
    obtain ⟨hi, hr, hq⟩ := hstep a List.mem_cons_self t u ht hu
    obtain ⟨hi', hr', hq'⟩ := ih (fun b hb => hstep b (List.mem_cons_of_mem a hb)) hi h
    exact ⟨hi', htrans _ _ _ hr hr', List.forall_mem_cons.mpr ⟨hQ a _ _ hr' hq, hq'⟩⟩

theorem Upholds.transaction {P : σ → Prop} {body : Action ε σ} (hb : Upholds P body) {s : σ} (hs : P s) :
    (∀ r, transaction body s = .error r → P r.kept) ∧ ∀ s', transaction body s = .ok s' → P s' := by
  obtain ⟨herror, hok⟩ := hb ⟨s, s, 0⟩ hs hs
  rw [OuterTransaction.transaction]
  split
  · rename_i r hr
    exact ⟨fun r' h => by cases h; exact herror r hr, fun s' h => by cases h⟩
  · rename_i t ht
    exact ⟨fun r h => (by cases h), fun s' h => by cases h; exact (hok t ht).1⟩

theorem transaction_ok {body : Action ε σ} {s s' : σ} (h : transaction body s = .ok s') :
    ∃ t, body ⟨s, s, 0⟩ = .ok t ∧ t.work = s' := by
  rw [transaction] at h
  split at h
  · cases h
  · cases h
    exact ⟨_, ‹_›, rfl⟩

/-- A transaction of statements alone is all or nothing. -/
theorem transaction_keeps {body : Action ε σ} (hb : Keeps body) {s : σ} {r : Raised ε σ}
    (h : transaction body s = .error r) : r.kept = s := by
  rw [transaction] at h
  split at h
  · cases h
    exact (hb _).1 _ ‹_›
  · cases h

end Akb.Library.OuterTransaction
