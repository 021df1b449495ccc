import Akb.Bm25.Vocabulary
import Mathlib.Data.List.Count
import Mathlib.Data.List.Infix

/-! Every set of ids belongs to one numbering, and every stored vector to the numbering in force. -/
namespace Akb.Bm25.Vocabulary
open Akb.Library
variable {db db' : Database}

/-! ### The vocabulary and the vectors -/

structure Numbered (db : Database) : Prop where
  below : ∀ r ∈ db.vocab, r.termId < db.sequence
  distinct : ∀ r ∈ db.vocab, ∀ r' ∈ db.vocab, r.termId = r'.termId → r = r'
  nonempty : ∀ r ∈ db.vocab, r.term ≠ []
  valid : ∀ v ∈ db.vectors, Valid db v
  complete : ∀ v ∈ db.vectors, ∀ c ∈ v.counts, c.1 ≠ [] → ∃ r ∈ db.vocab, r.term = c.1
  recorded : ∀ run ∈ db.remap, ∀ r ∈ run.rows, r.oldId ≤ run.maxIdBefore

theorem numbered_fresh : Numbered System.fresh.db := by
  constructor <;> simp [System.fresh]

theorem vector_congr {ids ids' : List VocabRow} {counts : List (Term × Nat)}
    (h : ∀ c ∈ counts, ids.find? (fun r => r.term = c.1) = ids'.find? fun r => r.term = c.1) :
    vector ids counts = vector ids' counts :=
  List.filterMap_congr fun c hc => by rw [h c hc]

/-- Rows of the vocabulary answer for a term that one of them has, and for a term that is not registered. -/
theorem find_eq {vocab : Table VocabRow VocabRow.term} {ids : List VocabRow} (hsub : ∀ r ∈ ids, r ∈ vocab) {t : Term}
    (h : (∃ r ∈ ids, r.term = t) ∨ ∀ r ∈ vocab, r.term ≠ t) :
    ids.find? (fun r => r.term = t) = vocab.rows.find? fun r => r.term = t := by
  rcases h with ⟨r, hr, hterm⟩ | hnone
  · have hfound : vocab.get? t = some r := Table.get?_eq_some.mpr ⟨hsub r hr, hterm⟩
    cases hfind : ids.find? fun r => r.term = t with
    | none =>
      have := List.find?_eq_none.mp hfind r hr
      simp only [decide_eq_true_eq] at this
      exact absurd hterm this
    | some r' =>
      have hterm' := List.find?_some hfind
      simp only [decide_eq_true_eq] at hterm'
      have heq : r' = r := Table.eq_of_key (hsub r' (List.mem_of_find?_eq_some hfind)) (hsub r hr) (hterm'.trans hterm.symm)
      rw [heq]
      exact hfound.symm
  · have hids : ids.find? (fun r => r.term = t) = none :=
      List.find?_eq_none.mpr fun r hr => by simpa using hnone r (hsub r hr)
    have hvocab : vocab.rows.find? (fun r => r.term = t) = none :=
      List.find?_eq_none.mpr fun r hr => by simpa using hnone r hr
    rw [hids, hvocab]

/-- What an encoder makes of a text by rows that cover it is what the vocabulary makes of it. -/
theorem Numbered.vector_eq (h : Numbered db) {ids : List VocabRow} (hsub : ∀ r ∈ ids, r ∈ db.vocab) {counts : List (Term × Nat)}
    (hcover : ∀ c ∈ counts, c.1 ≠ [] → ∃ r ∈ ids, r.term = c.1) : vector ids counts = vector db.vocab.rows counts := by
  refine vector_congr fun c hc => find_eq hsub ?_
  by_cases hnil : c.1 = []
  · right
    intro r hr
    rw [hnil]
    exact h.nonempty r hr
  · exact .inl (hcover c hc hnil)

/-- Rows are added, and the epoch stays. -/
structure Grows (db db' : Database) : Prop where
  epoch : db'.epoch = db.epoch
  vocab : ∀ r ∈ db.vocab, r ∈ db'.vocab

theorem Grows.refl (db : Database) : Grows db db := ⟨rfl, fun _ hr => hr⟩

theorem Grows.trans {db'' : Database} (h : Grows db db') (h' : Grows db' db'') : Grows db db'' :=
  ⟨h'.epoch.trans h.epoch, fun r hr => h'.vocab r (h.vocab r hr)⟩

theorem Numbered.valid_of_grows (h : Numbered db) (hgrows : Grows db db') (hnonempty : ∀ r ∈ db'.vocab, r.term ≠ [])
    {v : Stored} (hv : v ∈ db.vectors) : Valid db' v := by
  rw [Valid, h.valid v hv]
  refine vector_congr fun c hc => ?_
  refine find_eq hgrows.vocab ?_
  by_cases hnil : c.1 = []
  · right
    intro r hr
    rw [hnil]
    exact hnonempty r hr
  · exact .inl (h.complete v hv c hc hnil)

/-- What the insertion of a term comes to. -/
structure Inserts (db db' : Database) (terms : List Term) (rows : List VocabRow) : Prop extends Grows db db' where
  numbered : Numbered db'
  rows : ∀ r ∈ rows, r ∈ db'.vocab ∧ r.term ∈ terms

theorem Numbered.insertTerm (h : Numbered db) {t : Term} (ht : t ≠ []) :
    Inserts db (db.insertTerm t).1 [t] (db.insertTerm t).2 := by
  unfold Database.insertTerm
  cases hinsert : db.vocab.insert? ⟨t, db.sequence⟩ with
  | none =>
    refine ⟨⟨rfl, fun r hr => hr⟩, ⟨fun r hr => (h.below r hr).trans (Nat.lt_succ_self _), h.distinct, h.nonempty, h.valid,
      h.complete, h.recorded⟩, fun r hr => ?_⟩
    cases hr
  | some vocab =>
    obtain ⟨-, hmem⟩ := Table.insert?_eq_some hinsert
    have hgrows : Grows db { db with vocab := vocab, sequence := db.sequence + 1 } := ⟨rfl, fun r hr => (hmem r).mpr (.inr hr)⟩
    have hnonempty : ∀ r ∈ vocab, r.term ≠ [] := by
      intro r hr
      rcases (hmem r).mp hr with rfl | hr
      · exact ht
      · exact h.nonempty r hr
    refine ⟨hgrows, ⟨?_, ?_, hnonempty, fun v hv => h.valid_of_grows hgrows hnonempty hv, ?_, h.recorded⟩, ?_⟩
    · intro r hr
      rcases (hmem r).mp hr with rfl | hr
      · exact Nat.lt_succ_self _
      · exact (h.below r hr).trans (Nat.lt_succ_self _)
    · intro r hr r' hr' hid
      rcases (hmem r).mp hr with rfl | hr
      · rcases (hmem r').mp hr' with rfl | hr'
        · rfl
        · exact absurd hid (h.below r' hr').ne'
      · rcases (hmem r').mp hr' with rfl | hr'
        · exact absurd hid (h.below r hr).ne
        · exact h.distinct r hr r' hr' hid
    · intro v hv c hc hne
      obtain ⟨r, hr, hterm⟩ := h.complete v hv c hc hne
      exact ⟨r, (hmem r).mpr (.inr hr), hterm⟩
    · intro r hr
      rw [List.mem_singleton.mp hr]
      exact ⟨(hmem _).mpr (.inl rfl), List.mem_singleton_self t⟩

theorem Numbered.insertTerms (terms : List Term) (ht : ∀ t ∈ terms, t ≠ []) :
    ∀ {db : Database}, Numbered db → Inserts db (db.insertTerms terms).1 terms (db.insertTerms terms).2 := by
  induction terms with
  | nil =>
    intro db h
    exact ⟨.refl _, h, fun r hr => by cases hr⟩
  | cons t terms ih =>
    intro db h
    obtain ⟨ht, hterms⟩ := List.forall_mem_cons.mp ht
    have hone := h.insertTerm ht
    have hrest := ih hterms hone.numbered
    refine ⟨hone.toGrows.trans hrest.toGrows, hrest.numbered, fun r hr => ?_⟩
    rcases List.mem_append.mp hr with hr | hr
    · obtain ⟨hmem, hterm⟩ := hone.rows r hr
      rw [List.mem_singleton.mp hterm]
      exact ⟨hrest.vocab r hmem, List.mem_cons_self⟩
    · exact ⟨(hrest.rows r hr).1, List.mem_cons_of_mem _ (hrest.rows r hr).2⟩

/-! ### The renumbering -/

theorem target_mem {map : List (Nat × Nat)} {id new : Nat} (h : target map id = some new) : (id, new) ∈ map := by
  obtain ⟨m, hm, rfl⟩ := Option.map_eq_some_iff.mp h
  have hid := List.find?_some hm
  simp only [decide_eq_true_eq] at hid
  rw [← hid]
  exact List.mem_of_find?_eq_some hm

theorem relabelled_mem {map : List (Nat × Nat)} {id : Nat} (h : (target map id).isSome) : (id, relabelled map id) ∈ map := by
  obtain ⟨new, hnew⟩ := Option.isSome_iff_exists.mp h
  rw [relabelled, hnew]
  exact target_mem hnew

theorem vector_relabelled (rows : List VocabRow) (f : Nat → Nat) (counts : List (Term × Nat)) :
    vector (rows.map fun r => { r with termId := f r.termId }) counts = (vector rows counts).map fun e => (f e.1, e.2) := by
  rw [vector, vector, List.map_filterMap]
  refine List.filterMap_congr fun c _ => ?_
  rw [List.find?_map, Option.map_map, Option.map_map]
  rfl

/-- Each id is replaced throughout. -/
theorem Numbered.relabel (h : Numbered db) {map : List (Nat × Nat)} {nextId : Nat} (hnext : ∀ m ∈ map, m.2 < nextId)
    (hrun : db.relabel map nextId = some db') : Numbered { db' with remap := none } ∧ db'.epoch = db.epoch + 1 := by
  unfold Database.relabel at hrun
  split at hrun
  · next hmap =>
    obtain ⟨-, htargets, hvocab, -⟩ := hmap
    cases hrun
    have hrow : ∀ r ∈ db.vocab, (r.termId, relabelled map r.termId) ∈ map := fun r hr => relabelled_mem (hvocab r hr)
    refine ⟨⟨?_, ?_, ?_, ?_, ?_, fun run hrun => by cases hrun⟩, rfl⟩
    · intro r hr
      obtain ⟨old, hold, rfl⟩ := List.mem_map.mp hr
      exact hnext _ (hrow old hold)
    · intro r hr r' hr' hid
      obtain ⟨old, hold, rfl⟩ := List.mem_map.mp hr
      obtain ⟨old', hold', rfl⟩ := List.mem_map.mp hr'
      have hsame := List.inj_on_of_nodup_map htargets (hrow old hold) (hrow old' hold') hid
      have heq : old = old' := h.distinct old hold old' hold' (congrArg Prod.fst hsame)
      rw [heq]
    · intro r hr
      obtain ⟨old, hold, rfl⟩ := List.mem_map.mp hr
      exact h.nonempty old hold
    · intro v hv
      obtain ⟨old, hold, rfl⟩ := List.mem_map.mp hv
      change old.entries.map _ = vector (db.vocab.rows.map fun r => { r with termId := relabelled map r.termId }) old.counts
      rw [vector_relabelled, ← h.valid old hold]
    · intro v hv c hc hne
      obtain ⟨old, hold, rfl⟩ := List.mem_map.mp hv
      obtain ⟨r, hr, hterm⟩ := h.complete old hold c hc hne
      exact ⟨_, List.mem_map_of_mem hr, hterm⟩
  · cases hrun

theorem rank_lt {rows : List VocabRow} {r : VocabRow} (hr : r ∈ rows) : rank rows r.termId < rows.length :=
  List.countP_lt_length_iff.mpr ⟨r, hr, by simp⟩

theorem le_maxId {r : VocabRow} (hr : r ∈ db.vocab) : r.termId ≤ db.maxId := by
  rw [Database.maxId]
  have hmem : r.termId ∈ db.vocab.rows.map VocabRow.termId := List.mem_map_of_mem hr
  generalize db.vocab.rows.map VocabRow.termId = ids at hmem
  induction ids with
  | nil => cases hmem
  | cons id ids ih =>
    rw [List.foldr_cons]
    rcases List.mem_cons.mp hmem with rfl | hmem
    · exact Nat.le_max_left _ _
    · exact (ih hmem).trans (Nat.le_max_right _ _)

/-- The renumbering keeps the ids apart, moves the epoch, and takes every vector along; a repair of the sequence moves nothing. -/
theorem Numbered.apply (h : Numbered db) (hrun : db.apply = some db') :
    Numbered db' ∧ (Grows db db' ∨ db'.epoch = db.epoch + 1) := by
  unfold Database.apply at hrun
  by_cases hdense : db.Dense
  · rw [if_pos hdense] at hrun
    cases hrun
    refine ⟨⟨?_, h.distinct, h.nonempty, h.valid, h.complete, h.recorded⟩, .inl ⟨rfl, fun r hr => hr⟩⟩
    intro r hr
    rcases hdense with hnil | ⟨-, -, hbelow⟩
    · rw [Table.mem_def, hnil] at hr
      cases hr
    · exact hbelow r hr
  · rw [if_neg hdense] at hrun
    obtain ⟨mid, hmid, rfl⟩ := Option.map_eq_some_iff.mp hrun
    obtain ⟨hn, hepoch⟩ := h.relabel (fun m hm => by
      obtain ⟨r, hr, rfl⟩ := List.mem_map.mp hm
      exact rank_lt hr) hmid
    refine ⟨⟨hn.below, hn.distinct, hn.nonempty, hn.valid, hn.complete, ?_⟩, .inr hepoch⟩
    intro run hrun r hr
    cases hrun
    obtain ⟨old, hold, rfl⟩ := List.mem_map.mp hr
    exact le_maxId hold

theorem Numbered.revert (h : Numbered db) (hrun : db.revert = some db') : Numbered db' ∧ db'.epoch = db.epoch + 1 := by
  unfold Database.revert at hrun
  cases hremap : db.remap with
  | none =>
    rw [hremap] at hrun
    cases hrun
  | some run =>
    simp only [hremap] at hrun
    split at hrun
    · obtain ⟨mid, hmid, rfl⟩ := Option.map_eq_some_iff.mp hrun
      refine h.relabel (fun m hm => ?_) hmid
      rcases List.mem_append.mp hm with hm | hm
      · obtain ⟨r, hr, rfl⟩ := List.mem_map.mp hm
        have hle := h.recorded run hremap r hr
        change r.oldId < _
        omega
      · obtain ⟨v, hv, rfl⟩ := List.mem_map.mp hm
        have hlt := rank_lt hv
        change run.maxIdBefore + (rank (db.newer run) v.termId + 1) < _
        omega
    · cases hrun

/-! ### What the processes know -/

variable {actions actions' : List Action} {s t : System} {p : Nat} {job : Job} {ids : List VocabRow}

/-- A row of the vocabulary at some moment when the epoch had been reached. -/
def Seen (actions : List Action) (epoch : Nat) (r : VocabRow) : Prop :=
  ∃ past, past <+: actions ∧ epoch ≤ (after past).db.epoch ∧ r ∈ (after past).db.vocab

def Covers (job : Job) (ids : List VocabRow) : Prop := ∀ c ∈ job.counts, c.1 ≠ [] → ∃ r ∈ ids, r.term = c.1

def LookupSound (actions : List Action) : Lookup → Prop
  | .fence _ => True
  | .read _ => True
  | .insert _ epoch ids => epoch ≤ (after actions).db.epoch ∧ ∀ r ∈ ids, Seen actions epoch r
  | .reread _ epoch ids => epoch ≤ (after actions).db.epoch ∧ ∀ r ∈ ids, Seen actions epoch r
  | .recheck _ epoch ids => ∀ r ∈ ids, Seen actions epoch r

def QuerySound (actions : List Action) : Query → Prop
  | .fence _ => True
  | .epoch _ => True
  | .rawIds _ epoch => epoch ≤ (after actions).db.epoch
  | .innerEpoch _ epoch _ => epoch ≤ (after actions).db.epoch
  | .innerIds _ epoch _ _ => epoch ≤ (after actions).db.epoch
  | .innerCheck _ epoch _ _ ids => epoch ≤ (after actions).db.epoch ∧ ∀ r ∈ ids, Seen actions epoch r
  | .check _ epoch ids => ∀ r ∈ ids, Seen actions epoch r

/-- A storing transaction holds the fence, and has checked its ids' epoch against the one in force. -/
def ProcSound (actions : List Action) (s : System) (p : Nat) : Proc → Prop
  | .idle => True
  | .document _ next => LookupSound actions next
  | .query _ _ next => QuerySound actions next
  | .encoded job ids epoch => Named actions ids epoch ∧ Covers job ids
  | .fenced job ids epoch => Named actions ids (some epoch) ∧ Covers job ids ∧ p ∈ s.shared
  | .checked job ids epoch => Named actions ids epoch ∧ Covers job ids ∧ ∀ e ∈ epoch, p ∈ s.shared ∧ s.db.epoch = e
  | .renumbering => s.exclusive = some p

structure Sound (actions : List Action) : Prop where
  numbered : Numbered (after actions).db
  older : ∀ past, past <+: actions → (after past).db.epoch ≤ (after actions).db.epoch ∧
    ((after past).db.epoch = (after actions).db.epoch → ∀ r ∈ (after past).db.vocab, r ∈ (after actions).db.vocab)
  procs : ∀ p, ProcSound actions (after actions) p ((after actions).procs p)
  returned : ∀ x ∈ (after actions).returned, Named actions x.1 x.2
  fence : ∀ q, (after actions).exclusive = some q → (after actions).shared = []

/-- What a step of one process may do to the others. -/
structure Moves (s t : System) (p : Nat) : Prop where
  numbered : Numbered t.db
  db : Grows s.db t.db ∨ t.db.epoch = s.db.epoch + 1 ∧ s.exclusive = some p
  procs : ∀ q, q ≠ p → t.procs q = s.procs q
  shared : ∀ q, q ≠ p → q ∈ s.shared → q ∈ t.shared
  exclusive : ∀ q, q ≠ p → s.exclusive = some q → t.exclusive = some q
  fence : ∀ q, t.exclusive = some q → t.shared = []

theorem Seen.mono {epoch : Nat} {r : VocabRow} (h : Seen actions epoch r) (hpre : actions <+: actions') : Seen actions' epoch r := by
  obtain ⟨past, hpast, hepoch, hr⟩ := h
  exact ⟨past, hpast.trans hpre, hepoch, hr⟩

theorem Seen.now {epoch : Nat} {r : VocabRow} (hepoch : epoch ≤ (after actions).db.epoch) (hr : r ∈ (after actions).db.vocab) :
    Seen actions epoch r := ⟨actions, List.prefix_rfl, hepoch, hr⟩

theorem Named.mono {epoch : Option Nat} (h : Named actions ids epoch) (hpre : actions <+: actions') : Named actions' ids epoch := by
  cases epoch with
  | none => exact h
  | some epoch =>
    obtain ⟨past, hpast, hepoch, hids⟩ := h
    exact ⟨past, hpast.trans hpre, hepoch, hids⟩

/-- Rows seen since an epoch that is still in force are rows of the vocabulary. -/
theorem Sound.mem_of_seen (h : Sound actions) {epoch : Nat} (hepoch : (after actions).db.epoch = epoch) {r : VocabRow}
    (hseen : Seen actions epoch r) : r ∈ (after actions).db.vocab := by
  obtain ⟨past, hpast, hle, hr⟩ := hseen
  obtain ⟨hold, hsame⟩ := h.older past hpast
  exact hsame (le_antisymm hold (hepoch ▸ hle)) r hr

theorem Sound.named_of_seen (h : Sound actions) {epoch : Nat} (hepoch : (after actions).db.epoch = epoch)
    (hids : ∀ r ∈ ids, Seen actions epoch r) : Named actions ids (some epoch) :=
  ⟨actions, List.prefix_rfl, hepoch, fun r hr => h.mem_of_seen hepoch (hids r hr)⟩

/-- Ids of an epoch that is still in force are ids of the vocabulary. -/
theorem Sound.mem_of_named (h : Sound actions) {epoch : Nat} (hepoch : (after actions).db.epoch = epoch)
    (hnamed : Named actions ids (some epoch)) : ∀ r ∈ ids, r ∈ (after actions).db.vocab := by
  obtain ⟨past, hpast, hsame, hids⟩ := hnamed
  exact fun r hr => (h.older past hpast).2 (hsame.trans hepoch.symm) r (hids r hr)

theorem covers_of_missing (h : missing job.uniq ids = []) : Covers job ids := by
  intro c hc hne
  by_contra hnone
  have hmem : c.1 ∈ missing job.uniq ids := by
    refine List.mem_filter.mpr ⟨List.mem_filter.mpr ⟨List.mem_map_of_mem hc, by simpa using hne⟩, ?_⟩
    simpa using fun r hr hterm => hnone ⟨r, hr, hterm⟩
  rw [h] at hmem
  cases hmem

theorem nonempty_of_missing {t : Term} (h : t ∈ missing job.uniq ids) : t ≠ [] := by
  have huniq := (List.mem_filter.mp h).1
  simpa using (List.mem_filter.mp huniq).2

theorem mem_lookup {db : Database} {terms : List Term} {r : VocabRow} (h : r ∈ db.lookup terms) : r ∈ db.vocab :=
  (List.mem_filter.mp h).1

end Akb.Bm25.Vocabulary
