import Akb.Bm25.Numberings
import Mathlib.Data.List.Induction

/-! Term ids in every history: what an encoder returns belongs to the epoch it names, and what is stored to the numbering in force. -/
namespace Akb.Bm25.Vocabulary
open Akb.Library
variable {actions actions' : List Action} {s t : System} {p : Nat} {job : Job} {ids : List VocabRow}

theorem after_snoc (actions : List Action) (a : Action) : after (actions ++ [a]) = (after actions).act a :=
  List.foldl_concat ..

/-! ### One step -/

theorem Moves.epoch_le (h : Moves s t p) : s.db.epoch ≤ t.db.epoch := by
  rcases h.db with hgrows | ⟨hnext, -⟩
  · exact hgrows.epoch.ge
  · omega

theorem LookupSound.mono {next : Lookup} (h : LookupSound actions next) (hpre : actions <+: actions')
    (hepoch : (after actions).db.epoch ≤ (after actions').db.epoch) : LookupSound actions' next := by
  cases next with
  | fence n => trivial
  | read n => trivial
  | insert n epoch ids => exact ⟨h.1.trans hepoch, fun r hr => (h.2 r hr).mono hpre⟩
  | reread n epoch ids => exact ⟨h.1.trans hepoch, fun r hr => (h.2 r hr).mono hpre⟩
  | recheck n epoch ids => exact fun r hr => (h r hr).mono hpre

theorem QuerySound.mono {next : Query} (h : QuerySound actions next) (hpre : actions <+: actions')
    (hepoch : (after actions).db.epoch ≤ (after actions').db.epoch) : QuerySound actions' next := by
  cases next with
  | fence n => trivial
  | epoch n => trivial
  | rawIds n epoch => exact h.trans hepoch
  | innerEpoch n epoch inner => exact h.trans hepoch
  | innerIds n epoch inner innerEpoch => exact h.trans hepoch
  | innerCheck n epoch inner innerEpoch ids => exact ⟨h.1.trans hepoch, fun r hr => (h.2 r hr).mono hpre⟩
  | check n epoch ids => exact fun r hr => (h r hr).mono hpre

/-- A process that does not move still knows what it knew: with the fence held the epoch does not move. -/
theorem ProcSound.mono {q : Nat} {proc : Proc} (h : ProcSound actions (after actions) q proc) (hpre : actions <+: actions')
    (hepoch : (after actions).db.epoch ≤ (after actions').db.epoch)
    (hshared : q ∈ (after actions).shared → q ∈ (after actions').shared ∧ (after actions').db.epoch = (after actions).db.epoch)
    (hexclusive : (after actions).exclusive = some q → (after actions').exclusive = some q) :
    ProcSound actions' (after actions') q proc := by
  cases proc with
  | idle => trivial
  | document job next => exact LookupSound.mono h hpre hepoch
  | query uniq raw next => exact QuerySound.mono h hpre hepoch
  | encoded job ids epoch => exact ⟨h.1.mono hpre, h.2⟩
  | fenced job ids epoch => exact ⟨h.1.mono hpre, h.2.1, (hshared h.2.2).1⟩
  | checked job ids epoch =>
    refine ⟨h.1.mono hpre, h.2.1, fun e he => ?_⟩
    obtain ⟨hmem, heq⟩ := h.2.2 e he
    exact ⟨(hshared hmem).1, (hshared hmem).2.trans heq⟩
  | renumbering => exact hexclusive h

theorem Sound.next (h : Sound actions) {a : Action} {p : Nat} (hmoves : Moves (after actions) (after (actions ++ [a])) p)
    (hproc : ProcSound (actions ++ [a]) (after (actions ++ [a])) p ((after (actions ++ [a])).procs p))
    (hreturned : ∀ x ∈ (after (actions ++ [a])).returned, x ∈ (after actions).returned ∨ Named (actions ++ [a]) x.1 x.2) :
    Sound (actions ++ [a]) := by
  have hpre : actions <+: actions ++ [a] := List.prefix_append _ _
  refine ⟨hmoves.numbered, fun past hpast => ?_, fun q => ?_, fun x hx => ?_, hmoves.fence⟩
  · rcases List.prefix_concat_iff.mp hpast with rfl | hpast
    · exact ⟨le_rfl, fun _ r hr => hr⟩
    · obtain ⟨hle, hsame⟩ := h.older past hpast
      refine ⟨hle.trans hmoves.epoch_le, fun heq r hr => ?_⟩
      rcases hmoves.db with hgrows | ⟨hnext, -⟩
      · exact hgrows.vocab r (hsame (heq.trans hgrows.epoch) r hr)
      · omega
  · by_cases hq : q = p
    · rw [hq]
      exact hproc
    · rw [hmoves.procs q hq]
      refine (h.procs q).mono hpre hmoves.epoch_le (fun hshared => ⟨hmoves.shared q hq hshared, ?_⟩) (hmoves.exclusive q hq)
      rcases hmoves.db with hgrows | ⟨-, hexclusive⟩
      · exact hgrows.epoch
      · rw [h.fence p hexclusive] at hshared
        cases hshared
  · rcases hreturned x hx with hold | hnamed
    · exact (h.returned x hold).mono hpre
    · exact hnamed

variable {a : Action} {proc : Proc}

theorem Sound.becomes (h : Sound actions) {mid : System} (ha : after (actions ++ [a]) = mid.set p proc)
    (hmoves : Moves (after actions) (mid.set p proc) p) (hproc : ProcSound (actions ++ [a]) (mid.set p proc) p proc)
    (hreturned : ∀ x ∈ mid.returned, x ∈ (after actions).returned ∨ Named (actions ++ [a]) x.1 x.2) : Sound (actions ++ [a]) := by
  refine h.next (ha ▸ hmoves) ?_ fun x hx => hreturned x ?_
  · rw [ha]
    have hself : (mid.set p proc).procs p = proc := if_pos rfl
    rwa [hself]
  · rw [ha] at hx
    exact hx

/-- The same for a process that writes nothing but its own state. -/
theorem Sound.stays (h : Sound actions) {mid : System} (ha : after (actions ++ [a]) = mid.set p proc) (hdb : mid.db = (after actions).db)
    (hprocs : mid.procs = (after actions).procs) (hshared : mid.shared = (after actions).shared)
    (hexclusive : mid.exclusive = (after actions).exclusive) (hproc : ProcSound actions (after actions) p proc)
    (hreturned : ∀ x ∈ mid.returned, x ∈ (after actions).returned ∨ Named actions x.1 x.2) : Sound (actions ++ [a]) := by
  obtain ⟨db, exclusive, shared, procs, returned⟩ := mid
  cases hdb
  cases hprocs
  cases hshared
  cases hexclusive
  refine h.becomes ha ⟨h.numbered, .inl (.refl _), fun q hq => if_neg hq, fun _ _ hq => hq, fun _ _ hq => hq, h.fence⟩ ?_ fun x hx => ?_
  · rw [← ha]
    exact hproc.mono (List.prefix_append _ _) (by rw [ha]; exact le_rfl) (fun hq => by rw [ha]; exact ⟨hq, rfl⟩)
      fun hq => by rw [ha]; exact hq
  · exact (hreturned x hx).imp_right fun hnamed => hnamed.mono (List.prefix_append _ _)

theorem Sound.set (h : Sound actions) (ha : after (actions ++ [a]) = (after actions).set p proc)
    (hproc : ProcSound actions (after actions) p proc) : Sound (actions ++ [a]) :=
  h.stays ha rfl rfl rfl rfl hproc fun _ hx => .inl hx

theorem Sound.returns (h : Sound actions) {epoch : Option Nat}
    (ha : after (actions ++ [a]) = (after actions).returns p proc ids epoch)
    (hproc : ProcSound actions (after actions) p proc) (hnamed : Named actions ids epoch) : Sound (actions ++ [a]) := by
  refine h.stays ha rfl rfl rfl rfl hproc fun x hx => ?_
  rcases List.mem_append.mp hx with hx | hx
  · exact .inl hx
  · rw [List.mem_singleton.mp hx]
    exact .inr hnamed

/-- The end of a transaction, with what it wrote. -/
theorem Sound.leave (h : Sound actions) {db : Database}
    (ha : after (actions ++ [a]) = ({ after actions with db := db } : System).leave p) (hnumbered : Numbered db)
    (hdb : Grows (after actions).db db ∨ db.epoch = (after actions).db.epoch + 1 ∧ (after actions).exclusive = some p) :
    Sound (actions ++ [a]) := by
  refine h.becomes ha ⟨hnumbered, hdb, fun q hq => if_neg hq, fun q hq hmem => ?_, fun q hq hex => ?_, fun q hex => ?_⟩ trivial
    fun x hx => .inl hx
  · exact List.mem_filter.mpr ⟨hmem, by simpa using hq⟩
  · exact Option.filter_eq_some_iff.mpr ⟨hex, by simpa using hq⟩
  · have hshared := h.fence q (Option.filter_eq_some_iff.mp hex).1
    change (after actions).shared.filter _ = []
    rw [hshared, List.filter_nil]

/-- A write that no process of the model makes. -/
theorem Sound.world (h : Sound actions) {db : Database} (ha : after (actions ++ [a]) = { after actions with db := db })
    (hnumbered : Numbered db) (hgrows : Grows (after actions).db db) : Sound (actions ++ [a]) := by
  have hmoves : Moves (after actions) { after actions with db := db } 0 :=
    ⟨hnumbered, .inl hgrows, fun _ _ => rfl, fun _ _ hq => hq, fun _ _ hq => hq, h.fence⟩
  refine h.next (ha ▸ hmoves) ?_ fun x hx => .inl ?_
  · have hself : (after (actions ++ [a])).procs 0 = (after actions).procs 0 := by rw [ha]
    rw [hself]
    refine (h.procs 0).mono (List.prefix_append _ _) ?_ (fun hq => ?_) fun hq => ?_
    · rw [ha]
      exact hgrows.epoch.ge
    · rw [ha]
      exact ⟨hq, hgrows.epoch⟩
    · rw [ha]
      exact hq
  · rw [ha] at hx
    exact hx

theorem Sound.same (h : Sound actions) (ha : after (actions ++ [a]) = after actions) : Sound (actions ++ [a]) :=
  h.world ha h.numbered (.refl _)

/-! ### The encoders -/

/-- New terms are registered under the epoch of the moment. -/
theorem Sound.insert (h : Sound actions) {n epoch : Nat} {order : List Term}
    (hsound : epoch ≤ (after actions).db.epoch ∧ ∀ r ∈ ids, Seen actions epoch r) (horder : order.Perm (missing job.uniq ids))
    (ha : after (actions ++ [a]) = ({ after actions with db := ((after actions).db.insertTerms order).1 } : System).set p
      (.document job (.reread n epoch (ids ++ ((after actions).db.insertTerms order).2)))) : Sound (actions ++ [a]) := by
  have hterms : ∀ t ∈ order, t ≠ [] := fun t ht => nonempty_of_missing (horder.mem_iff.mp ht)
  have hinserts := h.numbered.insertTerms order hterms
  have hepoch : epoch ≤ ((after actions).db.insertTerms order).1.epoch := by
    rw [hinserts.epoch]
    exact hsound.1
  have hdb : (after (actions ++ [a])).db = ((after actions).db.insertTerms order).1 := by
    rw [ha]
    rfl
  refine h.becomes ha ⟨hinserts.numbered, .inl hinserts.toGrows, fun q hq => if_neg hq, fun _ _ hq => hq, fun _ _ hq => hq, h.fence⟩
    ⟨hdb ▸ hepoch, fun r hr => ?_⟩ fun _ hx => .inl hx
  rcases List.mem_append.mp hr with hr | hr
  · exact (hsound.2 r hr).mono (List.prefix_append _ _)
  · exact .now (hdb ▸ hepoch) (hdb ▸ (hinserts.rows r hr).1)

theorem Sound.lookupNext (h : Sound actions) {order : List Term} {next : Lookup}
    (hproc : (after actions).procs p = .document job next)
    (ha : after (actions ++ [a]) = (after actions).lookupNext p job order next) : Sound (actions ++ [a]) := by
  have hsound : LookupSound actions next := by
    have := h.procs p
    rwa [hproc] at this
  cases next with
  | fence n =>
    simp only [System.lookupNext] at ha
    split at ha
    · exact h.set ha trivial
    · exact h.set ha trivial
  | read n =>
    simp only [System.lookupNext] at ha
    have hnow : ∀ r ∈ (after actions).db.lookup job.uniq, Seen actions (after actions).db.epoch r :=
      fun r hr => .now le_rfl (mem_lookup hr)
    split at ha
    · next hmissing =>
      have hnamed := h.named_of_seen rfl hnow
      exact h.returns ha ⟨hnamed, covers_of_missing hmissing⟩ hnamed
    · exact h.set ha ⟨le_rfl, hnow⟩
  | insert n epoch ids =>
    simp only [System.lookupNext] at ha
    split at ha
    · next horder => exact h.insert hsound horder ha
    · exact h.same ha
  | reread n epoch ids =>
    refine h.set ha fun r hr => ?_
    rcases List.mem_append.mp hr with hr | hr
    · exact hsound.2 r hr
    · exact .now hsound.1 (mem_lookup hr)
  | recheck n epoch ids =>
    simp only [System.lookupNext] at ha
    split at ha
    · next hepoch =>
      split at ha
      · next hmissing =>
        have hnamed := h.named_of_seen hepoch hsound
        exact h.returns ha ⟨hnamed, covers_of_missing hmissing⟩ hnamed
      · exact h.set ha trivial
    · cases n with
      | zero => exact h.set ha trivial
      | succ n => exact h.set ha trivial

theorem Sound.queryNext (h : Sound actions) {uniq : List Term} {raw : Bool} {next : Query}
    (hproc : (after actions).procs p = .query uniq raw next)
    (ha : after (actions ++ [a]) = (after actions).queryNext p uniq raw next) : Sound (actions ++ [a]) := by
  have hsound : QuerySound actions next := by
    have := h.procs p
    rwa [hproc] at this
  have hnow {epoch : Nat} (hepoch : epoch ≤ (after actions).db.epoch) : ∀ r ∈ (after actions).db.lookup uniq, Seen actions epoch r :=
    fun r hr => .now hepoch (mem_lookup hr)
  cases next with
  | fence n =>
    simp only [System.queryNext] at ha
    split at ha
    · exact h.set ha trivial
    · exact h.set ha trivial
  | epoch n =>
    simp only [System.queryNext] at ha
    split at ha
    · exact h.set ha (le_refl (after actions).db.epoch)
    · exact h.set ha (le_refl (after actions).db.epoch)
  | rawIds n epoch => exact h.set ha (hnow hsound)
  | innerEpoch n epoch inner => exact h.set ha hsound
  | innerIds n epoch inner innerEpoch =>
    simp only [System.queryNext] at ha
    split at ha
    · exact h.set ha fun r hr => by cases hr
    · exact h.set ha ⟨hsound, hnow hsound⟩
  | innerCheck n epoch inner innerEpoch ids =>
    simp only [System.queryNext] at ha
    split at ha
    · exact h.set ha hsound.2
    · cases inner with
      | zero => exact h.set ha trivial
      | succ inner => exact h.set ha hsound.1
  | check n epoch ids =>
    simp only [System.queryNext] at ha
    split at ha
    · next hepoch =>
      refine h.returns ha trivial ?_
      by_cases hnil : ids = []
      · rw [if_pos hnil]
        exact hnil
      · rw [if_neg hnil]
        exact h.named_of_seen hepoch hsound
    · cases n with
      | zero => exact h.set ha trivial
      | succ n => exact h.set ha trivial

/-! ### The stores and the renumbering -/

/-- Ids that pass the check make the vector that the vocabulary makes. -/
theorem Sound.vector_eq (h : Sound actions) {epoch : Option Nat} (hnamed : Named actions ids epoch) (hcovers : Covers job ids)
    (hepoch : ∀ e ∈ epoch, (after actions).db.epoch = e) : vector ids job.counts = vector (after actions).db.vocab.rows job.counts := by
  refine h.numbered.vector_eq ?_ hcovers
  cases epoch with
  | none =>
    have hnil : ids = [] := hnamed
    rw [hnil]
    exact fun r hr => by cases hr
  | some epoch => exact h.mem_of_named (hepoch epoch rfl) hnamed

theorem Sound.store (h : Sound actions) {epoch : Option Nat} (hproc : (after actions).procs p = .checked job ids epoch)
    (ha : after (actions ++ [a]) = (after actions).store p job ids) : Sound (actions ++ [a]) := by
  have hsound := h.procs p
  rw [hproc] at hsound
  obtain ⟨hnamed, hcovers, hfence⟩ := hsound
  have hvector := h.vector_eq hnamed hcovers fun e he => (hfence e he).2
  have hvocab : ∀ r ∈ ids, r ∈ (after actions).db.vocab := by
    cases epoch with
    | none =>
      have hnil : ids = [] := hnamed
      rw [hnil]
      exact fun r hr => by cases hr
    | some epoch => exact h.mem_of_named (hfence epoch rfl).2 hnamed
  unfold System.store at ha
  split at ha
  · refine h.leave ha ⟨h.numbered.below, h.numbered.distinct, h.numbered.nonempty, fun v hv => ?_, fun v hv c hc hne => ?_,
      h.numbered.recorded⟩ (.inl ⟨rfl, fun r hr => hr⟩)
    · rcases Table.mem_upsert.mp hv with rfl | ⟨hv, -⟩
      · exact hvector
      · exact h.numbered.valid v hv
    · rcases Table.mem_upsert.mp hv with rfl | ⟨hv, -⟩
      · obtain ⟨r, hr, hterm⟩ := hcovers c hc hne
        exact ⟨r, hvocab r hr, hterm⟩
      · exact h.numbered.complete v hv c hc hne
  · exact h.leave ha h.numbered (.inl (.refl _))

theorem Sound.commitRenumber (h : Sound actions) {revert : Bool} (hproc : (after actions).procs p = .renumbering)
    (ha : after (actions ++ [a]) = ({ after actions with
      db := (if revert then (after actions).db.revert else (after actions).db.apply).getD (after actions).db } : System).leave p) :
    Sound (actions ++ [a]) := by
  have hexclusive := h.procs p
  rw [hproc] at hexclusive
  cases hrun : if revert then (after actions).db.revert else (after actions).db.apply with
  | none =>
    rw [hrun, Option.getD_none] at ha
    exact h.leave ha h.numbered (.inl (.refl _))
  | some db =>
    rw [hrun, Option.getD_some] at ha
    cases revert with
    | true =>
      obtain ⟨hnumbered, hepoch⟩ := h.numbered.revert hrun
      exact h.leave ha hnumbered (.inr ⟨hepoch, hexclusive⟩)
    | false =>
      obtain ⟨hnumbered, hgrows | hepoch⟩ := h.numbered.apply hrun
      · exact h.leave ha hnumbered (.inl hgrows)
      · exact h.leave ha hnumbered (.inr ⟨hepoch, hexclusive⟩)

theorem Sound.startStore (h : Sound actions) {epoch : Nat} (hproc : (after actions).procs p = .encoded job ids (some epoch))
    (hfree : ¬ (after actions).exclusive.isSome)
    (ha : after (actions ++ [a]) =
      ({ after actions with shared := p :: (after actions).shared } : System).set p (.fenced job ids epoch)) :
    Sound (actions ++ [a]) := by
  have hsound := h.procs p
  rw [hproc] at hsound
  have hnone : (after actions).exclusive = none := by simpa using hfree
  refine h.becomes ha ⟨h.numbered, .inl (.refl _), fun q hq => if_neg hq, fun _ _ hq => List.mem_cons_of_mem _ hq, fun _ _ hq => hq,
    fun q hq => ?_⟩ ⟨hsound.1.mono (List.prefix_append _ _), hsound.2, List.mem_cons_self⟩ fun _ hx => .inl hx
  change (after actions).exclusive = some q at hq
  rw [hnone] at hq
  cases hq

theorem Sound.startRenumber (h : Sound actions) (hfree : (after actions).exclusive = none ∧ (after actions).shared = [])
    (ha : after (actions ++ [a]) = ({ after actions with exclusive := some p } : System).set p .renumbering) :
    Sound (actions ++ [a]) := by
  refine h.becomes ha ⟨h.numbered, .inl (.refl _), fun q hq => if_neg hq, fun _ _ hq => hq, fun q _ hq => ?_, fun _ _ => hfree.2⟩ rfl
    fun _ hx => .inl hx
  rw [hfree.1] at hq
  cases hq

/-! ### Every history -/

theorem Sound.step (h : Sound actions) (a : Action) : Sound (actions ++ [a]) := by
  have ha := after_snoc actions a
  cases a with
  | startDocument p job =>
    simp only [System.act] at ha
    split at ha
    · split at ha
      · next huniq =>
        refine h.returns ha ⟨rfl, covers_of_missing ?_⟩ rfl
        rw [huniq]
        rfl
      · exact h.set ha trivial
    · exact h.same ha
  | startQuery p uniq raw =>
    simp only [System.act] at ha
    split at ha
    · exact h.set ha trivial
    · exact h.same ha
  | advance p order =>
    simp only [System.act] at ha
    split at ha
    · next hproc => exact h.lookupNext hproc ha
    · next hproc => exact h.queryNext hproc ha
    · next job ids epoch hproc =>
      have hsound := h.procs p
      rw [hproc] at hsound
      split at ha
      · next hepoch =>
        refine h.set ha ⟨hsound.1, hsound.2.1, fun e he => ?_⟩
        cases he
        exact ⟨hsound.2.2, hepoch⟩
      · exact h.leave ha h.numbered (.inl (.refl _))
    · next hproc => exact h.store hproc ha
    · exact h.same ha
  | startStore p =>
    simp only [System.act] at ha
    split at ha
    · next job ids hproc =>
      have hsound := h.procs p
      rw [hproc] at hsound
      exact h.set ha ⟨hsound.1, hsound.2, fun e he => by cases he⟩
    · next job ids epoch hproc =>
      split at ha
      · exact h.set ha trivial
      · next hfree => exact h.startStore hproc hfree ha
    · exact h.same ha
  | startRenumber p =>
    simp only [System.act] at ha
    split at ha
    · split at ha
      · next hfree => exact h.startRenumber hfree ha
      · exact h.same ha
    · exact h.same ha
  | commitRenumber p revert =>
    simp only [System.act] at ha
    split at ha
    · next hproc => exact h.commitRenumber hproc ha
    · exact h.same ha
  | fail p => exact h.leave ha h.numbered (.inl (.refl _))
  | insertChunk chunkId =>
    exact h.world ha ⟨h.numbered.below, h.numbered.distinct, h.numbered.nonempty, h.numbered.valid, h.numbered.complete,
      h.numbered.recorded⟩ ⟨rfl, fun r hr => hr⟩
  | deleteChunk chunkId =>
    exact h.world ha ⟨h.numbered.below, h.numbered.distinct, h.numbered.nonempty, h.numbered.valid, h.numbered.complete,
      h.numbered.recorded⟩ ⟨rfl, fun r hr => hr⟩
  | deleteVector chunkId =>
    exact h.world ha ⟨h.numbered.below, h.numbered.distinct, h.numbered.nonempty,
      fun v hv => h.numbered.valid v (Table.mem_deleteWhere.mp hv).1,
      fun v hv => h.numbered.complete v (Table.mem_deleteWhere.mp hv).1, h.numbered.recorded⟩ ⟨rfl, fun r hr => hr⟩

theorem sound_after (actions : List Action) : Sound actions := by
  induction actions using List.reverseRecOn with
  | nil =>
    refine ⟨numbered_fresh, fun past hpast => ?_, fun p => trivial, fun x hx => ?_, fun _ _ => rfl⟩
    · rw [List.prefix_nil.mp hpast]
      exact ⟨le_rfl, fun _ r hr => hr⟩
    · cases hx
  | append_singleton actions a ih => exact ih.step a

theorem Sound.one_numbering (h : Sound actions) {past : List Action} (hpast : past <+: actions)
    (hepoch : (after past).db.epoch = (after actions).db.epoch) {r r' : VocabRow} (hr : r ∈ (after past).db.vocab)
    (hr' : r' ∈ (after actions).db.vocab) : r.term = r'.term ↔ r.termId = r'.termId := by
  have hmem := (h.older past hpast).2 hepoch r hr
  constructor
  · intro hterm
    rw [Table.eq_of_key hmem hr' hterm]
  · intro hid
    rw [h.numbered.distinct r hmem r' hr' hid]

/-- In every history an encoder returns ids of the one numbering that its epoch names, and every stored vector holds what its text
is encoded to under the numbering in force. -/
theorem ids_follow_numbering (actions : List Action) :
    (∀ x ∈ (after actions).returned, Named actions x.1 x.2) ∧
      (∀ past past', past <+: actions → past' <+: actions → (after past).db.epoch = (after past').db.epoch →
        ∀ r ∈ (after past).db.vocab, ∀ r' ∈ (after past').db.vocab, r.term = r'.term ↔ r.termId = r'.termId) ∧
      ∀ v ∈ (after actions).db.vectors, Valid (after actions).db v := by
  refine ⟨(sound_after actions).returned, fun past past' hpast hpast' hepoch r hr r' hr' => ?_, (sound_after actions).numbered.valid⟩
  rcases List.prefix_or_prefix_of_prefix hpast hpast' with hpre | hpre
  · exact (sound_after past').one_numbering hpre hepoch hr hr'
  · rw [eq_comm, (sound_after past).one_numbering hpre hepoch.symm hr' hr, eq_comm]

/-- A chunk that is encoded, stored and renumbered: the id of its only term goes from 1 to 0. -/
example : (after [.insertChunk 7, .startDocument 1 ⟨7, [(['a'], 2)]⟩, .advance 1 [], .advance 1 [], .advance 1 [['a']], .advance 1 [],
    .advance 1 [], .startStore 1, .advance 1 [], .advance 1 [], .startRenumber 2, .commitRenumber 2 false]).db.vectors.rows.map
      Stored.entries = [[(0, 2)]] := by decide

end Akb.Bm25.Vocabulary
