import Akb.Search.HybridSearch

/-! When the search by two legs says what it covers: unless it is given an empty list of source types. -/
namespace Akb.Search.Hybrid
open Posting (Uuid Chunk FilterCol Admitted)

variable {ε : Type} {store : Store} {r : Request} {o : Outcomes ε}

/-! ### Fusion -/

theorem bump_eq {scores : List (Uuid × ℚ)} (h : (scores.map Prod.fst).Nodup) (id : Uuid) (x : ℚ) :
    bump scores id x =
      if id ∈ scores.map Prod.fst then scores.map fun e => (e.1, if e.1 = id then e.2 + x else e.2) else scores ++ [(id, 0 + x)] := by
  induction scores with
  | nil => rfl
  | cons e scores ih =>
    rw [List.map_cons, List.nodup_cons] at h
    rw [bump]
    by_cases he : e.1 = id
    · have hrest : scores.map (fun f => (f.1, if f.1 = id then f.2 + x else f.2)) = scores := by
        conv_rhs => rw [← List.map_id scores]
        refine List.map_congr_left fun f hf => ?_
        have hne : f.1 ≠ id := fun heq => h.1 (he ▸ heq ▸ List.mem_map_of_mem hf)
        rw [if_neg hne]
        rfl
      rw [if_pos he, List.map_cons, if_pos (List.mem_cons.mpr (.inl he.symm)), List.map_cons, if_pos he, hrest]
    · rw [if_neg he, ih h.2, List.map_cons]
      by_cases hmem : id ∈ scores.map Prod.fst
      · rw [if_pos hmem, if_pos (List.mem_cons_of_mem _ hmem), List.map_cons, if_neg he]
      · rw [if_neg hmem, if_neg (fun hor => (List.mem_cons.mp hor).elim (fun heq => he heq.symm) hmem)]
        rfl

theorem reciprocalRank_of_notMem {ranked : List Uuid} {id : Uuid} (h : id ∉ ranked) (k : Nat) : reciprocalRank k ranked id = 0 := by
  induction ranked generalizing k with
  | nil => rfl
  | cons i ranked ih =>
    rw [List.mem_cons, not_or] at h
    rw [reciprocalRank, if_neg (Ne.symm h.1), ih h.2]

/-- A list of ranks adds to the scores that stand, and appends the others in its order. -/
theorem addRanks_eq {ranked : List Uuid} (hranked : ranked.Nodup) {scores : List (Uuid × ℚ)} (hscores : (scores.map Prod.fst).Nodup)
    (k : Nat) : addRanks scores k ranked =
      scores.map (fun e => (e.1, e.2 + reciprocalRank k ranked e.1)) ++
        (ranked.filter (· ∉ scores.map Prod.fst)).map fun id => (id, reciprocalRank k ranked id) := by
  induction ranked generalizing scores k with
  | nil =>
    simp [addRanks, reciprocalRank]
  | cons i ranked ih =>
    obtain ⟨hi, hranked⟩ := List.nodup_cons.mp hranked
    have hne {id : Uuid} (hid : id ∈ ranked) : i ≠ id := fun heq => hi (heq ▸ hid)
    have hstep : addRanks scores k (i :: ranked) = addRanks (bump scores i (1 / ((rrfK + k : Nat) : ℚ))) (k + 1) ranked := rfl
    rw [hstep, bump_eq hscores]
    by_cases hmem : i ∈ scores.map Prod.fst
    · rw [if_pos hmem]
      have hkeys : (scores.map fun e => (e.1, if e.1 = i then e.2 + 1 / ((rrfK + k : Nat) : ℚ) else e.2)).map Prod.fst =
          scores.map Prod.fst := by
        rw [List.map_map]
        rfl
      rw [ih hranked (hkeys ▸ hscores), hkeys, List.map_map, List.filter_cons, if_neg (by simpa using hmem)]
      congr 1
      · refine List.map_congr_left fun e _ => ?_
        by_cases he : e.1 = i
        · simp [reciprocalRank, he, reciprocalRank_of_notMem hi]
        · simp [reciprocalRank, he, Ne.symm he]
      · refine List.map_congr_left fun id hid => ?_
        rw [reciprocalRank, if_neg (hne (List.mem_of_mem_filter hid))]
    · rw [if_neg hmem]
      have hkeys : ((scores ++ [(i, 0 + 1 / ((rrfK + k : Nat) : ℚ))]).map Prod.fst) = scores.map Prod.fst ++ [i] := by
        rw [List.map_append]
        rfl
      have hnodup : (scores.map Prod.fst ++ [i]).Nodup := by
        rw [List.nodup_append]
        refine ⟨hscores, List.nodup_singleton i, fun a ha b hb => ?_⟩
        rw [List.mem_singleton.mp hb]
        exact fun heq => hmem (heq ▸ ha)
      have hfilter : ranked.filter (· ∉ scores.map Prod.fst ++ [i]) = ranked.filter (· ∉ scores.map Prod.fst) := by
        refine List.filter_congr fun id hid => ?_
        simp [Ne.symm (hne hid)]
      rw [ih hranked (hkeys ▸ hnodup), hkeys, hfilter, List.map_append, List.filter_cons, if_pos (by simpa using hmem),
        List.append_assoc]
      congr 1
      · refine List.map_congr_left fun e he => ?_
        have hei : i ≠ e.1 := fun heq => hmem (heq ▸ List.mem_map_of_mem he)
        rw [reciprocalRank, if_neg hei]
      · refine congrArg₂ List.cons (congrArg (Prod.mk i) ?_) (List.map_congr_left fun id hid => ?_)
        · rw [reciprocalRank_of_notMem hi, reciprocalRank, if_pos rfl, add_zero, zero_add]
        · rw [reciprocalRank, if_neg (hne (List.mem_of_mem_filter hid))]

/-- The code's fusion is that of the reciprocal ranks. -/
theorem rrf_eq {dense sparse : List Uuid} (hdense : dense.Nodup) (hsparse : sparse.Nodup) :
    sortedByScore (rrf [dense, sparse]) = fusion dense sparse := by
  have hfirst : addRanks [] 1 dense = dense.map fun id => (id, reciprocalRank 1 dense id) := by
    have hnil : (([] : List (Uuid × ℚ)).map Prod.fst).Nodup := List.nodup_nil
    rw [addRanks_eq hdense hnil]
    simp
  have hkeys : (dense.map fun id => (id, reciprocalRank 1 dense id)).map Prod.fst = dense := by
    rw [List.map_map]
    exact List.map_id dense
  have hfused : rrf [dense, sparse] =
      (dense ++ sparse.filter (· ∉ dense)).map fun id => (id, reciprocalRank 1 dense id + reciprocalRank 1 sparse id) := by
    show addRanks (addRanks [] 1 dense) 1 sparse = _
    rw [hfirst, addRanks_eq hsparse (hkeys.symm ▸ hdense), hkeys, List.map_map, List.map_append]
    refine congrArg _ (List.map_congr_left fun id hid => ?_)
    have hout : id ∉ dense := of_decide_eq_true (List.mem_filter.mp hid).2
    rw [reciprocalRank_of_notMem hout, zero_add]
  rw [hfused, fusion]

theorem sortedByScore_pairwise (scores : List (Uuid × ℚ)) : (sortedByScore scores).Pairwise fun a b => b.2 ≤ a.2 := by
  have : Std.Total fun a b : Uuid × ℚ => b.2 ≤ a.2 := ⟨fun a b => le_total b.2 a.2⟩
  have : IsTrans (Uuid × ℚ) fun a b => b.2 ≤ a.2 := ⟨fun _ _ _ hab hbc => hbc.trans hab⟩
  exact List.pairwise_insertionSort _ scores

theorem fusion_ids_nodup {dense sparse : List Uuid} (hdense : dense.Nodup) (hsparse : sparse.Nodup) :
    ((fusion dense sparse).map Prod.fst).Nodup := by
  have hperm : ((fusion dense sparse).map Prod.fst).Perm (dense ++ sparse.filter (· ∉ dense)) := by
    refine ((List.perm_insertionSort _ _).map Prod.fst).trans ?_
    rw [List.map_map]
    exact List.Perm.of_eq (List.map_id _)
  rw [hperm.nodup_iff, List.nodup_append]
  refine ⟨hdense, hsparse.filter _, fun a ha b hb heq => ?_⟩
  exact of_decide_eq_true (List.mem_filter.mp hb).2 (heq ▸ ha)

theorem mem_fusion {dense sparse : List Uuid} {e : Uuid × ℚ} (h : e ∈ fusion dense sparse) : e.1 ∈ dense ∨ e.1 ∈ sparse := by
  rw [fusion, sortedByScore, List.mem_insertionSort] at h
  obtain ⟨id, hid, rfl⟩ := List.mem_map.mp h
  exact (List.mem_append.mp hid).imp_right List.mem_of_mem_filter

theorem zipIdx_scores {ids : List Uuid} (h : ids.Nodup) (k : Nat) :
    (ids.zipIdx k).map (fun e => (e.1, 1 / ((rrfK + e.2 : Nat) : ℚ))) = ids.map fun id => (id, reciprocalRank k ids id) := by
  induction ids generalizing k with
  | nil => rfl
  | cons i ids ih =>
    obtain ⟨hi, hids⟩ := List.nodup_cons.mp h
    rw [List.zipIdx_cons, List.map_cons, ih hids, List.map_cons, reciprocalRank, if_pos rfl]
    refine congrArg _ (List.map_congr_left fun id hid => ?_)
    have hne : i ≠ id := fun heq => hi (heq ▸ hid)
    rw [reciprocalRank, if_neg hne]

theorem zipIdx_pairwise (ids : List Uuid) (k : Nat) :
    ((ids.zipIdx k).map fun e => (e.1, 1 / ((rrfK + e.2 : Nat) : ℚ))).Pairwise fun a b => b.2 ≤ a.2 := by
  induction ids generalizing k with
  | nil => exact List.Pairwise.nil
  | cons i ids ih =>
    rw [List.zipIdx_cons, List.map_cons, List.pairwise_cons]
    refine ⟨fun e he => ?_, ih (k + 1)⟩
    obtain ⟨x, hx, rfl⟩ := List.mem_map.mp he
    have hle : k + 1 ≤ x.2 := List.le_snd_of_mem_zipIdx hx
    have hpos : (0 : ℚ) < ((rrfK + k : Nat) : ℚ) := by
      rw [rrfK]
      exact_mod_cast (by omega : 0 < 60 + k)
    exact one_div_le_one_div_of_le hpos (by exact_mod_cast (by omega : rrfK + k ≤ rrfK + x.2))

/-- The fusion of one list is the list. -/
theorem fusion_one {ids : List Uuid} (h : ids.Nodup) : fusion ids [] = placed ids ∧ fusion [] ids = placed ids := by
  have hplaced : placed ids = ids.map fun id => (id, reciprocalRank 1 ids id) := zipIdx_scores h 1
  have hsorted : sortedByScore (placed ids) = placed ids := List.Pairwise.insertionSort_eq (zipIdx_pairwise ids 1)
  constructor
  · rw [← hsorted, hplaced, fusion]
    simp [reciprocalRank]
  · rw [← hsorted, hplaced, fusion]
    simp [reciprocalRank]

theorem zipIdx_take (ids : List Uuid) (n k : Nat) : (ids.take n).zipIdx k = (ids.zipIdx k).take n := by
  induction ids generalizing n k with
  | nil => simp
  | cons i ids ih =>
    cases n with
    | zero => rfl
    | succ n => rw [List.take_succ_cons, List.zipIdx_cons, List.zipIdx_cons, List.take_succ_cons, ih]

theorem placed_take (ids : List Uuid) (n : Nat) : placed (ids.take n) = (placed ids).take n := by
  rw [placed, placed, ← List.map_take, zipIdx_take]

/-! ### Legs -/

def top (r : Request) (o : Outcomes ε) : List (Uuid × ℚ) :=
  (fusion (Legs.ids (r.legs o).dense) (Legs.ids (r.legs o).sparse)).take r.limit

theorem ids_of_incomplete {leg : Option (Outcome (List Uuid) ε)} (h : Legs.status leg ≠ .complete) : Legs.ids leg = [] := by
  cases leg with
  | none => rfl
  | some x =>
    cases x with
    | complete ids => exact absurd rfl h
    | timeout => rfl
    | unavailable => rfl
    | error e => rfl

/-- What the legs have is ranked as their fusion. -/
theorem scoring_eq {l : Legs ε} (hdense : (Legs.ids l.dense).Nodup) (hsparse : (Legs.ids l.sparse).Nodup) (limit : Nat) :
    l.scoring limit = (fusion (Legs.ids l.dense) (Legs.ids l.sparse)).take limit := by
  unfold Legs.scoring
  split
  · rename_i h
    rw [ids_of_incomplete h.2, (fusion_one hdense).1, placed_take]
  · split
    · rename_i h
      rw [ids_of_incomplete h.2, (fusion_one hsparse).2, placed_take]
    · rw [rrf_eq hdense hsparse]

theorem mem_legs {leg : Option (Outcome (List Uuid) ε)} {id : Uuid} (h : id ∈ Legs.ids leg) :
    ∃ ids, leg = some (.complete ids) ∧ id ∈ ids := by
  cases leg with
  | none => cases h
  | some x =>
    cases x with
    | complete ids => exact ⟨ids, rfl, h⟩
    | timeout => cases h
    | unavailable => cases h
    | error e => cases h

theorem legs_complete {ids : List Uuid} :
    ((r.legs o).dense = some (.complete ids) ↔ r.hasDense ∧ o.dense = .complete ids) ∧
      ((r.legs o).sparse = some (.complete ids) ↔ r.hasSparse ∧ o.sparse = .complete ids) := by
  constructor <;> simp [Request.legs]

/-- An id of a leg is one of the ids that a leg of the request returned. -/
theorem mem_top {e : Uuid × ℚ} (h : e ∈ top r o) :
    ∃ ids, e.1 ∈ ids ∧ ((r.hasDense ∧ o.dense = .complete ids) ∨ (r.hasSparse ∧ o.sparse = .complete ids)) := by
  rcases mem_fusion (List.mem_of_mem_take h) with h | h
  · obtain ⟨ids, hleg, hmem⟩ := mem_legs h
    exact ⟨ids, hmem, .inl (legs_complete.1.mp hleg)⟩
  · obtain ⟨ids, hleg, hmem⟩ := mem_legs h
    exact ⟨ids, hmem, .inr (legs_complete.2.mp hleg)⟩

theorem Lawful.nodup (h : Lawful store r o) : (Legs.ids (r.legs o).dense).Nodup ∧ (Legs.ids (r.legs o).sparse).Nodup := by
  have hleg {leg : Option (Outcome (List Uuid) ε)}
      (hids : ∀ ids, leg = some (.complete ids) → o.dense = .complete ids ∨ o.sparse = .complete ids) : (Legs.ids leg).Nodup := by
    cases leg with
    | none => exact List.nodup_nil
    | some x =>
      cases x with
      | complete ids => exact (h.leg ids (hids ids rfl)).1
      | timeout => exact List.nodup_nil
      | unavailable => exact List.nodup_nil
      | error e => exact List.nodup_nil
  exact ⟨hleg fun ids hids => .inl (legs_complete.1.mp hids).2, hleg fun ids hids => .inr (legs_complete.2.mp hids).2⟩

/-- A chunk of the top list is one that its leg's query admits. -/
theorem Lawful.mem_top (h : Lawful store r o) {e : Uuid × ℚ} (he : e ∈ top r o) :
    0 < r.prefetchPerLeg ∧ ∃ row ∈ store.rows, row.chunkId = e.1 ∧ r.LegAdmits row.toChunk := by
  obtain ⟨ids, hmem, hleg⟩ := Hybrid.mem_top he
  obtain ⟨-, hlength, hrows⟩ := h.leg ids (hleg.imp And.right And.right)
  exact ⟨(List.length_pos_of_mem hmem).trans_le hlength, hrows e.1 hmem⟩

/-! ### Filters -/

/-- The predicates of the legs are the filters, but for an empty list of source types. -/
theorem admits_of_legAdmits {c : Chunk} (hruns : r.Runs) (hboth : ¬ (r.vaultIds.getD [] ≠ [] ∧ r.sourceIds.getD [] ≠ []))
    (htypes : r.sourceTypes ≠ some []) (h : r.LegAdmits c) : r.Admits c := by
  obtain ⟨hsource, hvault, -⟩ := hruns
  obtain ⟨hacl, htype⟩ := h
  have hgiven : ∀ l ∈ r.sourceTypes, c.sourceType ∈ l := by
    intro l hl
    refine htype l (Option.mem_filter_iff.mpr ⟨hl, ?_⟩)
    exact decide_eq_true fun hnil => htypes (hnil ▸ hl)
  cases hv : r.vaultIds with
  | none =>
    cases hs : r.sourceIds with
    | none =>
      refine ⟨?_, ?_, hgiven⟩
      · intro l hl
        rw [hs] at hl
        cases hl
      · intro l hl
        rw [hv] at hl
        cases hl
    | some sources =>
      have hne : sources ≠ [] := fun hnil => hsource (by rw [hs, hnil])
      refine ⟨?_, ?_, hgiven⟩
      · intro l hl
        rw [hs] at hl
        cases hl
        obtain ⟨u, hu, hc⟩ := hacl sources (by simp [Request.aclFilter, hv, hs, hne])
        simp only [Request.aclFilter, hv, hs, Option.getD_none, Option.getD_some, ne_eq, not_true, if_false, hne, not_false_eq_true, if_true,
          FilterCol.value, Option.some.injEq] at hc
        exact hc ▸ hu
      · intro l hl
        rw [hv] at hl
        cases hl
  | some vaults =>
    have hne : vaults ≠ [] := fun hnil => hvault (by rw [hv, hnil])
    refine ⟨?_, ?_, hgiven⟩
    · intro l hl
      refine absurd ⟨?_, ?_⟩ hboth
      · rw [hv]
        exact hne
      · rw [Option.mem_def.mp hl]
        exact fun hnil => hsource ((Option.mem_def.mp hl).trans (congrArg some hnil))
    · intro l hl
      rw [hv] at hl
      cases hl
      obtain ⟨u, hu, hc⟩ := hacl vaults (by simp [Request.aclFilter, hv, hne])
      simp only [Request.aclFilter, hv, Option.getD_some, ne_eq, hne, not_false_eq_true, if_true] at hc
      exact ⟨u, hu, hc⟩

/-- What can be returned at all meets the filters. -/
theorem top_admitted (hlawful : Lawful store r o) (hruns : r.Runs)
    (hboth : ¬ (r.vaultIds.getD [] ≠ [] ∧ r.sourceIds.getD [] ≠ [])) (h : r.sourceTypes = some [] → Barren store r)
    {e : Uuid × ℚ} (he : e ∈ top r o) : ∃ row ∈ store.rows, row.chunkId = e.1 ∧ r.Admits row.toChunk := by
  obtain ⟨hprefetch, row, hrow, hid, hadmits⟩ := hlawful.mem_top he
  by_cases htypes : r.sourceTypes = some []
  · rcases h htypes with hno | hacl | hlimit | hzero | hnone
    · exact absurd hruns hno
    · exact absurd hacl hboth
    · rw [top, hlimit, List.take_zero] at he
      cases he
    · omega
    · exact absurd hadmits (hnone row hrow)
  · exact ⟨row, hrow, hid, admits_of_legAdmits hruns hboth htypes hadmits⟩

/-! ### Payloads -/

theorem byId_spec {rows : List Row} {ids : List Uuid}
    (hrows : rows.Perm (store.rows.filter fun row => row.chunkId ∈ ids ∧ o.remains row.chunkId)) {id : Uuid} (hid : id ∈ ids)
    (hstored : ∃ row ∈ store.rows, row.chunkId = id) :
    (byId rows id).map (fun row => row.chunkId) = if o.remains id then some id else none := by
  have hmem (row : Row) : row ∈ rows ↔ row ∈ store.rows ∧ row.chunkId ∈ ids ∧ o.remains row.chunkId := by
    rw [hrows.mem_iff, List.mem_filter, decide_eq_true_iff]
  rw [byId]
  cases hfind : rows.reverse.find? fun row => decide (row.chunkId = id) with
  | none =>
    have hnone : ∀ row ∈ rows, row.chunkId ≠ id := by
      intro row hrow heq
      exact List.find?_eq_none.mp hfind row (List.mem_reverse.mpr hrow) (decide_eq_true heq)
    obtain ⟨row, hrow, rfl⟩ := hstored
    rw [if_neg fun hremains => hnone row ((hmem row).mpr ⟨hrow, hid, hremains⟩) rfl]
    rfl
  | some row =>
    have hkey := List.find?_some hfind
    simp only [decide_eq_true_eq] at hkey
    obtain ⟨-, -, hremains⟩ := (hmem row).mp (List.mem_reverse.mp (List.mem_of_find?_eq_some hfind))
    rw [if_pos (hkey ▸ hremains), Option.map_some, hkey]

theorem filterMap_filter {α β : Type} {l : List α} {f : α → Option β} {g : β → α} {p : α → Bool}
    (h : ∀ x ∈ l, (f x).map g = if p x then some x else none) : (l.filterMap f).map g = l.filter p := by
  induction l with
  | nil => rfl
  | cons x l ih =>
    have hx := h x List.mem_cons_self
    have hrest := ih fun y hy => h y (List.mem_cons_of_mem x hy)
    rw [List.filterMap_cons, List.filter_cons]
    cases hf : f x with
    | none =>
      rw [hf, Option.map_none] at hx
      rw [if_neg (fun hp => by rw [if_pos hp] at hx; cases hx)]
      exact hrest
    | some y =>
      rw [hf, Option.map_some] at hx
      have hp : p x = true := by
        by_contra hp
        rw [if_neg hp] at hx
        cases hx
      rw [if_pos hp] at hx
      rw [if_pos hp, List.map_cons, hrest, Option.some.inj hx]

/-- The hits of the top list are those of its chunks that remain. -/
theorem hits_eq (hlawful : Lawful store r o) {rows : List Row} (hread : payloadOf o ((top r o).map Prod.fst) = .complete rows) :
    ((top r o).filterMap fun e => (byId rows e.1).map fun row => rowToHit row e.2).map (fun h => (h.chunkId, h.score)) =
      (top r o).filter fun e => o.remains e.1 := by
  refine filterMap_filter fun e he => ?_
  have hid : e.1 ∈ (top r o).map Prod.fst := List.mem_map_of_mem he
  have hne : (top r o).map Prod.fst ≠ [] := List.ne_nil_of_mem hid
  rw [payloadOf, if_neg hne] at hread
  obtain ⟨-, row, hrow, hkey, -⟩ := hlawful.mem_top he
  have hspec := byId_spec (hlawful.payload _ _ hread) hid ⟨row, hrow, hkey⟩
  cases hby : byId rows e.1 with
  | none =>
    rw [hby, Option.map_none] at hspec
    rw [if_neg (fun hremains => by rw [if_pos hremains] at hspec; cases hspec)]
    rfl
  | some found =>
    rw [hby, Option.map_some] at hspec
    have hremains : o.remains e.1 = true := by
      by_contra hremains
      rw [if_neg hremains] at hspec
      cases hspec
    rw [if_pos hremains] at hspec
    rw [if_pos hremains]
    exact congrArg (fun id => some (id, e.2)) (Option.some.inj hspec)

/-! ### Results -/

theorem status_legs : Legs.status (r.legs o).dense = (if r.hasDense then o.dense.status else .skipped) ∧
    Legs.status (r.legs o).sparse = (if r.hasSparse then o.sparse.status else .skipped) := by
  constructor
  · unfold Request.legs
    dsimp only
    split <;> rfl
  · unfold Request.legs
    dsimp only
    split <;> rfl

theorem raised_none {b : Bool} (h : (r.legs o).raised? b = none) (e : ε) :
    (r.hasDense → o.dense ≠ .error e) ∧ (r.hasSparse → o.sparse ≠ .error e) := by
  have hboth : (r.legs o).dense.bind Outcome.raised? = none ∧ (r.legs o).sparse.bind Outcome.raised? = none := by
    unfold Legs.raised? at h
    cases b with
    | false => exact (Option.or_eq_none_iff.mp h).symm
    | true => exact Option.or_eq_none_iff.mp h
  constructor
  · intro hd heq
    have := hboth.1
    rw [Request.legs, hd, heq] at this
    cases this
  · intro hs heq
    have := hboth.2
    rw [Request.legs, hs, heq] at this
    cases this

theorem raised_some {b : Bool} {e : ε} (h : (r.legs o).raised? b = some e) :
    (r.hasDense ∧ o.dense = .error e) ∨ (r.hasSparse ∧ o.sparse = .error e) := by
  have hleg {asked : Bool} {x : Outcome (List Uuid) ε} (hx : (if asked then some x else none).bind Outcome.raised? = some e) :
      asked = true ∧ x = .error e := by
    cases asked with
    | false => cases hx
    | true =>
      cases x with
      | complete ids => cases hx
      | timeout => cases hx
      | unavailable => cases hx
      | error e' => exact ⟨rfl, congrArg Outcome.error (Option.some.inj hx)⟩
  have hor : (r.legs o).dense.bind Outcome.raised? = some e ∨ (r.legs o).sparse.bind Outcome.raised? = some e := by
    unfold Legs.raised? at h
    cases b with
    | false => exact (Option.or_eq_some_iff.mp h).symm.imp (fun h => h.2) id
    | true => exact (Option.or_eq_some_iff.mp h).imp id fun h => h.2
  exact hor.imp hleg hleg

theorem status_failed {α : Type} {x : Outcome α ε} : x.status = .timeout ∨ x.status = .unavailable ↔ x.Failed := by
  cases x <;> simp [Outcome.status, Outcome.Failed]

theorem reason_some {dense sparse : Status} {reason : String} (h : degradationReason dense sparse = some reason) :
    (dense = .timeout ∨ dense = .unavailable) ∨ sparse = .timeout ∨ sparse = .unavailable := by
  cases dense <;> cases sparse <;> simp_all [degradationReason]

theorem reason_none {dense sparse : Status} (h : degradationReason dense sparse = none) :
    (dense ≠ .timeout ∧ dense ≠ .unavailable) ∧ sparse ≠ .timeout ∧ sparse ≠ .unavailable := by
  cases dense <;> cases sparse <;> simp_all [degradationReason]

theorem complete_of_status {α : Type} {x : Outcome α ε} (htimeout : x.status ≠ .timeout) (hunavailable : x.status ≠ .unavailable)
    (herror : ∀ e, x ≠ .error e) : ∃ value, x = .complete value := by
  cases x with
  | complete value => exact ⟨value, rfl⟩
  | timeout => exact absurd rfl htimeout
  | unavailable => exact absurd rfl hunavailable
  | error e => exact absurd rfl (herror e)

/-- The kinds of result, each with what it is to say. -/
def Says (store : Store) (r : Request) (o : Outcomes ε) : Result ε → Prop
  | .hits hits => Complete store r o hits ∧ AllAdmitted store r hits
  | .degraded hits _ => Degraded r o hits ∧ AllAdmitted store r hits
  | .error e => Cause r o e

theorem honest_iff_answer : Honest store r o ↔ Says store r o (hybridSearch r o) := by
  unfold Honest Says
  rfl

theorem allAdmitted_nil : AllAdmitted store r [] := fun _ h => absurd h List.not_mem_nil

theorem top_pairwise : (top r o).Pairwise fun a b => b.2 ≤ a.2 := (sortedByScore_pairwise _).sublist (List.take_sublist _ _)

theorem top_nodup (hlawful : Lawful store r o) : ((top r o).map Prod.fst).Nodup := by
  rw [top, List.map_take]
  exact (fusion_ids_nodup hlawful.nodup.1 hlawful.nodup.2).sublist (List.take_sublist _ _)

/-- What the search makes of legs that raised no error. -/
theorem finish_says (hlawful : Lawful store r o) (hruns : r.Runs) (hraised : (r.legs o).raised? o.denseFirst = none)
    (hadmitted : ∀ e ∈ top r o, ∃ row ∈ store.rows, row.chunkId = e.1 ∧ r.Admits row.toChunk) :
    Says store r o (finish o (r.legs o) r.limit) := by
  have hscoring : (r.legs o).scoring r.limit = top r o := scoring_eq hlawful.nodup.1 hlawful.nodup.2 r.limit
  have hpayload {x : Outcome (List Row) ε} (hread : payloadOf o ((top r o).map Prod.fst) = x) (hx : x ≠ .complete []) :
      o.payload ((top r o).map Prod.fst) = x := by
    unfold payloadOf at hread
    split at hread
    · exact absurd hread.symm hx
    · exact hread
  have hempty : ∀ h ∈ ([] : List Hit), ∃ ids, h.chunkId ∈ ids ∧
      ((r.hasDense ∧ o.dense = .complete ids) ∨ (r.hasSparse ∧ o.sparse = .complete ids)) :=
    fun _ h => absurd h List.not_mem_nil
  unfold finish
  rw [hscoring]
  cases hread : payloadOf o ((top r o).map Prod.fst) with
  | timeout =>
    have hfailed := hpayload hread (by intro h; cases h)
    exact ⟨⟨fun _ => raised_none hraised, .inr (.inr (.inr ⟨_, .inl hfailed⟩)), hempty⟩, allAdmitted_nil⟩
  | unavailable =>
    have hfailed := hpayload hread (by intro h; cases h)
    exact ⟨⟨fun _ => raised_none hraised, .inr (.inr (.inr ⟨_, .inr hfailed⟩)), hempty⟩, allAdmitted_nil⟩
  | error e => exact .payload e _ (hpayload hread (by intro h; cases h))
  | complete rows =>
    have hkeys := hits_eq hlawful hread
    dsimp only
    generalize (top r o).filterMap (fun e => (byId rows e.1).map fun row => rowToHit row e.2) = hits at hkeys ⊢
    have hmem (h : Hit) (hh : h ∈ hits) : (h.chunkId, h.score) ∈ top r o := by
      have := List.mem_map_of_mem (f := fun h : Hit => (h.chunkId, h.score)) hh
      rw [hkeys] at this
      exact List.mem_of_mem_filter this
    have hall : AllAdmitted store r hits := fun h hh => hadmitted _ (hmem h hh)
    cases hreason : degradationReason (Legs.status (r.legs o).dense) (Legs.status (r.legs o).sparse) with
    | some reason =>
      refine ⟨⟨fun _ => raised_none hraised, ?_, fun h hh => mem_top (hmem h hh)⟩, hall⟩
      have hfailed := reason_some hreason
      rw [status_legs.1, status_legs.2] at hfailed
      rcases hfailed with hfailed | hfailed
      · by_cases hd : r.hasDense = true
        · rw [if_pos hd] at hfailed
          exact .inr (.inl ⟨hd, status_failed.mp hfailed⟩)
        · rw [if_neg hd] at hfailed
          simp at hfailed
      · by_cases hs : r.hasSparse = true
        · rw [if_pos hs] at hfailed
          exact .inr (.inr (.inl ⟨hs, status_failed.mp hfailed⟩))
        · rw [if_neg hs] at hfailed
          simp at hfailed
    | none =>
      obtain ⟨hdense, hsparse⟩ := reason_none hreason
      rw [status_legs.1] at hdense
      rw [status_legs.2] at hsparse
      have hscores : hits.map Hit.score = (hits.map fun h => (h.chunkId, h.score)).map Prod.snd := by
        rw [List.map_map]
        rfl
      have hids : hits.map Hit.chunkId = (hits.map fun h => (h.chunkId, h.score)).map Prod.fst := by
        rw [List.map_map]
        rfl
      refine ⟨⟨fun _ hd => ?_, fun _ hs => ?_, fun _ => ⟨rows, hread⟩, fun _ => hkeys, fun h => absurd hruns h, ?_, ?_⟩, hall⟩
      · rw [if_pos hd] at hdense
        exact complete_of_status hdense.1 hdense.2 fun e => (raised_none hraised e).1 hd
      · rw [if_pos hs] at hsparse
        exact complete_of_status hsparse.1 hsparse.2 fun e => (raised_none hraised e).2 hs
      · rw [hscores, hkeys]
        exact List.pairwise_map.mpr (top_pairwise.sublist List.filter_sublist)
      · rw [hids, hkeys]
        exact (top_nodup hlawful).sublist (List.filter_sublist.map Prod.fst)

/-- Where the source types are not an empty list, or nothing can be returned, the search says what it covers. -/
theorem honest_of (hlawful : Lawful store r o) (h : r.sourceTypes = some [] → Barren store r) : Honest store r o := by
  rw [honest_iff_answer]
  have hearly (hno : ¬ r.Runs) : Says store r o (.hits []) :=
    ⟨⟨fun h => absurd h hno, fun h => absurd h hno, fun h => absurd h hno, fun h => absurd h hno, fun _ => rfl, List.Pairwise.nil,
      List.nodup_nil⟩, allAdmitted_nil⟩
  have hpoolFailed (hfailed : o.pool.Failed) : Says store r o (.degraded [] "retrieval_timeout") ∧
      Says store r o (.degraded [] "retrieval_unavailable") := by
    have hdegraded : Degraded r o [] := by
      refine ⟨?_, .inl hfailed, fun _ h => absurd h List.not_mem_nil⟩
      rintro ⟨u, hu⟩
      rcases hfailed with hfailed | hfailed
      · cases hu.symm.trans hfailed
      · cases hu.symm.trans hfailed
    exact ⟨⟨hdegraded, allAdmitted_nil⟩, hdegraded, allAdmitted_nil⟩
  unfold hybridSearch
  split
  · rename_i hempty
    exact hearly fun hruns => hempty.elim hruns.1 hruns.2.1
  rename_i hgiven
  obtain ⟨hsource, hvault⟩ := not_or.mp hgiven
  split
  · rename_i hnone
    exact hearly fun hruns => hruns.2.2.elim hnone.1 hnone.2
  rename_i hsome
  have hruns : r.Runs := ⟨hsource, hvault, by
    by_contra hnone
    exact hsome (not_or.mp hnone)⟩
  split
  · rename_i hboth
    exact .bothFilters hboth.1 hboth.2
  rename_i hboth
  split
  · rename_i hunknown
    exact .unknownTypes hunknown
  cases hpool : o.pool with
  | timeout => exact (hpoolFailed (.inl hpool)).1
  | unavailable => exact (hpoolFailed (.inr hpool)).2
  | error e => exact .pool e hpool
  | complete _ =>
    cases hraised : (r.legs o).raised? o.denseFirst with
    | some e =>
      rcases raised_some hraised with ⟨hd, herror⟩ | ⟨hs, herror⟩
      · exact .dense e hd herror
      · exact .sparse e hs herror
    | none => exact finish_says hlawful hruns hraised fun e he => top_admitted hlawful hruns hboth h he

/-! ### An empty list of source types -/

theorem hybridSearch_runs {u : Unit} (hruns : r.Runs) (hboth : ¬ (r.vaultIds.getD [] ≠ [] ∧ r.sourceIds.getD [] ≠ []))
    (hunknown : ¬ r.unknownTypes ≠ []) (hpool : o.pool = .complete u) (hraised : (r.legs o).raised? o.denseFirst = none) :
    hybridSearch r o = finish o (r.legs o) r.limit := by
  unfold hybridSearch
  rw [if_neg (not_or.mpr ⟨hruns.1, hruns.2.1⟩), if_neg (fun h => hruns.2.2.elim h.1 h.2), if_neg hboth, if_neg hunknown, hpool]
  dsimp only
  rw [hraised]

theorem finish_hits {rows : List Row} (hlawful : Lawful store r o) (hread : payloadOf o ((top r o).map Prod.fst) = .complete rows)
    (hreason : degradationReason (Legs.status (r.legs o).dense) (Legs.status (r.legs o).sparse) = none) :
    finish o (r.legs o) r.limit = .hits ((top r o).filterMap fun e => (byId rows e.1).map fun row => rowToHit row e.2) := by
  have hscoring : (r.legs o).scoring r.limit = top r o := scoring_eq hlawful.nodup.1 hlawful.nodup.2 r.limit
  unfold finish
  rw [hscoring, hread]
  dsimp only
  rw [hreason]

/-- Both legs return one chunk, which remains. -/
def oneChunk (ε : Type) (store : Store) (id : Uuid) : Outcomes ε where
  pool := .complete ()
  dense := .complete [id]
  sparse := .complete [id]
  denseFirst := true
  payload ids := .complete (store.rows.filter fun row => row.chunkId ∈ ids ∧ true)
  remains _ := true

theorem oneChunk_lawful {row : Row} (hrow : row ∈ store.rows) (hadmits : r.LegAdmits row.toChunk) (hprefetch : r.prefetchPerLeg ≠ 0) :
    Lawful store r (oneChunk ε store row.chunkId) := by
  constructor
  case leg =>
    rintro ids (h | h)
    · cases h
      refine ⟨List.nodup_singleton _, Nat.one_le_iff_ne_zero.mpr hprefetch, fun id hid => ⟨row, hrow, ?_, hadmits⟩⟩
      rw [List.mem_singleton.mp hid]
    · cases h
      refine ⟨List.nodup_singleton _, Nat.one_le_iff_ne_zero.mpr hprefetch, fun id hid => ⟨row, hrow, ?_, hadmits⟩⟩
      rw [List.mem_singleton.mp hid]
  case payload =>
    intro ids rows h
    cases h
    exact List.Perm.refl _

/-- The one chunk is returned. -/
theorem oneChunk_returned (id : Uuid) (hlawful : Lawful store r (oneChunk ε store id)) (hruns : r.Runs)
    (hboth : ¬ (r.vaultIds.getD [] ≠ [] ∧ r.sourceIds.getD [] ≠ [])) (htypes : r.sourceTypes = some []) (hlimit : r.limit ≠ 0) :
    ∃ hits, hybridSearch r (oneChunk ε store id) = .hits hits ∧ hits ≠ [] := by
  have hlegs : r.legs (oneChunk ε store id) = ⟨if r.hasDense then some (.complete [id]) else none,
      if r.hasSparse then some (.complete [id]) else none⟩ := rfl
  have hraised : (r.legs (oneChunk ε store id)).raised? true = none := by
    rw [hlegs]
    cases r.hasDense <;> cases r.hasSparse <;> rfl
  have hreason : degradationReason (Legs.status (r.legs (oneChunk ε store id)).dense)
      (Legs.status (r.legs (oneChunk ε store id)).sparse) = none := by
    rw [hlegs]
    cases r.hasDense <;> cases r.hasSparse <;> rfl
  have hmem : id ∈ (fusion (Legs.ids (r.legs (oneChunk ε store id)).dense) (Legs.ids (r.legs (oneChunk ε store id)).sparse)).map
      Prod.fst := by
    rw [hlegs]
    rcases hruns.2.2 with hd | hs
    · rw [if_pos hd]
      cases r.hasSparse <;> simp [fusion, sortedByScore, Legs.ids, Outcome.ids]
    · rw [if_pos hs]
      cases r.hasDense <;> simp [fusion, sortedByScore, Legs.ids, Outcome.ids]
  have htop : top r (oneChunk ε store id) ≠ [] := by
    intro hnil
    rw [top, List.take_eq_nil_iff] at hnil
    rcases hnil with hnil | hnil
    · exact hlimit hnil
    · rw [hnil] at hmem
      cases hmem
  obtain ⟨rows, hread⟩ : ∃ rows, payloadOf (oneChunk ε store id) ((top r (oneChunk ε store id)).map Prod.fst) = .complete rows := by
    unfold payloadOf
    split
    · exact ⟨_, rfl⟩
    · exact ⟨_, rfl⟩
  have hkeys := hits_eq hlawful hread
  have hfilter : ((top r (oneChunk ε store id)).filter fun e => (oneChunk ε store id).remains e.1) = top r (oneChunk ε store id) :=
    List.filter_eq_self.mpr fun _ _ => rfl
  rw [hfilter] at hkeys
  have hunknown : ¬ r.unknownTypes ≠ [] := by
    rw [Request.unknownTypes, htypes]
    simp
  refine ⟨_, (hybridSearch_runs hruns hboth hunknown rfl hraised).trans (finish_hits hlawful hread hreason), fun hnil => htop ?_⟩
  rw [← hkeys, hnil]
  rfl

/-- The search says what it covers, whatever the reads come to, just when the source types are not an empty list or nothing can be
returned anyway. -/
theorem honest_iff (store : Store) (r : Request) : (∀ o : Outcomes ε, Lawful store r o → Honest store r o) ↔
    (r.sourceTypes = some [] → Barren store r) := by
  constructor
  · intro h htypes
    by_contra hbarren
    simp only [Barren, not_or, not_not, not_forall] at hbarren
    obtain ⟨hruns, hboth, hlimit, hprefetch, row, hrow, hadmits⟩ := hbarren
    have hlawful : Lawful store r (oneChunk ε store row.chunkId) := oneChunk_lawful hrow hadmits hprefetch
    obtain ⟨hits, hresult, hne⟩ := oneChunk_returned row.chunkId hlawful hruns hboth htypes hlimit
    have hsays := honest_iff_answer.mp (h _ hlawful)
    rw [hresult] at hsays
    obtain ⟨hit, hhit⟩ := List.exists_mem_of_ne_nil hits hne
    obtain ⟨row', -, -, -, -, hgiven⟩ := hsays.2 hit hhit
    cases hgiven [] htypes
  · exact fun h o hlawful => honest_of hlawful h

def oneDocument : Store where
  rows := [{ chunkId := 1, sourceType := "document".toList, sourceId := 10, vaultId := some 7, sectionPath := none, content := [] }]
  row_key := List.nodup_singleton _

/-- A search of one vault for no type of source. -/
def noType : Request where
  queryDense := none
  querySparseIndices := [5]
  sourceIds := none
  vaultIds := some [7]
  sourceTypes := some []
  limit := 10
  prefetchPerLeg := 50

/-- A search for no type of source returns a chunk as a complete answer. -/
theorem no_type_returns_chunk : Lawful oneDocument noType (oneChunk Unit oneDocument 1) ∧
    ¬ Honest oneDocument noType (oneChunk Unit oneDocument 1) := by
  have hadmits : ∀ row ∈ oneDocument.rows, row.chunkId = 1 ∧ noType.LegAdmits row.toChunk := by
    refine List.forall_mem_singleton.mpr ⟨rfl, fun l hl => ?_, fun l hl => ?_⟩
    · cases hl
      exact ⟨7, List.mem_singleton_self 7, rfl⟩
    · cases hl
  obtain ⟨hid, hrow⟩ := hadmits _ List.mem_cons_self
  have hlawful : Lawful oneDocument noType (oneChunk Unit oneDocument 1) :=
    hid ▸ oneChunk_lawful List.mem_cons_self hrow (by decide)
  have hruns : noType.Runs := ⟨by decide, by decide, .inr rfl⟩
  obtain ⟨hits, hresult, hne⟩ := oneChunk_returned 1 hlawful hruns (by decide) rfl (by decide)
  refine ⟨hlawful, fun h => ?_⟩
  have hsays := honest_iff_answer.mp h
  rw [hresult] at hsays
  obtain ⟨hit, hhit⟩ := List.exists_mem_of_ne_nil hits hne
  obtain ⟨row, -, -, -, -, hgiven⟩ := hsays.2 hit hhit
  cases hgiven [] rfl

end Akb.Search.Hybrid
