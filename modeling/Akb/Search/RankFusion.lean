import Mathlib.Algebra.Order.Field.Rat
import Mathlib.Data.List.Sort
import Mathlib.Tactic.Linarith
import Mathlib.Tactic.Positivity

/-! Rank fusion of a search: the places of the hits in the first stage and those that a reranker
gives some of them are summed up, in exact rational numbers. -/
namespace Akb.Search

structure VectorHit where
  chunkId : String
  sourceType : String
  sourceId : String
  sectionPath : String
  content : String
  score : ℚ
  deriving DecidableEq

/-! ### Fusion -/

/-- The loop over the reranked list: the scores by the place of a hit, and the places seen. -/
structure Votes where
  scores : List ℚ
  seen : List Nat

/-- The score of a hit by its own place. -/
def firstScores (fusionK n : Nat) : List ℚ := (List.range n).map (fun i => 1 / ((fusionK + i + 1 : Nat) : ℚ))

/-- One entry of the reranked list, an index with a score that nothing reads, at its rank. -/
def Votes.vote (fusionK : Nat) (v : Votes) (entry : (Int × ℚ) × Nat) : Votes :=
  if entry.1.1 < 0 ∨ (v.scores.length : Int) ≤ entry.1.1 ∨ entry.1.1.toNat ∈ v.seen then v
  else
    { scores := v.scores.modify entry.1.1.toNat (· + 1 / ((fusionK + entry.2 : Nat) : ℚ))
      seen := entry.1.1.toNat :: v.seen }

def fusedScores (fusionK n : Nat) (ranked : List (Int × ℚ)) : List ℚ :=
  ((ranked.zipIdx 1).foldl (Votes.vote fusionK) ⟨firstScores fusionK n, []⟩).scores

/-- The order of the keys `(-score, idx)`. -/
def Ahead (scores : List ℚ) (i j : Nat) : Prop :=
  scores.getD j 0 < scores.getD i 0 ∨ scores.getD i 0 = scores.getD j 0 ∧ i ≤ j

instance (scores : List ℚ) : DecidableRel (Ahead scores) := fun _ _ => inferInstanceAs (Decidable (_ ∨ _))

def ordered (scores : List ℚ) : List Nat := (List.range scores.length).insertionSort (Ahead scores)

/-- `fuse_original_and_reranked_hits`. -/
def fuseOriginalAndRerankedHits (hits : List VectorHit) (ranked : List (Int × ℚ)) (fusionK : Nat) : List VectorHit :=
  if hits = [] then []
  else
    let scores := fusedScores fusionK hits.length ranked
    (ordered scores).filterMap (fun i => hits[i]?.map (fun hit => { hit with score := scores.getD i 0 }))

/-! ### What a score is -/

/-- The rank of the first entry for a place, where the list begins with the given rank. -/
def firstRank (i : Nat) : Nat → List (Int × ℚ) → Option Nat
  | _, [] => none
  | rank, entry :: ranked => if entry.1 = i then some rank else firstRank i (rank + 1) ranked

def bonus (fusionK : Nat) : Option Nat → ℚ
  | none => 0
  | some rank => 1 / ((fusionK + rank : Nat) : ℚ)

/-- The fused score of the hit at a place. -/
def fusedScore (fusionK : Nat) (ranked : List (Int × ℚ)) (i : Nat) : ℚ :=
  1 / ((fusionK + i + 1 : Nat) : ℚ) + bonus fusionK (firstRank i 1 ranked)

/-- The entry counts for the place `i`. -/
def Votes.Counts (v : Votes) (entry : Int × ℚ) (i : Nat) : Prop := entry.1 = i ∧ i < v.scores.length ∧ i ∉ v.seen

variable {fusionK : Nat}

theorem vote_length (v : Votes) (entry : (Int × ℚ) × Nat) : (v.vote fusionK entry).scores.length = v.scores.length := by
  rw [Votes.vote]
  split
  · rfl
  · exact List.length_modify ..

/-- An entry changes the score of the place that it counts for, and nothing else. -/
theorem vote_score (v : Votes) (entry : (Int × ℚ) × Nat) {i : Nat} (hi : i < v.scores.length) :
    (v.vote fusionK entry).scores.getD i 0 =
      v.scores.getD i 0 + if entry.1.1 = i ∧ i ∉ v.seen then 1 / ((fusionK + entry.2 : Nat) : ℚ) else 0 := by
  rw [Votes.vote]
  split
  · rename_i hskip
    rw [if_neg, add_zero]
    rintro ⟨hidx, hseen⟩
    rw [hidx] at hskip
    rcases hskip with hneg | hout | hmem
    · omega
    · omega
    · exact hseen (by simpa using hmem)
  · rename_i hcounts
    simp only [not_or, not_lt, not_le] at hcounts
    obtain ⟨hneg, hout, hseen⟩ := hcounts
    simp only [List.getD_eq_getElem?_getD, List.getElem?_modify, List.getElem?_eq_getElem hi]
    by_cases hidx : entry.1.1 = i
    · have hat : entry.1.1.toNat = i := by omega
      rw [hat] at hseen
      simp [hidx, hseen]
    · have hat : entry.1.1.toNat ≠ i := by omega
      simp [hidx, hat]

theorem vote_seen (v : Votes) (entry : (Int × ℚ) × Nat) {i : Nat} (hi : i < v.scores.length) :
    i ∈ (v.vote fusionK entry).seen ↔ i ∈ v.seen ∨ entry.1.1 = i := by
  rw [Votes.vote]
  split
  · rename_i hskip
    refine ⟨Or.inl, fun h => h.elim id fun hidx => ?_⟩
    rw [hidx] at hskip
    rcases hskip with hneg | hout | hmem
    · omega
    · omega
    · simpa using hmem
  · rename_i hcounts
    simp only [not_or, not_lt, not_le] at hcounts
    rw [List.mem_cons, or_comm]
    refine or_congr_right ⟨fun h => ?_, fun h => ?_⟩ <;> omega

theorem votes_score (ranked : List (Int × ℚ)) (rank : Nat) (v : Votes) {i : Nat} (hi : i < v.scores.length) :
    ((ranked.zipIdx rank).foldl (Votes.vote fusionK) v).scores.getD i 0 =
      v.scores.getD i 0 + if i ∈ v.seen then 0 else bonus fusionK (firstRank i rank ranked) := by
  induction ranked generalizing rank v with
  | nil => simp [firstRank, bonus]
  | cons entry ranked ih =>
    rw [List.zipIdx_cons, List.foldl_cons, ih (rank + 1) _ (by rwa [vote_length]), vote_score v _ hi, add_assoc]
    congr 1
    by_cases hseen : i ∈ v.seen
    · simp [vote_seen v _ hi, hseen]
    · by_cases hidx : entry.1 = i
      · simp [vote_seen v _ hi, hseen, hidx, firstRank, bonus]
      · simp [vote_seen v _ hi, hseen, hidx, firstRank]

theorem votes_length (entries : List ((Int × ℚ) × Nat)) (v : Votes) :
    (entries.foldl (Votes.vote fusionK) v).scores.length = v.scores.length := by
  induction entries generalizing v with
  | nil => rfl
  | cons entry entries ih => rw [List.foldl_cons, ih, vote_length]

theorem length_fusedScores (n : Nat) (ranked : List (Int × ℚ)) : (fusedScores fusionK n ranked).length = n := by
  rw [fusedScores, votes_length]
  simp [firstScores]

theorem fusedScores_eq {n i : Nat} (hi : i < n) (ranked : List (Int × ℚ)) :
    (fusedScores fusionK n ranked).getD i 0 = fusedScore fusionK ranked i := by
  have hlen : i < (firstScores fusionK n).length := by simpa [firstScores] using hi
  rw [fusedScores, votes_score ranked 1 _ hlen, fusedScore]
  simp [firstScores, hi]

/-! ### Monotonicity -/

/-- The reranker puts `i` no later than `j`; a hit that it leaves out comes last. -/
def NotBehind (ranked : List (Int × ℚ)) (i j : Nat) : Prop :=
  ∀ rank ∈ firstRank j 1 ranked, ∃ rank' ∈ firstRank i 1 ranked, rank' ≤ rank

theorem bonus_nonneg (rank : Option Nat) : 0 ≤ bonus fusionK rank := by
  cases rank with
  | none => exact le_refl 0
  | some rank =>
    rw [bonus]
    positivity

theorem firstRank_pos {i rank start : Nat} (hstart : 0 < start) {ranked : List (Int × ℚ)}
    (h : firstRank i start ranked = some rank) : 0 < rank := by
  induction ranked generalizing start with
  | nil => cases h
  | cons entry ranked ih =>
    rw [firstRank] at h
    split at h
    · cases h
      exact hstart
    · exact ih (Nat.succ_pos start) h

theorem bonus_mono {ranked : List (Int × ℚ)} {i j : Nat} (h : NotBehind ranked i j) :
    bonus fusionK (firstRank j 1 ranked) ≤ bonus fusionK (firstRank i 1 ranked) := by
  cases hj : firstRank j 1 ranked with
  | none => exact bonus_nonneg _
  | some rank =>
    obtain ⟨rank', hi, hle⟩ := h rank hj
    rw [hi]
    have hpos : 0 < rank' := firstRank_pos Nat.one_pos hi
    refine one_div_le_one_div_of_le ?_ ?_
    · exact_mod_cast Nat.add_pos_right fusionK hpos
    · exact_mod_cast Nat.add_le_add_left hle fusionK

theorem fusedScore_lt {ranked : List (Int × ℚ)} {i j : Nat} (hij : i < j) (h : NotBehind ranked i j) :
    fusedScore fusionK ranked j < fusedScore fusionK ranked i := by
  have hplace : (1 : ℚ) / ((fusionK + j + 1 : Nat) : ℚ) < 1 / ((fusionK + i + 1 : Nat) : ℚ) := by
    refine one_div_lt_one_div_of_lt ?_ ?_
    · exact_mod_cast Nat.succ_pos _
    · exact_mod_cast Nat.succ_lt_succ (Nat.add_lt_add_left hij fusionK)
  exact add_lt_add_of_lt_of_le hplace (bonus_mono h)

/-! ### The order of the result -/

instance (scores : List ℚ) : Std.Total (Ahead scores) where
  total i j := by
    rcases lt_trichotomy (scores.getD i 0) (scores.getD j 0) with hlt | heq | hgt
    · exact Or.inr (Or.inl hlt)
    · exact (le_total i j).imp (fun h => Or.inr ⟨heq, h⟩) fun h => Or.inr ⟨heq.symm, h⟩
    · exact Or.inl (Or.inl hgt)

instance (scores : List ℚ) : IsTrans Nat (Ahead scores) where
  trans i j l hij hjl := by
    rcases hij with hij | ⟨hij, hle⟩ <;> rcases hjl with hjl | ⟨hjl, hle'⟩
    · exact Or.inl (hjl.trans hij)
    · exact Or.inl (hjl ▸ hij)
    · exact Or.inl (hij ▸ hjl)
    · exact Or.inr ⟨hij.trans hjl, hle.trans hle'⟩

theorem Ahead.score_le {scores : List ℚ} {i j : Nat} (h : Ahead scores i j) : scores.getD j 0 ≤ scores.getD i 0 :=
  h.elim le_of_lt fun h => h.1.ge

/-- The hit at a place, with its fused score. -/
def rescored (hits : List VectorHit) (ranked : List (Int × ℚ)) (fusionK i : Nat) : Option VectorHit :=
  hits[i]?.map (fun hit => { hit with score := fusedScore fusionK ranked i })

/-- The order in which the hits are returned. -/
def fusedOrder (hits : List VectorHit) (ranked : List (Int × ℚ)) (fusionK : Nat) : List Nat :=
  ordered (fusedScores fusionK hits.length ranked)

theorem perm_fusedOrder (hits : List VectorHit) (ranked : List (Int × ℚ)) :
    (fusedOrder hits ranked fusionK).Perm (List.range hits.length) := by
  have hperm : (fusedOrder hits ranked fusionK).Perm (List.range (fusedScores fusionK hits.length ranked).length) :=
    List.perm_insertionSort _ _
  rwa [length_fusedScores] at hperm

theorem fuse_eq (hits : List VectorHit) (ranked : List (Int × ℚ)) :
    fuseOriginalAndRerankedHits hits ranked fusionK =
      (fusedOrder hits ranked fusionK).filterMap (rescored hits ranked fusionK) := by
  rw [fuseOriginalAndRerankedHits]
  split
  · rename_i hnil
    subst hnil
    rw [List.perm_nil.mp (perm_fusedOrder [] ranked), List.filterMap_nil]
  · refine List.filterMap_congr fun i hi => ?_
    have hlt : i < hits.length := List.mem_range.mp ((perm_fusedOrder hits ranked).mem_iff.mp hi)
    rw [rescored, fusedScores_eq hlt]

/-- A hit without its score. -/
def VectorHit.unscored (hit : VectorHit) : VectorHit := { hit with score := 0 }

theorem unscored_rescored (hits : List VectorHit) (ranked : List (Int × ℚ)) (i : Nat) :
    (rescored hits ranked fusionK i).map VectorHit.unscored = hits[i]?.map VectorHit.unscored := by
  rw [rescored, Option.map_map]
  rfl

theorem filterMap_range (hits : List VectorHit) :
    (List.range hits.length).filterMap (fun i => hits[i]?.map VectorHit.unscored) = hits.map VectorHit.unscored := by
  induction hits using List.reverseRecOn with
  | nil => rfl
  | append_singleton hits hit ih =>
    rw [List.length_append, List.length_singleton, List.range_succ, List.filterMap_append, List.map_append, ← ih]
    congr 1
    · refine List.filterMap_congr fun i hi => ?_
      rw [List.getElem?_append_left (List.mem_range.mp hi)]
    · simp

theorem pair_sublist_range {i j n : Nat} (hij : i < j) (hj : j < n) : [i, j].Sublist (List.range n) := by
  induction n with
  | zero => omega
  | succ n ih =>
    rw [List.range_succ]
    by_cases hlast : j = n
    · subst hlast
      exact (List.singleton_sublist.mpr (List.mem_range.mpr hij)).append (List.Sublist.refl [j])
    · exact (ih (by omega)).trans (List.sublist_append_left _ _)

/-- Entries for no place, or for places that the list has had, count for nothing. -/
theorem firstRank_append (i rank : Nat) {ranked extra : List (Int × ℚ)}
    (h : ∀ entry ∈ extra, entry.1 = i → ∃ entry' ∈ ranked, entry'.1 = i) :
    firstRank i rank (ranked ++ extra) = firstRank i rank ranked := by
  induction ranked generalizing rank with
  | nil =>
    rw [List.nil_append]
    have hnone : ∀ entry ∈ extra, entry.1 ≠ i := fun entry hmem heq => by simpa using h entry hmem heq
    clear h
    induction extra generalizing rank with
    | nil => rfl
    | cons entry extra ih =>
      have hskip : firstRank i rank (entry :: extra) = firstRank i (rank + 1) extra :=
        if_neg (hnone entry List.mem_cons_self)
      rw [hskip, ih (rank + 1) fun e he => hnone e (List.mem_cons_of_mem entry he)]
      rfl
  | cons first ranked ih =>
    rw [List.cons_append, firstRank, firstRank]
    split
    · rfl
    · rename_i hne
      refine ih (rank + 1) fun entry hmem heq => ?_
      obtain ⟨entry', hmem', heq'⟩ := h entry hmem heq
      rcases List.mem_cons.mp hmem' with rfl | hmem'
      · exact absurd heq' hne
      · exact ⟨entry', hmem', heq'⟩

/-- Rank fusion returns all the hits in the order of their fused scores, keeps two hits in order that
both rankings have in order, and does not read entries that are out of range or repeated at the end. -/
theorem rank_fusion (hits : List VectorHit) (ranked : List (Int × ℚ)) (fusionK : Nat) :
    ((fuseOriginalAndRerankedHits hits ranked fusionK).map VectorHit.unscored).Perm (hits.map VectorHit.unscored) ∧
    (fuseOriginalAndRerankedHits hits ranked fusionK).Pairwise (fun a b => b.score ≤ a.score) ∧
    (∃ order, order.Perm (List.range hits.length) ∧
      fuseOriginalAndRerankedHits hits ranked fusionK = order.filterMap (rescored hits ranked fusionK) ∧
      ∀ i j, i < j → j < hits.length → NotBehind ranked i j → [i, j].Sublist order) ∧
    ∀ extra : List (Int × ℚ),
      (∀ entry ∈ extra, entry.1 < 0 ∨ (hits.length : Int) ≤ entry.1 ∨ ∃ entry' ∈ ranked, entry'.1 = entry.1) →
      fuseOriginalAndRerankedHits hits (ranked ++ extra) fusionK = fuseOriginalAndRerankedHits hits ranked fusionK := by
  have hperm : (fusedOrder hits ranked fusionK).Perm (List.range hits.length) := perm_fusedOrder hits ranked
  have hmem : ∀ i ∈ fusedOrder hits ranked fusionK, i < hits.length := fun i hi => List.mem_range.mp (hperm.mem_iff.mp hi)
  refine ⟨?_, ?_, ⟨fusedOrder hits ranked fusionK, hperm, fuse_eq hits ranked, fun i j hij hj h => ?_⟩, fun extra hextra => ?_⟩
  · rw [fuse_eq, List.map_filterMap]
    simp only [unscored_rescored]
    exact (hperm.filterMap _).trans (List.Perm.of_eq (filterMap_range hits))
  · rw [fuse_eq]
    have hsorted := List.pairwise_insertionSort (Ahead (fusedScores fusionK hits.length ranked))
      (List.range (fusedScores fusionK hits.length ranked).length)
    refine List.pairwise_filterMap.mpr (hsorted.imp_of_mem fun {i j} hi hj hahead a ha b hb => ?_)
    obtain ⟨x, -, rfl⟩ := Option.map_eq_some_iff.mp ha
    obtain ⟨y, -, rfl⟩ := Option.map_eq_some_iff.mp hb
    have hle := hahead.score_le
    rwa [fusedScores_eq (hmem i hi), fusedScores_eq (hmem j hj)] at hle
  · have hahead : Ahead (fusedScores fusionK hits.length ranked) i j := by
      rw [Ahead, fusedScores_eq hj, fusedScores_eq (hij.trans hj)]
      exact Or.inl (fusedScore_lt hij h)
    refine List.pair_sublist_insertionSort hahead ?_
    rw [length_fusedScores]
    exact pair_sublist_range hij hj
  · have hscores : ∀ i < hits.length, fusedScore fusionK (ranked ++ extra) i = fusedScore fusionK ranked i := by
      intro i hi
      rw [fusedScore, fusedScore, firstRank_append]
      intro entry hmem' heq
      rcases hextra entry hmem' with hneg | hout | ⟨entry', hentry', heq'⟩
      · omega
      · omega
      · exact ⟨entry', hentry', heq'.trans heq⟩
    have hfused : fusedScores fusionK hits.length (ranked ++ extra) = fusedScores fusionK hits.length ranked := by
      refine List.ext_getElem (by rw [length_fusedScores, length_fusedScores]) fun i h₁ h₂ => ?_
      rw [length_fusedScores] at h₁
      have hi : (fusedScores fusionK hits.length (ranked ++ extra)).getD i 0 =
          (fusedScores fusionK hits.length ranked).getD i 0 :=
        (fusedScores_eq h₁ _).trans ((hscores i h₁).trans (fusedScores_eq h₁ ranked).symm)
      simpa [length_fusedScores, h₁] using hi
    rw [fuseOriginalAndRerankedHits, hfused]
    rfl

end Akb.Search
